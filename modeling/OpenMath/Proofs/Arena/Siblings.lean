/-
  Parts of a node that are rewritten one after the other.

  * `Siblings`: trees in different slots of one node;
  * `PartsRewritten`: each of them gave way to another tree, and the rest of the
    arena is as it was;
  * `PartsRewritten.cons`: one more of them;
  * `PartsRewritten.rewritten`: with that, the tree of their owner gave way to
    another one.
-/
import OpenMath.Proofs.Arena.Rewriting

namespace OpenMath.Arena

variable {a b c : Arena} {id : NodeId} {n : Node} {u v t' : Tree NodeId} {us : List (Tree NodeId)}
  {R : Tree NodeId → Tree NodeId}

/-- Different trees that a node owns. -/
structure Siblings (id : NodeId) (us : List (Tree NodeId)) (a : Arena) : Prop where
  tree : ∀ u ∈ us, a.tree? u.label = some u
  parent : ∀ u ∈ us, a.parent? u.label = some id
  distinct : (us.map Tree.label).Nodup

namespace Siblings

theorem label_ne (s : Siblings id (u :: us) a) (hv : v ∈ us) : v.label ≠ u.label := fun e =>
  (List.nodup_cons.1 s.distinct).1 (e ▸ List.mem_map_of_mem hv)

theorem tail (s : Siblings id (u :: us) a) : Siblings id us a where
  tree v hv := s.tree v (List.mem_cons_of_mem u hv)
  parent v hv := s.parent v (List.mem_cons_of_mem u hv)
  distinct := (List.nodup_cons.1 s.distinct).2

section
variable (s : Siblings id us a)
include s

theorem lt_next (hu : u ∈ us) {x : NodeId} (hx : x ∈ u.labels) : x < a.next := by
  obtain ⟨n, hn⟩ := live_of_mem_labels (s.tree u hu) hx
  exact node?_lt hn

theorem owner_lt (w : a.Wf) (hu : u ∈ us) : id < a.next := by
  obtain ⟨n, hn⟩ := w.live (s.parent u hu)
  exact node?_lt hn

theorem owner_not_mem (w : a.Wf) (hu : u ∈ us) : id ∉ u.labels :=
  w.not_mem_of_under (s.tree u hu) (s.parent u hu) .refl

end

theorem disjoint (s : Siblings id (u :: us) a) (w : a.Wf) (hv : v ∈ us) :
    u.labels.Disjoint v.labels := by
  have hu := List.mem_cons_self (a := u) (l := us)
  have hv' := List.mem_cons_of_mem u hv
  exact w.disjoint_of_parent (s.tree u hu) (s.tree v hv') (s.parent u hu) (s.parent v hv')
    (s.label_ne hv).symm

/-- When one of them gave way to another tree, the others are where they were. -/
theorem step (s : Siblings id (u :: us) a) (w : a.Wf) (h : Rewritten u t' a b) :
    Siblings id us b := by
  have hu := List.mem_cons_self (a := u) (l := us)
  have hframe {v : Tree NodeId} (hv : v ∈ us) {x : NodeId} (hx : x ∈ v.labels) :
      b.node? x = a.node? x := by
    have hv' := List.mem_cons_of_mem u hv
    refine h.frame x (s.lt_next hv' hx) (fun hxu => s.disjoint w hv hxu hx) fun e => ?_
    rw [s.parent u hu] at e
    cases e
    exact s.owner_not_mem w hv' hx
  refine ⟨?_, ?_, s.tail.distinct⟩
  · intro v hv
    exact tree?_congr (s.tail.tree v hv) fun x hx n hn => ⟨n, by rw [hframe hv hx, hn], rfl, rfl⟩
  · intro v hv
    rw [parent?, hframe hv v.label_mem_labels]
    exact s.tail.parent v hv

theorem not_mem_of_rewritten (s : Siblings id (u :: us) a) (w : a.Wf) (h : Rewritten u t' a b)
    {x : NodeId} (hx : x ∈ t'.labels) (hv : v ∈ us) : x ∉ v.labels := by
  intro hxv
  rcases h.origin x hx with hxu | hnew
  · exact s.disjoint w hv hxu hxv
  · exact absurd (s.lt_next (List.mem_cons_of_mem u hv) hxv) (not_lt.2 hnew)

theorem ne_owner_of_rewritten (s : Siblings id (u :: us) a) (w : a.Wf) (h : Rewritten u t' a b)
    {x : NodeId} (hx : x ∈ t'.labels) : x ≠ id := by
  have hu := List.mem_cons_self (a := u) (l := us)
  rintro rfl
  rcases h.origin x hx with hxu | hnew
  · exact s.owner_not_mem w hu hxu
  · exact absurd (s.owner_lt w hu) (not_lt.2 hnew)

end Siblings

/-! ## Rewriting them -/

/-- From `a` to `b`, the parts `us` of `id` gave way to other trees. -/
structure PartsRewritten (id : NodeId) (us : List (Tree NodeId)) (R : Tree NodeId → Tree NodeId)
    (a b : Arena) : Prop where
  wf : b.Wf
  next_le : a.next ≤ b.next
  owner : ∃ f : NodeId → NodeId, b.node? id = (a.node? id).map (Node.mapOwned f) ∧
    (∀ u ∈ us, f u.label = (R u).label) ∧ ∀ x, (∀ u ∈ us, x ≠ u.label) → f x = x
  tree : ∀ u ∈ us, b.tree? (R u).label = some (R u)
  frame : ∀ x < a.next, x ≠ id → (∀ u ∈ us, x ∉ u.labels) → b.node? x = a.node? x
  freed : ∀ u ∈ us, ∀ x ∈ u.labels, x ∉ (R u).labels → b.node? x = none
  origin : ∀ u ∈ us, ∀ x ∈ (R u).labels, x ∈ u.labels ∨ a.next ≤ x
  covered : ∀ x n, a.next ≤ x → b.node? x = some n → ∃ u ∈ us, x ∈ (R u).labels

theorem mapOwned_self (n : Node) : n.mapOwned (fun x => x) = n := by
  rw [Node.mapOwned, Content.map_self]
  simp

namespace PartsRewritten

theorem nil (w : a.Wf) : PartsRewritten id [] R a a where
  wf := w
  next_le := le_rfl
  owner := ⟨fun x => x, by cases a.node? id <;> simp [mapOwned_self], by simp, fun _ _ => rfl⟩
  tree := by simp
  frame _ _ _ _ := rfl
  freed := by simp
  origin := by simp
  covered x n hx hn := absurd (node?_lt hn) (not_lt.2 hx)

/-- Two renamings of what the owner owns, one after the other, are one. -/
theorem owner_cons (w : a.Wf) (s : Siblings id (u :: us) a) (h : Rewritten u t' a b)
    (h' : PartsRewritten id us R b c) :
    ∃ f : NodeId → NodeId, c.node? id = (a.node? id).map (Node.mapOwned f) ∧
      (∀ v ∈ u :: us, f v.label = (if v.label = u.label then t' else R v).label) ∧
      ∀ x, (∀ v ∈ u :: us, x ≠ v.label) → f x = x := by
  have hu := List.mem_cons_self (a := u) (l := us)
  obtain ⟨f, hf, hfu, hfx⟩ := h'.owner
  refine ⟨fun x => f (if x = u.label then t'.label else x), ?_, ?_, ?_⟩
  · rw [hf, h.owner id (s.parent u hu), Option.map_map]
    simp [Function.comp_def, Node.rename, Node.mapOwned_mapOwned]
  · intro v hv
    rcases List.mem_cons.1 hv with rfl | hv
    · simp only [if_true]
      exact hfx _ fun v hv e =>
        s.not_mem_of_rewritten w h t'.label_mem_labels hv (e ▸ v.label_mem_labels)
    · simp only [if_neg (s.label_ne hv)]
      exact hfu v hv
  · intro x hx
    simp only [if_neg (hx u hu)]
    exact hfx x fun v hv => hx v (List.mem_cons_of_mem u hv)

/-- One more part that gave way to another tree. -/
theorem cons (w : a.Wf) (s : Siblings id (u :: us) a) (h : Rewritten u t' a b)
    (h' : PartsRewritten id us R b c) :
    PartsRewritten id (u :: us) (fun v => if v.label = u.label then t' else R v) a c := by
  have hu := List.mem_cons_self (a := u) (l := us)
  have hR {v : Tree NodeId} (hv : v ∈ us) : (if v.label = u.label then t' else R v) = R v :=
    if_neg (s.label_ne hv)
  refine ⟨h'.wf, h.next_le.trans h'.next_le, owner_cons w s h h', ?_, ?_, ?_, ?_, ?_⟩
  · intro v hv
    rcases List.mem_cons.1 hv with rfl | hv
    · rw [if_pos rfl]
      refine tree?_congr h.tree fun x hx n hn => ⟨n, ?_, rfl, rfl⟩
      rw [h'.frame x (node?_lt hn) (s.ne_owner_of_rewritten w h hx)
        fun v hv => s.not_mem_of_rewritten w h hx hv, hn]
    · rw [hR hv]
      exact h'.tree v hv
  · intro x hx hxi hxu
    have hxb := h.frame x hx (hxu u hu) fun e => hxi (Option.some.inj (e.symm.trans (s.parent u hu)))
    rw [← hxb]
    exact h'.frame x (hx.trans_le h.next_le) hxi fun v hv => hxu v (List.mem_cons_of_mem u hv)
  · intro v hv x hx hxR
    rcases List.mem_cons.1 hv with rfl | hv
    · rw [if_pos rfl] at hxR
      have hxa := s.lt_next hu hx
      rw [h'.frame x (hxa.trans_le h.next_le) (fun e => s.owner_not_mem w hu (e ▸ hx))
        fun v hv hxv => s.disjoint w hv hx hxv]
      exact h.freed x hx hxR
    · rw [hR hv] at hxR
      exact h'.freed v hv x hx hxR
  · intro v hv x hx
    rcases List.mem_cons.1 hv with rfl | hv
    · rw [if_pos rfl] at hx
      exact h.origin x hx
    · rw [hR hv] at hx
      exact (h'.origin v hv x hx).imp_right h.next_le.trans
  · intro x n hx hn
    by_cases hb : x < b.next
    · have hxi : x ≠ id := ((s.owner_lt w hu).trans_le hx).ne'
      have hxv (v : Tree NodeId) (hv : v ∈ us) : x ∉ v.labels := fun hxv =>
        absurd (s.lt_next (List.mem_cons_of_mem u hv) hxv) (not_lt.2 hx)
      rw [h'.frame x hb hxi hxv] at hn
      refine ⟨u, hu, ?_⟩
      rw [if_pos rfl]
      exact h.covered x n hx hn
    · obtain ⟨v, hv, hxv⟩ := h'.covered x n (not_lt.1 hb) hn
      exact ⟨v, List.mem_cons_of_mem u hv, by rwa [hR hv]⟩

/-! ## The tree of the owner -/

section
variable {cs : Content (Tree NodeId)} {as : List (Symbol × Tree NodeId)} (w : a.Wf)
  (hn : a.node? id = some n) (hr : a.Roots n cs as) (hus : us.Perm cs.structural)
  (h : PartsRewritten id us R a b)
include w hn hr hus h

theorem frame_value {e : Symbol × Tree NodeId} (he : e ∈ as) {x : NodeId} (hx : x ∈ e.2.labels) :
    b.node? x = a.node? x := by
  have hp := hr.parent w hn
  obtain ⟨m, hm⟩ := live_of_mem_labels (hr.value e he) hx
  refine h.frame x (node?_lt hm) ?_ ?_
  · rintro rfl
    exact w.not_mem_of_under (hr.value e he) (hp.2 e he) .refl hx
  · intro u hu hxu
    have hu := hus.mem_iff.1 hu
    exact w.disjoint_of_parent (hr.part u hu) (hr.value e he) (hp.1 u hu) (hp.2 e he)
      (hr.label_ne w hn hu he) hxu hx

/-- The owner has the new trees, and the values that it had. -/
theorem roots : ∃ f : NodeId → NodeId, b.node? id = some (n.mapOwned f) ∧
    b.Roots (n.mapOwned f) (cs.map R) as := by
  obtain ⟨f, hf, hfu, hfx⟩ := h.owner
  refine ⟨f, by rw [hf, hn, Option.map_some], ?_, ?_, ?_, ?_⟩
  · rw [Node.mapOwned, hr.content, Content.map_map, Content.map_map]
    exact Content.map_congr fun u hu => hfu u (hus.mem_iff.2 hu)
  · rw [Node.mapOwned, hr.attributes, List.map_map]
    refine List.map_congr_left fun e he => Prod.ext rfl (hfx _ fun u hu => ?_)
    exact (hr.label_ne w hn (hus.mem_iff.1 hu) he).symm
  · intro u hu
    rw [Content.structural_map] at hu
    obtain ⟨v, hv, rfl⟩ := List.mem_map.1 hu
    exact h.tree v (hus.mem_iff.2 hv)
  · intro e he
    exact tree?_congr (hr.value e he) fun x hx m hm =>
      ⟨m, by rw [h.frame_value w hn hr hus he hx, hm], rfl, rfl⟩

/-- When all parts of a node gave way to other trees, the tree of the node gave
    way to the one with these parts. -/
theorem rewritten : Rewritten (.rooted id cs as) (.rooted id (cs.map R) as) a b := by
  have hmem {x : NodeId} {ds : Content (Tree NodeId)} :=
    Tree.mem_labels_rooted (x := x) id ds as
  have hp := hr.parent w hn
  obtain ⟨f, hb, hroots⟩ := h.roots w hn hr hus
  have hpart {x : NodeId} {u : Tree NodeId} (hu : u ∈ us) (hx : x ∈ (R u).labels) :
      x ∈ (Tree.rooted id (cs.map R) as).labels := by
    refine hmem.2 (.inr ⟨R u, List.mem_append_left _ ?_, hx⟩)
    rw [Content.structural_map]
    exact List.mem_map_of_mem (hus.mem_iff.1 hu)
  refine ⟨h.wf, h.next_le, tree?_rooted hb hroots, ?_, ?_, ?_, ?_, ?_, ?_⟩
  · rw [Tree.label_rooted, Tree.label_rooted, parent?, parent?, hb, hn]
    rfl
  · intro p hq
    rw [Tree.label_rooted] at hq
    obtain ⟨m, hm⟩ := w.live hq
    have hu : a.Under p id := .of_parent hq
    rw [Tree.label_rooted, Tree.label_rooted, hm, Option.map_some, rename_self, ← hm]
    refine h.frame p (node?_lt hm) (w.acyclic.parent?_ne hq).symm ?_
    intro u hu'
    have hu' := hus.mem_iff.1 hu'
    exact w.not_mem_of_under (hr.part u hu') (hp.1 u hu') hu
  · intro x hx hxt _
    rw [hmem, not_or] at hxt
    exact h.frame x hx hxt.1 fun u hu hxu =>
      hxt.2 ⟨u, List.mem_append_left _ (hus.mem_iff.1 hu), hxu⟩
  · intro x hx hxt
    rw [hmem, not_or] at hxt
    rcases hmem.1 hx with rfl | ⟨u, hu, hxu⟩
    · exact absurd rfl hxt.1
    · rcases List.mem_append.1 hu with hu | hu
      · have hu := hus.mem_iff.2 hu
        exact h.freed u hu x hxu fun hxR => (not_or.2 hxt) (hmem.1 (hpart hu hxR))
      · exact absurd ⟨u, List.mem_append_right _ hu, hxu⟩ hxt.2
  · intro x hx
    rcases hmem.1 hx with rfl | ⟨v, hv, hxv⟩
    · exact .inl (hmem.2 (.inl rfl))
    · rcases List.mem_append.1 hv with hv | hv
      · rw [Content.structural_map] at hv
        obtain ⟨u, hu, rfl⟩ := List.mem_map.1 hv
        refine (h.origin u (hus.mem_iff.2 hu) x hxv).imp_left fun hxu => ?_
        exact hmem.2 (.inr ⟨u, List.mem_append_left _ hu, hxu⟩)
      · exact .inl (hmem.2 (.inr ⟨v, List.mem_append_right _ hv, hxv⟩))
  · intro x m hx hm
    obtain ⟨u, hu, hxu⟩ := h.covered x m hx hm
    exact hpart hu hxu

end

end PartsRewritten

end OpenMath.Arena
