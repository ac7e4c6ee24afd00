/-
  Freeing a tree.

  * `node?_freeAll`: the nodes of the trees on the stack are given up, and no
    others;
  * `Wf.discard_ok`: a root is freed with its tree, and the links stay in step.
-/
import OpenMath.Proofs.Arena.Trees
import OpenMath.Arena.Editing

namespace OpenMath.Arena

variable {a b : Arena} {id p x : NodeId} {n : Node} {t : Tree NodeId}

@[simp] theorem next_freeAll (a : Arena) (stack : List NodeId) :
    (a.freeAll stack).next = a.next := by
  fun_induction freeAll a stack with
  | case1 a => rfl
  | case2 a id stack _ ih => exact ih
  | case3 a id stack n _ ih => rw [ih, next_free]

theorem freeAll_cons (h : a.node? id = some n) (stack : List NodeId) :
    a.freeAll (id :: stack) = (a.free id).freeAll (n.owned ++ stack) := by
  rw [freeAll]
  split <;> simp_all

/-- What is on the stack, and all that it owns, is given up. -/
theorem node?_freeAll {ts : List (Tree NodeId)} (h : ∀ t ∈ ts, a.tree? t.label = some t)
    (hnd : (ts.flatMap Tree.labels).Nodup) (x : NodeId) :
    (a.freeAll (ts.map Tree.label)).node? x =
      if x ∈ ts.flatMap Tree.labels then none else a.node? x := by
  -- each step takes one node off the trees that are still to be freed
  induction hn : (ts.flatMap Tree.labels).length generalizing a ts with
  | zero =>
    cases ts with
    | nil => simp [freeAll]
    | cons t ts => cases t; simp [Tree.labels_node] at hn
  | succ k ih =>
    cases ts with
    | nil => cases hn
    | cons t ts =>
      obtain ⟨id, kind, ss⟩ := t
      obtain ⟨-, n, hid, -, hss, hall⟩ := tree?_eq_some_iff.1 (h _ (List.mem_cons_self ..))
      rw [Tree.label_node] at hid
      have hl : ((Tree.node id kind ss) :: ts).flatMap Tree.labels =
          id :: (Slots.contents ss ++ ts).flatMap Tree.labels := by
        simp [Tree.labels_node, Slots.contents, List.flatMap_map]
      rw [hl] at hnd hn ⊢
      obtain ⟨hout, hnd⟩ := List.nodup_cons.1 hnd
      have howned : n.owned = (Slots.contents ss).map Tree.label := by
        rw [← Node.contents_slots, hss]
        simp [Slots.contents, Slots.mapContent, Slot.map]
      have hrest : ∀ u ∈ Slots.contents ss ++ ts, (a.free id).tree? u.label = some u := by
        intro u hu
        have ha : a.tree? u.label = some u := by
          rcases List.mem_append.1 hu with hu | hu
          · obtain ⟨s, hs, rfl⟩ := List.mem_map.1 hu
            exact hall s hs
          · exact h u (List.mem_cons_of_mem _ hu)
        refine tree?_congr ha fun y hy m hm => ⟨m, ?_, rfl, rfl⟩
        have hne : y ≠ id := by
          rintro rfl
          exact hout (List.mem_flatMap.2 ⟨u, hu, hy⟩)
        rw [node?_free, if_neg hne, hm]
      have hstep : a.freeAll (id :: ts.map Tree.label) =
          (a.free id).freeAll ((Slots.contents ss ++ ts).map Tree.label) := by
        rw [freeAll_cons hid, List.map_append, ← howned]
      rw [List.map_cons, Tree.label_node, hstep, ih hrest hnd (by simpa using hn), node?_free]
      simp only [List.mem_cons]
      by_cases hx : x = id <;> simp [hx]

/-- The nodes of a tree are given up, and no others. -/
def Freed (t : Tree NodeId) (a b : Arena) : Prop :=
  ∀ x, b.node? x = if x ∈ t.labels then none else a.node? x

theorem Wf.freed (w : a.Wf) (hp : a.parent? id = none) (ht : a.tree? id = some t)
    (h : Freed t a b) : b.Wf := by
  have hnode {x : NodeId} {n : Node} (hx : b.node? x = some n) :
      x ∉ t.labels ∧ a.node? x = some n := by
    rw [h x] at hx
    split at hx
    · cases hx
    · next hx' => exact ⟨hx', hx⟩
  have hpar (c : NodeId) : b.parent? c = if c ∈ t.labels then none else a.parent? c := by
    simp only [Arena.parent?, h c]
    split <;> rfl
  have hle (c q : NodeId) (hq : b.parent? c = some q) : c ∉ t.labels ∧ a.parent? c = some q := by
    rw [hpar] at hq
    split at hq
    · cases hq
    · next hc => exact ⟨hc, hq⟩
  refine ⟨?_, ?_, w.acyclic.mono fun c q hq => (hle c q hq).2, ?_, ?_⟩
  · intro q n hn c
    obtain ⟨hq, hn⟩ := hnode hn
    rw [w.count hn, hpar]
    by_cases hc : c ∈ t.labels
    · have hne : a.parent? c ≠ some q := fun hcq => by
        rcases ((w.mem_labels ht).1 hc).cases_parent with rfl | ⟨r, hr, u⟩
        · simp [hp] at hcq
        · cases hcq.symm.trans hr
          exact hq ((w.mem_labels ht).2 u)
      simp [hc, hne]
    · rw [if_neg hc]
  · intro c q hq
    obtain ⟨hc, hq⟩ := hle c q hq
    obtain ⟨n, hn⟩ := w.live hq
    exact ⟨n, by rw [h q, if_neg fun hm => hc (w.labels_closed ht hq hm), hn]⟩
  · intro q n hn s hs k hk
    obtain ⟨m, hm, rfl⟩ := kind?_eq_some.1 hk
    exact w.fits (hnode hn).2 s hs _ (kind?_eq_some.2 ⟨m, (hnode hm).2, rfl⟩)
  · exact fun hn => w.keyed (hnode hn).2

/-- A root is freed with all that is in its tree. -/
theorem Wf.discard_ok (w : a.Wf) (hp : a.parent? id = none) (ht : a.tree? id = some t) :
    ∃ b, discard id a = some (.ok (), b) ∧ Freed t a b ∧ b.next = a.next ∧ b.Wf := by
  obtain ⟨n, hn, -⟩ := exists_node_of_tree ht
  have hnp : n.parent.isSome = false := by simpa [parent?, hn] using hp
  have hf : Freed t a (a.freeAll [id]) := fun x => by
    have h1 : ∀ u ∈ [t], a.tree? u.label = some u := by
      rintro u hu
      cases List.mem_singleton.1 hu
      rwa [tree?_label ht]
    have := node?_freeAll h1 (by simpa using w.labels_nodup ht) x
    simpa [tree?_label ht] using this
  refine ⟨_, ?_, hf, next_freeAll .., w.freed hp ht hf⟩
  rw [discard, Edit.bind_ok (Edit.get_run a)]
  simp only [hn, hnp]
  rfl

theorem discard_stale (h : a.node? id = none) : discard id a = some (.ok (), a) := by
  rw [discard, Edit.bind_ok (Edit.get_run a)]
  simp only [h]
  rfl

theorem discard_attached (h : a.parent? id = some p) :
    discard id a = some (.error (.refused .discardAttached), a) := by
  obtain ⟨n, hn, hp⟩ := node?_of_parent? h
  rw [discard, Edit.bind_ok (Edit.get_run a)]
  simp only [hn, hp]
  rfl

end OpenMath.Arena
