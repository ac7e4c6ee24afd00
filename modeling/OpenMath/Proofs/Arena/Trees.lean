/-
  The tree at a node.

  * `tree?_eq_some_iff`: what it is to read a tree off an arena;
  * `Wf.exists_tree`: there is a tree at every node;
  * `exists_roots`, `Wf.shaped`: a tree by the content and the attributes of its
    node, and what is known of it;
  * `Wf.mem_labels`, `Wf.labels_nodup`: its nodes are those inside the node, and
    each is in it once;
  * `tree?_congr`: the tree depends on its own nodes only, parents apart.
-/
import OpenMath.Proofs.Arena.Links
import OpenMath.Proofs.Tree.Shaped
import OpenMath.Arena.Reading

namespace OpenMath

namespace Arena

variable {a b : Arena} {c id p x y : NodeId} {n : Node} {t u : Tree NodeId}

/-! ## Reading a tree -/

theorem tree?_label (h : a.tree? id = some t) : t.label = id := by
  rw [tree?] at h
  simp only [Option.bind_eq_bind, Option.bind_eq_some_iff, Option.pure_def, Option.some.injEq] at h
  obtain ⟨n, -, ss, -, rfl⟩ := h
  rfl

theorem mapM_tree?_eq_some {xs : Slots NodeId} {ss : Slots (Tree NodeId)} :
    (xs.mapM fun s => do
        let t ← a.tree? s.content
        return (⟨s.role, t⟩ : Slot (Tree NodeId))) = some ss ↔
      xs = ss.mapContent Tree.label ∧ ∀ s ∈ ss, a.tree? s.content.label = some s.content := by
  induction xs generalizing ss with
  | nil => cases ss <;> simp [Slots.mapContent]
  | cons s xs ih =>
    simp only [List.mapM_cons, Option.bind_eq_bind, Option.bind_eq_some_iff, Option.pure_def,
      Option.some.injEq]
    constructor
    · rintro ⟨s', ⟨t, ht, rfl⟩, ss', hss, rfl⟩
      obtain ⟨rfl, hall⟩ := ih.1 hss
      refine ⟨by simp [Slots.mapContent, Slot.map, tree?_label ht], fun s' hs' => ?_⟩
      rcases List.mem_cons.1 hs' with rfl | hs'
      · rwa [tree?_label ht]
      · exact hall s' hs'
    · rintro ⟨he, hall⟩
      cases ss with
      | nil => cases he
      | cons s' ss' =>
        simp only [Slots.mapContent, List.map_cons, List.cons.injEq] at he
        obtain ⟨rfl, rfl⟩ := he
        exact ⟨_, ⟨_, hall s' (List.mem_cons_self ..), rfl⟩, ss',
          ih.2 ⟨rfl, fun s hs => hall s (List.mem_cons_of_mem _ hs)⟩, rfl⟩

/-- The tree at a node: its slots hold the trees of the nodes in the slots of the
    node. -/
theorem tree?_eq_some_iff {l : NodeId} {k : Kind} {ss : Slots (Tree NodeId)} :
    a.tree? id = some (.node l k ss) ↔ l = id ∧
      ∃ n, a.node? id = some n ∧ n.kind = k ∧ n.slots = ss.mapContent Tree.label ∧
        ∀ s ∈ ss, a.tree? s.content.label = some s.content := by
  rw [tree?]
  simp only [Option.bind_eq_bind, Option.bind_eq_some_iff, Option.pure_def, Option.some.injEq,
    Tree.node.injEq]
  constructor
  · rintro ⟨n, hn, ss', hss, rfl, rfl, rfl⟩
    exact ⟨rfl, n, hn, rfl, mapM_tree?_eq_some.1 hss⟩
  · rintro ⟨rfl, n, hn, rfl, hss⟩
    exact ⟨n, hn, ss, mapM_tree?_eq_some.2 hss, rfl, rfl, rfl⟩

/-! ## There is a tree -/

/-- No chain downwards goes on for ever. -/
theorem Wf.descends (w : a.Wf) : WellFounded fun c p => a.parent? c = some p := by
  -- a strict order on the nodes that are there, of which there are finitely many
  have : IsStrictOrder NodeId fun c p => a.Under p c ∧ c ≠ p :=
    { irrefl := fun c h => h.2 rfl
      trans := fun x y z h h' => by
        refine ⟨h'.1.trans h.1, ?_⟩
        rintro rfl
        exact h.2 (w.acyclic.antisymm h'.1 h.1) }
  have hs := (Set.finite_lt_nat a.next).wellFoundedOn (r := fun c p => a.Under p c ∧ c ≠ p)
  refine Subrelation.wf (fun {c p} h => ?_) (Set.wellFoundedOn_iff.1 hs)
  obtain ⟨n, hn⟩ := w.live h
  obtain ⟨m, hm, -⟩ := node?_of_parent? h
  exact ⟨⟨.of_parent h, w.acyclic.parent?_ne h⟩, node?_lt hm, node?_lt hn⟩

/-- There is a tree at every node that is there. -/
theorem Wf.exists_tree (w : a.Wf) (h : a.node? id = some n) : ∃ t, a.tree? id = some t := by
  induction id using w.descends.induction generalizing n with
  | _ id ih =>
    let g (c : NodeId) : Tree NodeId := (a.tree? c).getD (.node c n.kind [])
    have hg : ∀ s ∈ n.slots, a.tree? s.content = some (g s.content) := fun s hs => by
      have ho := Node.mem_owned_of_slot hs
      obtain ⟨m, hm, -⟩ := w.node?_of_mem h ho
      obtain ⟨t, ht⟩ := ih _ (w.parent?_of_mem h ho) hm
      simp [g, ht]
    refine ⟨.node id n.kind (n.slots.mapContent g), tree?_eq_some_iff.2 ⟨rfl, n, h, rfl, ?_, ?_⟩⟩
    · rw [Slots.mapContent_mapContent]
      refine (List.map_id' _).symm.trans (List.map_congr_left fun s hs => ?_)
      rw [Slot.map, tree?_label (hg s hs)]
    · intro s hs
      obtain ⟨s, hm, rfl⟩ := List.mem_map.1 hs
      exact (tree?_label (hg s hm)).symm ▸ hg s hm

theorem exists_node_of_tree (h : a.tree? id = some t) :
    ∃ n, a.node? id = some n ∧ n.kind = t.kind ∧ n.slots = t.slots.mapContent Tree.label ∧
      ∀ s ∈ t.slots, a.tree? s.content.label = some s.content := by
  cases t with
  | node l k ss => exact (tree?_eq_some_iff.1 h).2

theorem exists_slot (h : a.tree? id = some t) (hn : a.node? id = some n) {s : Slot NodeId}
    (hs : s ∈ n.slots) :
    ∃ s' ∈ t.slots, s'.role = s.role ∧ s'.content.label = s.content ∧
      a.tree? s.content = some s'.content := by
  obtain ⟨m, hm, -, hss, hall⟩ := exists_node_of_tree h
  cases hn.symm.trans hm
  rw [hss] at hs
  obtain ⟨s', hs', rfl⟩ := List.mem_map.1 hs
  exact ⟨s', hs', rfl, rfl, hall s' hs'⟩

/-! ## Trees by their contents -/

/-- `n` is the node of a tree with a content and attributes, all of which are
    trees of the arena. -/
structure Roots (a : Arena) (n : Node) (c : Content (Tree NodeId))
    (as : List (Symbol × Tree NodeId)) : Prop where
  content : n.content = c.map Tree.label
  attributes : n.attributes = as.map fun e => (e.1, e.2.label)
  part : ∀ u ∈ c.structural, a.tree? u.label = some u
  value : ∀ e ∈ as, a.tree? e.2.label = some e.2

variable {cs : Content (Tree NodeId)} {as : List (Symbol × Tree NodeId)}

theorem Roots.slots (h : a.Roots n cs as) : n.slots = (cs.allSlots as).mapContent Tree.label := by
  rw [Node.slots, h.content, h.attributes, Content.mapContent_allSlots]

theorem Roots.of_mem_slots (h : a.Roots n cs as) {s : Slot (Tree NodeId)}
    (hs : s ∈ cs.allSlots as) : a.tree? s.content.label = some s.content := by
  have hm : s.content ∈ cs.structural ++ as.map (·.2) :=
    Content.contents_allSlots cs as ▸ List.mem_map_of_mem hs
  rcases List.mem_append.1 hm with hm | hm
  · exact h.part _ hm
  · obtain ⟨e, he, heq⟩ := List.mem_map.1 hm
    exact heq ▸ h.value e he

theorem tree?_rooted (hn : a.node? id = some n) (h : a.Roots n cs as) :
    a.tree? id = some (.rooted id cs as) :=
  tree?_eq_some_iff.2 ⟨rfl, n, hn, by rw [Node.kind, h.content, Content.kind_map], h.slots,
    fun _ hs => h.of_mem_slots hs⟩

theorem Roots.owned (h : a.Roots n cs as) :
    n.owned = cs.structural.map Tree.label ++ as.map fun e => e.2.label := by
  rw [Node.owned, h.content, h.attributes, Content.structural_map, List.map_map]
  rfl

theorem Roots.parent (h : a.Roots n cs as) (w : a.Wf) (hn : a.node? id = some n) :
    (∀ u ∈ cs.structural, a.parent? u.label = some id) ∧
      ∀ e ∈ as, a.parent? e.2.label = some id := by
  refine ⟨fun u hu => w.parent?_of_mem hn ?_, fun e he => w.parent?_of_mem hn ?_⟩
  · rw [h.owned]
    exact List.mem_append_left _ (List.mem_map_of_mem hu)
  · rw [h.owned]
    exact List.mem_append_right _ (List.mem_map.2 ⟨e, he, rfl⟩)

theorem Roots.label_ne (h : a.Roots n cs as) (w : a.Wf) (hn : a.node? id = some n)
    (hu : u ∈ cs.structural) {e : Symbol × Tree NodeId} (he : e ∈ as) :
    u.label ≠ e.2.label := by
  have hnd := w.owned_nodup hn
  rw [h.owned, List.nodup_append] at hnd
  exact hnd.2.2 _ (List.mem_map_of_mem hu) _ (List.mem_map.2 ⟨e, he, rfl⟩)

/-- A tree of an arena by the content and the attributes of its node. -/
theorem exists_roots (h : a.tree? id = some t) :
    ∃ n cs as, a.node? id = some n ∧ a.Roots n cs as ∧ t = .rooted id cs as := by
  obtain ⟨n, hn, -⟩ := exists_node_of_tree h
  let g (x : NodeId) : Tree NodeId := (a.tree? x).getD t
  have hg (x : NodeId) (hx : x ∈ n.owned) : a.tree? x = some (g x) := by
    rw [← Node.contents_slots] at hx
    obtain ⟨s, hs, rfl⟩ := List.mem_map.1 hx
    obtain ⟨s', -, -, -, ht⟩ := exists_slot h hn hs
    simp [g, ht]
  have hl (x : NodeId) (hx : x ∈ n.owned) : (g x).label = x := tree?_label (hg x hx)
  have hpart {x : NodeId} (hx : x ∈ n.content.structural) : x ∈ n.owned :=
    List.mem_append_left _ hx
  have hvalue {e : Symbol × NodeId} (he : e ∈ n.attributes) : e.2 ∈ n.owned :=
    List.mem_append_right _ (List.mem_map_of_mem he)
  have hr : a.Roots n (n.content.map g) (n.attributes.map fun e => (e.1, g e.2)) := by
    refine ⟨?_, ?_, ?_, ?_⟩
    · rw [Content.map_map]
      exact n.content.map_self.symm.trans (Content.map_congr fun x hx => (hl x (hpart hx)).symm)
    · rw [List.map_map]
      exact (List.map_id' _).symm.trans
        (List.map_congr_left fun e he => Prod.ext rfl (hl e.2 (hvalue he)).symm)
    · intro u hu
      rw [Content.structural_map] at hu
      obtain ⟨x, hx, rfl⟩ := List.mem_map.1 hu
      rw [hl x (hpart hx), hg x (hpart hx)]
    · intro e he
      obtain ⟨e, hm, rfl⟩ := List.mem_map.1 he
      simp only
      rw [hl e.2 (hvalue hm), hg e.2 (hvalue hm)]
  exact ⟨n, _, _, hn, hr, Option.some.inj (h.symm.trans (tree?_rooted hn hr))⟩

theorem roots_of_tree? {c : Content (Tree NodeId)} {as : List (Symbol × Tree NodeId)}
    (h : a.tree? id = some (.rooted id c as)) : ∃ n, a.node? id = some n ∧ a.Roots n c as := by
  obtain ⟨n, c', as', hn, hr, he⟩ := exists_roots h
  obtain ⟨rfl, rfl⟩ := Tree.rooted_injective he
  exact ⟨n, hn, hr⟩

/-- A property of the trees of an arena that passes from the parts and the
    attributes of a node to the tree of the node holds of every one of them. -/
theorem tree?_induction_rooted {P : NodeId → Tree NodeId → Prop}
    (rooted : ∀ id n cs as, a.node? id = some n → a.Roots n cs as →
      (∀ u ∈ cs.structural, P u.label u) → (∀ e ∈ as, P e.2.label e.2) → P id (.rooted id cs as))
    (h : a.tree? id = some t) : P id t := by
  induction t using Tree.induction generalizing id with
  | node l k ss ih =>
    obtain ⟨n, cs, as, hn, hr, he⟩ := exists_roots h
    have hs : ss = cs.allSlots as := congrArg Tree.slots he
    have hm {u : Tree NodeId} (hu : u ∈ cs.structural ++ as.map (·.2)) (hu' : a.tree? u.label = some u) :
        P u.label u := by
      rw [← Content.contents_allSlots] at hu
      obtain ⟨s, hs', rfl⟩ := List.mem_map.1 hu
      exact ih s (hs ▸ hs') hu'
    rw [he]
    exact rooted id n cs as hn hr (fun u hu => hm (List.mem_append_left _ hu) (hr.part u hu))
      fun e he => hm (List.mem_append_right _ (List.mem_map_of_mem he)) (hr.value e he)

/-- The trees of an arena have what their kinds provide for. -/
theorem Wf.shaped (w : a.Wf) (h : a.tree? id = some t) : t.Shaped := by
  refine tree?_induction_rooted (P := fun _ t => t.Shaped) ?_ h
  intro id n cs as hn hr parts values
  refine .rooted id cs as parts values ?_ ?_
  · intro s hs
    have hm : s ∈ cs.allSlots as := List.mem_append_left _ hs
    have hs' : s.map Tree.label ∈ n.slots := hr.slots ▸ List.mem_map_of_mem hm
    obtain ⟨m, hm', hk, -⟩ := exists_node_of_tree (hr.of_mem_slots hm)
    rw [← hk]
    exact w.fits hn _ hs' m.kind (kind?_eq_some.2 ⟨m, hm', rfl⟩)
  · have hk := w.keyed hn
    rw [Node.Keyed, hr.attributes] at hk
    exact (keyed_map _).1 hk

/-! ## The nodes of a tree -/

/-- A property of the trees of an arena that passes from the trees in the slots of
    a node to the tree of the node holds of every one of them. -/
theorem tree?_induction {P : NodeId → Tree NodeId → Prop}
    (node : ∀ id n ss, a.node? id = some n → n.slots = Slots.mapContent Tree.label ss →
      (∀ s ∈ ss, a.tree? s.content.label = some s.content) →
      (∀ s ∈ ss, P s.content.label s.content) → P id (.node id n.kind ss))
    (h : a.tree? id = some t) : P id t := by
  induction t using Tree.induction generalizing id with
  | node l k ss ih =>
    obtain ⟨rfl, n, hn, rfl, hss, hall⟩ := tree?_eq_some_iff.1 h
    exact node _ n ss hn hss hall fun s hs => ih s hs (hall s hs)

theorem parent?_of_mem_slots (w : a.Wf) {ss : Slots (Tree NodeId)} (hn : a.node? id = some n)
    (hss : n.slots = ss.mapContent Tree.label) {s : Slot (Tree NodeId)} (hs : s ∈ ss) :
    a.parent? s.content.label = some id := by
  refine w.parent?_of_mem hn ?_
  rw [← Node.contents_slots, hss]
  simp only [Slots.contents, Slots.mapContent, List.map_map, List.mem_map]
  exact ⟨s, hs, rfl⟩

theorem Wf.labels_closed (w : a.Wf) (h : a.tree? id = some t) (hc : a.parent? c = some p)
    (hp : p ∈ t.labels) : c ∈ t.labels := by
  refine tree?_induction (P := fun _ t => p ∈ t.labels → c ∈ t.labels) ?_ h hp
  intro id n ss hn hss _ ih hp
  rw [Tree.labels_node, List.mem_cons, List.mem_flatMap] at hp ⊢
  rcases hp with rfl | ⟨s, hs, hp⟩
  · obtain ⟨m, hm, hcm⟩ := w.count_eq_one hc
    cases hn.symm.trans hm
    have ho : c ∈ n.owned := List.count_pos_iff.1 (by omega)
    rw [← Node.contents_slots, hss] at ho
    simp only [Slots.contents, Slots.mapContent, List.map_map, List.mem_map] at ho
    obtain ⟨s, hs, rfl⟩ := ho
    exact .inr ⟨s, hs, s.content.label_mem_labels⟩
  · exact .inr ⟨s, hs, ih s hs hp⟩

/-- The nodes of a tree are those inside its root. -/
theorem Wf.mem_labels (w : a.Wf) (h : a.tree? id = some t) : x ∈ t.labels ↔ a.Under id x := by
  constructor
  · refine tree?_induction (P := fun id t => x ∈ t.labels → a.Under id x) ?_ h
    intro id n ss hn hss _ ih hx
    rw [Tree.labels_node, List.mem_cons, List.mem_flatMap] at hx
    rcases hx with rfl | ⟨s, hs, hx⟩
    · exact .refl
    · exact (Under.of_parent (parent?_of_mem_slots w hn hss hs)).trans (ih s hs hx)
  · intro u
    induction u with
    | refl => exact tree?_label h ▸ t.label_mem_labels
    | step hp _ ih => exact w.labels_closed h hp ih

theorem live_of_mem_labels (h : a.tree? id = some t) (hx : x ∈ t.labels) :
    ∃ n, a.node? x = some n := by
  refine tree?_induction (P := fun _ t => x ∈ t.labels → ∃ n, a.node? x = some n) ?_ h hx
  intro id n ss hn _ _ ih hx
  rw [Tree.labels_node, List.mem_cons, List.mem_flatMap] at hx
  rcases hx with rfl | ⟨s, hs, hx⟩
  · exact ⟨n, hn⟩
  · exact ih s hs hx

/-- Trees of nodes with one parent have no node in common. -/
theorem Wf.disjoint_of_parent (w : a.Wf) {c d : NodeId} (ht : a.tree? c = some t)
    (hu : a.tree? d = some u) (hc : a.parent? c = some p) (hd : a.parent? d = some p)
    (hne : c ≠ d) : t.labels.Disjoint u.labels := by
  have key {c d : NodeId} (hc : a.parent? c = some p) (hd : a.parent? d = some p) (hne : c ≠ d) :
      ¬ a.Under c d := fun h => by
    rcases h.cases_parent with e | ⟨q, hq, h⟩
    · exact hne e.symm
    · cases hd.symm.trans hq
      exact w.acyclic.not_under hc h
  intro x hxt hxu
  rw [w.mem_labels ht] at hxt
  rw [w.mem_labels hu] at hxu
  rcases hxt.total hxu with h | h
  · exact key hc hd hne h
  · exact key hd hc hne.symm h

/-- No node is in a tree twice. -/
theorem Wf.labels_nodup (w : a.Wf) (h : a.tree? id = some t) : t.labels.Nodup := by
  refine tree?_induction (P := fun _ t => t.labels.Nodup) ?_ h
  intro id n ss hn hss hall ih
  have hpar {s : Slot (Tree NodeId)} (hs : s ∈ ss) := parent?_of_mem_slots w hn hss hs
  rw [Tree.labels_node, List.nodup_cons, List.nodup_flatMap]
  refine ⟨?_, ih, ?_⟩
  · intro hm
    obtain ⟨s, hs, hx⟩ := List.mem_flatMap.1 hm
    exact w.acyclic.not_under (hpar hs) ((w.mem_labels (hall s hs)).1 hx)
  · have hnd := w.owned_nodup hn
    rw [← Node.contents_slots, hss, Slots.contents, Slots.mapContent, List.map_map, List.Nodup,
      List.pairwise_map] at hnd
    exact hnd.imp_of_mem fun hs hs' hne =>
      w.disjoint_of_parent (hall _ hs) (hall _ hs') (hpar hs) (hpar hs') hne

/-! ## What a tree depends on -/

/-- The tree at a node depends on the nodes of the tree only, and not on their
    parents. -/
theorem tree?_congr (h : a.tree? id = some t)
    (hb : ∀ x ∈ t.labels, ∀ n, a.node? x = some n →
      ∃ m, b.node? x = some m ∧ m.kind = n.kind ∧ m.slots = n.slots) :
    b.tree? id = some t := by
  refine tree?_induction (P := fun id t => (∀ x ∈ t.labels, ∀ n, a.node? x = some n →
    ∃ m, b.node? x = some m ∧ m.kind = n.kind ∧ m.slots = n.slots) → b.tree? id = some t) ?_ h hb
  intro id n ss hn hss _ ih hb
  simp only [Tree.labels_node, List.mem_cons, List.mem_flatMap] at hb
  obtain ⟨m, hm, hk, hs⟩ := hb id (.inl rfl) n hn
  exact tree?_eq_some_iff.2 ⟨rfl, m, hm, hk, hs.trans hss, fun s hs =>
    ih s hs fun x hx => hb x (.inr ⟨s, hs, hx⟩)⟩

theorem tree?_of_contents (h : a.tree? id = some t)
    (hb : ∀ x ∈ t.labels, ∀ n, a.node? x = some n →
      ∃ m, b.node? x = some m ∧ m.content = n.content ∧ m.attributes = n.attributes) :
    b.tree? id = some t :=
  tree?_congr h fun x hx n hn => by
    obtain ⟨m, hm, hc, ha⟩ := hb x hx n hn
    exact ⟨m, hm, by rw [Node.kind, Node.kind, hc], by rw [Node.slots, Node.slots, hc, ha]⟩

theorem tree?_of_kept (hb : ∀ x < a.next, b.node? x = a.node? x) (h : a.tree? id = some t) :
    b.tree? id = some t :=
  tree?_congr h fun x _ n hn => ⟨n, by rw [hb x (node?_lt hn), hn], rfl, rfl⟩

end Arena

end OpenMath
