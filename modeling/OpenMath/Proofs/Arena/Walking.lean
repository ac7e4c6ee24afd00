/-
  The walk through the nodes below a node.

  The walk keeps a stack of the nodes that are still to visit; a recursion would take the
  parts of a node one after the other.  Both go through the nodes of the tree without
  attributes, in the same order.  A node is among them if and only if climbing from it, to
  where the walk began, leads through no attribute.

  * `preorder?`: the recursion;
  * `Wf.mem_bare_iff`: an attached node is passed by the walk if its owner is, and if it is
    no value of an attribute;
  * `Wf.forall_climb_iff`: the nodes that are passed, by their addresses;
  * `Reachable.descendants_preorder`: the walk in the arenas that come about.
-/
import OpenMath.Proofs.Arena.Addresses
import OpenMath.Proofs.Arena.Readers

namespace OpenMath.Arena

variable {a : Arena} {c d id p x : NodeId} {n : Node} {t : Tree NodeId} {l : Location}

/-! ## The recursion -/

/-- A node, and then what the recursion lists for its children, its head, its bound
    variables and its body, in this order; none if an identity on the way down is not in
    use, or if there is no end to the way down. -/
def preorder? (a : Arena) (id : NodeId) : Option (List NodeId) := do
  let n ← a.node? id
  let parts ← (n.content.children ++ n.content.head?.toList ++ n.content.bound ++
    n.content.body?.toList).mapM fun x => a |>.preorder? x
  return id :: parts.flatten
partial_fixpoint

/-- The recursion lists the nodes of the tree without attributes. -/
theorem preorder?_eq (ht : a.tree? id = some t) : a.preorder? id = some t.bare.labels := by
  refine tree?_induction_rooted (P := fun id t => a.preorder? id = some t.bare.labels) ?_ ht
  intro id n cs as hn hr ihp _
  have hparts (us : List (Tree NodeId)) (hus : ∀ u ∈ us, u ∈ cs.structural) :
      (us.map Tree.label).mapM a.preorder? = some (us.map (·.bare.labels)) := by
    induction us with
    | nil => rfl
    | cons u us ih =>
      rw [List.map_cons, List.mapM_cons, ihp u (hus u (List.mem_cons_self ..)),
        ih fun v hv => hus v (List.mem_cons_of_mem _ hv)]
      rfl
  have hstructural : n.content.children ++ n.content.head?.toList ++ n.content.bound ++
      n.content.body?.toList = cs.structural.map Tree.label := by
    rw [← Content.structural, hr.content, Content.structural_map]
  rw [preorder?, hn, labels_bare]
  simp only [hstructural, Option.bind_eq_bind, Option.bind_some, Option.pure_def]
  rw [hparts _ fun _ h => h]
  rfl

/-! ## The nodes that are passed -/

theorem bare_labels_sublist (ht : a.tree? id = some t) : t.bare.labels.Sublist t.labels := by
  refine tree?_induction_rooted (P := fun _ t => t.bare.labels.Sublist t.labels) ?_ ht
  intro id n cs as _ _ ihp _
  rw [labels_bare, Tree.labels_rooted, List.flatMap_append]
  exact .cons_cons _ ((List.Sublist.flatMap_right _ ihp).trans (List.sublist_append_left ..))

/-- A node of a tree without attributes, other than the root, is a part of one of them. -/
theorem exists_owner_of_mem_bare (ht : a.tree? id = some t) (hx : x ∈ t.bare.labels)
    (hne : x ≠ id) :
    ∃ p ∈ t.bare.labels, ∃ n, a.node? p = some n ∧ x ∈ n.content.structural := by
  refine tree?_induction_rooted (P := fun id t => x ∈ t.bare.labels → x ≠ id →
    ∃ p ∈ t.bare.labels, ∃ n, a.node? p = some n ∧ x ∈ n.content.structural) ?_ ht hx hne
  intro id n cs as hn hr ihp _ hx hne
  obtain ⟨u, hu, hx⟩ := (mem_labels_bare.1 hx).resolve_left hne
  by_cases hxu : x = u.label
  · refine ⟨id, mem_labels_bare.2 (.inl rfl), n, hn, ?_⟩
    rw [hr.content, Content.structural_map, hxu]
    exact List.mem_map_of_mem hu
  · obtain ⟨p, hp, hpart⟩ := ihp u hu hx hxu
    exact ⟨p, mem_labels_bare.2 (.inr ⟨u, hu, hp⟩), hpart⟩

/-- A part of a node is found in a slot that is not that of an attribute, and the value of an
    attribute in one that is. -/
theorem Wf.mem_structural_iff (w : a.Wf) (hn : a.node? p = some n) (hc : a.parent? c = some p)
    (hl : a.locationIn? p c = some l) :
    c ∈ n.content.structural ↔ ∀ key, l ≠ .attr key := by
  obtain ⟨m, l', hm, hl', hs⟩ := w.locationIn?_spec hc
  cases hn.symm.trans hm
  cases hl.symm.trans hl'
  rcases List.mem_append.1 hs.mem with hpart | hvalue
  · refine iff_of_true ?_ ?_
    · rw [← Content.contents_slots]
      exact List.mem_map_of_mem hpart
    · rintro key rfl
      exact Content.role_ne_attr hpart key rfl
  · obtain ⟨e, he, heq⟩ := List.mem_map.1 hvalue
    obtain ⟨hrole, rfl⟩ := Slot.mk.inj heq
    refine iff_of_false (fun hpart => ?_) fun h => ?_
    · have hnd := w.owned_nodup hn
      rw [Node.owned, List.nodup_append] at hnd
      exact hnd.2.2 _ hpart _ (List.mem_map_of_mem he) rfl
    · cases l with
      | attr key => exact h key rfl
      | _ => cases hrole

/-- An attached node, other than the one where the walk began, is passed if its owner is, and
    if it is in a slot that is not that of an attribute. -/
theorem Wf.mem_bare_iff (w : a.Wf) (ht : a.tree? id = some t) (hne : c ≠ id)
    (hc : a.parent? c = some p) (hl : a.locationIn? p c = some l) :
    c ∈ t.bare.labels ↔ p ∈ t.bare.labels ∧ ∀ key, l ≠ .attr key := by
  obtain ⟨n, hn⟩ := w.live hc
  rw [← w.mem_structural_iff hn hc hl]
  constructor
  · intro hm
    obtain ⟨q, hq, m, hm, hpart⟩ := exists_owner_of_mem_bare ht hm hne
    cases (w.parent?_of_mem hm (List.mem_append_left _ hpart)).symm.trans hc
    cases hn.symm.trans hm
    exact ⟨hq, hpart⟩
  · rintro ⟨hp, hpart⟩
    exact structural_closed ht hp hn hpart

/-! ## The nodes that are passed, by their addresses -/

/-- Climbing to where the walk began leads through no attribute if the walk passes the node,
    and only then. -/
theorem Wf.forall_climb_iff (w : a.Wf) (ht : a.tree? id = some t) (u : a.Under id d)
    (path : List Location) :
    (∀ key, .attr key ∉ a.climb (some id) path d) ↔
      d ∈ t.bare.labels ∧ ∀ key, .attr key ∉ path := by
  induction u generalizing path with
  | refl =>
    have hroot : id ∈ t.bare.labels := by
      rw [← tree?_label ht, ← t.label_bare]
      exact t.bare.label_mem_labels
    rw [climb, if_pos rfl, and_iff_right hroot]
  | @step c p hp u ih =>
    have hne : c ≠ id := by
      rintro rfl
      exact w.acyclic.not_under hp u
    obtain ⟨-, l, -, hl, -⟩ := w.locationIn?_spec hp
    rw [climb_step (by simpa using hne.symm) hp hl, ih, w.mem_bare_iff ht hne hp hl, and_assoc]
    simp only [List.mem_cons, not_or, forall_and, ne_comm, ne_eq]

/-- In the arenas that come about, the walk from a node has an end, and goes through what the
    recursion lists, in the same order and without passing a node twice.  It passes just the
    nodes inside the node whose address from it leads through no attribute.  The nodes that
    pass a test are those of the walk, in its order, and there is one if they are some. -/
theorem Reachable.descendants_preorder (h : a.Reachable) (hid : a.contains id = true) :
    (∃ ids, a.walk [id] = some ids ∧ a.preorder? id = some ids ∧ a.descendants id = ids) ∧
    (a.descendants id).Nodup ∧
    (∀ d, d ∈ a.descendants id ↔
      a.isAncestorOrSelf id d = true ∧ ∀ key, .attr key ∉ a.address d (some id)) ∧
    ∀ accept, a.descendantsWhere id accept = (a.descendants id).filter accept ∧
      (a.hasDescendantWhere id accept = true ↔ a.descendantsWhere id accept ≠ []) := by
  have w := h.wf
  obtain ⟨n, hn⟩ := contains_iff.1 hid
  obtain ⟨t, ht⟩ := w.exists_tree hn
  have hwalk : a.walk [id] = some t.bare.labels := by
    rw [walk_eq ht, walk, Option.map_some, List.append_nil]
  have hlist : a.descendants id = t.bare.labels := by rw [descendants, hwalk, Option.getD_some]
  refine ⟨⟨_, hwalk, preorder?_eq ht, hlist⟩, ?_, fun d => ?_, fun accept => ⟨rfl, ?_⟩⟩
  · rw [hlist]
    exact (bare_labels_sublist ht).nodup (w.labels_nodup ht)
  · rw [hlist]
    constructor
    · intro hd
      have hu := (w.mem_labels ht).1 ((bare_labels_sublist ht).subset hd)
      have hanc := w.acyclic.isAncestorOrSelf_iff.2 hu
      refine ⟨hanc, ?_⟩
      rw [address_of_ancestor hanc, w.forall_climb_iff ht hu]
      exact ⟨hd, fun _ => List.not_mem_nil⟩
    · rintro ⟨hu, hpath⟩
      rw [address_of_ancestor hu,
        w.forall_climb_iff ht (w.acyclic.isAncestorOrSelf_iff.1 hu)] at hpath
      exact hpath.1
  · rw [hasDescendantWhere, descendantsWhere, List.any_eq_true, ne_eq, List.filter_eq_nil_iff]
    simp only [not_forall, not_not, exists_prop]

/-- The walk from a node with an attribute passes the node only, as the address of the value
    leads through the attribute. -/
theorem descendants_preorder_annotated :
    ∃ a : Arena, a.Reachable ∧ a.isAncestorOrSelf 0 1 = true ∧ a.preorder? 0 = some [0] ∧
      1 ∉ a.descendants 0 := by
  obtain ⟨⟨ids, hwalk, hpre, -⟩, -, hmem, -⟩ :=
    reachable_annotated.descendants_preorder (rfl : annotated.contains 0 = true)
  refine ⟨annotated, reachable_annotated, by cbv, ?_, fun h => ?_⟩
  · rw [hpre, ← hwalk]
    cbv
  · exact ((hmem 1).1 h).2 (typeKey none) (by cbv; exact .head _)

end OpenMath.Arena
