/-
  What a node is written as.

  A node has a shape as long as no head and no body is missing inside of it.  The shape is
  valid unless an application inside has lost all its children: the node is written then as
  well, although no valid shape describes it.

  * `Content.emptied_iff`: the two ways in which slots that must be filled can be empty;
  * `complete_of_toShape`, `exists_lacking`: why a node has a shape, and why it has none;
  * `Reachable.toShape_validates`: when a node has a shape, and when this is valid.
-/
import OpenMath.Proofs.Arena.DataModel
import OpenMath.Proofs.Wire.Writing

namespace OpenMath

theorem Content.emptied_iff {α : Type} {c : Content α} :
    c.Emptied ↔ c = .application [] ∨ ∃ slot, c.Lacks slot := by
  have hlacks : (∃ slot, c.Lacks slot) ↔ ¬ c.Complete := by simp [complete_iff]
  rw [hlacks]
  cases c with
  | binding hd vs b => cases hd <;> cases b <;> simp [Emptied, Complete]
  | error hd cs => cases hd <;> simp [Emptied, Complete]
  | _ => simp [Emptied, Complete]

namespace Arena

variable {a : Arena} {id : NodeId} {t : Tree NodeId} {v : Json} {e : Error}

/-- No head and no body is missing in a tree that has a shape. -/
theorem complete_of_toShape (ht : a.tree? id = some t) (hv : t.toShape = .ok v) :
    ∀ x ∈ t.labels, ∀ n, a.node? x = some n → n.content.Complete := by
  refine tree?_induction_rooted (P := fun _ t => ∀ v, t.toShape = .ok v →
    ∀ x ∈ t.labels, ∀ n, a.node? x = some n → n.content.Complete) ?_ ht v hv
  intro id n cs as hn hr ihp ihv v hv
  obtain ⟨hc, hp, ha, -⟩ := Tree.toShape_rooted_ok hv
  refine (Tree.forall_labels_rooted ..).2
    ⟨fun m hm => ?_, fun u hu => ihp u hu _ (hp u hu), fun d hd => ihv d hd _ (ha d hd)⟩
  cases hn.symm.trans hm
  rw [hr.content]
  exact Content.complete_map.2 hc

/-- If a tree has no shape, then a head or a body is missing in it, and the error says of
    what kind of node. -/
theorem exists_lacking (ht : a.tree? id = some t) (ha : t.All Kind.Acceptable)
    (he : t.toShape = .error e) : ∃ x ∈ t.labels, ∃ n slot, a.node? x = some n ∧
      n.content.Lacks slot ∧ e = .refused (.emptySlot n.kind.type slot) := by
  refine tree?_induction_rooted (P := fun _ t => t.All Kind.Acceptable → t.toShape = .error e →
    ∃ x ∈ t.labels, ∃ n slot, a.node? x = some n ∧ n.content.Lacks slot ∧
      e = .refused (.emptySlot n.kind.type slot)) ?_ ht ha he
  intro id n cs as hn hr ihp ihv ha he
  obtain ⟨hk, hap, hav⟩ := Tree.all_rooted.1 ha
  have hinside {u : Tree NodeId} (hu : u ∈ cs.structural ++ as.map (·.2)) {x : NodeId}
      (hx : x ∈ u.labels) : x ∈ (Tree.rooted id cs as).labels :=
    (Tree.mem_labels_rooted ..).2 (.inr ⟨u, hu, hx⟩)
  rcases Tree.toShape_rooted_error (fun x hx => by rwa [hx] at hk) he with
    ⟨slot, hl, he⟩ | ⟨u, hu, he⟩ | ⟨d, hd, he⟩
  · refine ⟨id, (Tree.mem_labels_rooted ..).2 (.inl rfl), n, slot, hn, ?_, ?_⟩
    · rw [hr.content]
      exact Content.lacks_map.2 hl
    · rw [he, Node.kind, hr.content, Content.kind_map]
  · obtain ⟨x, hx, hlack⟩ := ihp u hu (hap u hu) he
    exact ⟨x, hinside (List.mem_append_left _ hu) hx, hlack⟩
  · obtain ⟨x, hx, hlack⟩ := ihv d hd (hav d hd) he
    exact ⟨x, hinside (List.mem_append_right _ (List.mem_map_of_mem hd)) hx, hlack⟩

/-- A node has a shape if and only if no head and no body is missing inside of it; the error
    names a kind of node and a slot that is missing inside.  The shape breaks no rule if no
    application inside has lost all its children.  If one has, the node is written all the
    same, and what is wrong with the shape is that an application has no children. -/
theorem Reachable.toShape_validates (h : a.Reachable) (hid : a.contains id = true) :
    (∀ v, a.toShape id = .ok v → a.encode id = .ok v.compact ∧
      ((∀ x n, a.isAncestorOrSelf id x = true → a.node? x = some n → n.content ≠ .application []) →
        Wire.validate v = .ok ()) ∧
      ((∃ x n, a.isAncestorOrSelf id x = true ∧ a.node? x = some n ∧ n.content = .application []) →
        Wire.validate v = .error (.invalid .noChildren))) ∧
    ((∃ v, a.toShape id = .ok v) ↔ ∀ x n slot, a.isAncestorOrSelf id x = true →
      a.node? x = some n → ¬ n.content.Lacks slot) ∧
    ∀ e, a.toShape id = .error e → ∃ x n slot, a.isAncestorOrSelf id x = true ∧
      a.node? x = some n ∧ n.content.Lacks slot ∧ e = .refused (.emptySlot n.kind.type slot) := by
  have w := h.wf
  obtain ⟨n, hn⟩ := contains_iff.1 hid
  obtain ⟨t, ht⟩ := w.exists_tree hn
  have hs := w.shaped ht
  have ha := h.acceptable.tree ht
  have hin (x : NodeId) : a.isAncestorOrSelf id x = true ↔ x ∈ t.labels :=
    w.acyclic.isAncestorOrSelf_iff.trans (w.mem_labels ht).symm
  simp only [hin, toShape_eq ht]
  have hlacking (e : Error) (he : t.toShape = .error e) : ∃ x n slot, x ∈ t.labels ∧
      a.node? x = some n ∧ n.content.Lacks slot ∧ e = .refused (.emptySlot n.kind.type slot) := by
    obtain ⟨x, hx, n, slot, hlack⟩ := exists_lacking ht ha he
    exact ⟨x, n, slot, hx, hlack⟩
  refine ⟨fun v hv => ⟨encode_eq ((toShape_eq ht).trans hv), fun hne => ?_, ?_⟩, ⟨?_, fun hl => ?_⟩,
    hlacking⟩
  · have hwhole : t.Whole := (w.whole_iff ht).2 fun x n hu hx hem => by
      have hm := (w.mem_labels ht).2 hu
      rcases Content.emptied_iff.1 hem with hem | ⟨slot, hem⟩
      · exact hne x n hm hx hem
      · exact Content.complete_iff.1 (complete_of_toShape ht hv x hm n hx) slot hem
    have hwritten := h.written ht hwhole
    rw [← Tree.shape_eq hv]
    exact hwritten.valid
  · rintro ⟨x, n, hm, hx, hem⟩
    rcases hs.validate_toShape ha hv with hvalid | hno
    · have hcopy : t.copy = .ok t.arranged := Except.bind_eq_ok.2
        ⟨v, hv, Except.bind_eq_ok.2 ⟨(), hvalid, hs.build_toShape hv⟩⟩
      have hdesc := (w.described_iff h.acceptable ht).1 (hs.described_of_copy ha hcopy)
      exact absurd (Content.emptied_iff.2 (.inl hem)) (hdesc x n ((w.mem_labels ht).1 hm) hx)
    · exact hno
  · rintro ⟨v, hv⟩ x n slot hm hx
    exact Content.complete_iff.1 (complete_of_toShape ht hv x hm n hx) slot
  · cases hv : t.toShape with
    | ok v => exact ⟨v, rfl⟩
    | error e =>
      obtain ⟨x, n, slot, hm, hx, hlack, -⟩ := hlacking e hv
      exact absurd hlack (hl x n slot hm hx)

/-- What is left of `f(x)` when `f` and `x` have been removed from it. -/
def emptied : Arena :=
  ⟨#[some ⟨.var "f", [], none⟩, some ⟨.var "x", [], none⟩, some ⟨.application [], [], none⟩]⟩

theorem reachable_emptied : emptied.Reachable :=
  .step (c := .remove 1) (r := .ok ()) (.step (c := .remove 0) (r := .ok ())
    (b := ⟨#[some ⟨.var "f", [], none⟩, some ⟨.var "x", [], some 2⟩,
      some ⟨.application [1], [], none⟩]⟩) reachable_applied (by cbv)) (by cbv)

/-- `f(x)` is written as a valid shape; when both of its parts have been removed, it is still
    written, as a shape that is not valid. -/
theorem toShape_validates_emptied :
    (∃ v, applied.toShape 2 = .ok v ∧ Wire.validate v = .ok ()) ∧
      ∃ v, emptied.toShape 2 = .ok v ∧ emptied.encode 2 = .ok v.compact ∧
        Wire.validate v = .error (.invalid .noChildren) := by
  obtain ⟨happlied, -, -⟩ := @Reachable.toShape_validates _ 2 reachable_applied rfl
  obtain ⟨hemptied, -, -⟩ := @Reachable.toShape_validates _ 2 reachable_emptied rfl
  have hv : applied.toShape 2 = .ok (Shape.ofApplication [Shape.ofVar "f", Shape.ofVar "x"]) := by
    cbv
  have hw : emptied.toShape 2 = .ok (Shape.ofApplication []) := by cbv
  refine ⟨⟨_, hv, (happlied _ hv).2.1 fun x n _ hn => ?_⟩, _, hw, (hemptied _ hw).1,
    (hemptied _ hw).2.2 ⟨2, _, by cbv, rfl, rfl⟩⟩
  have hx : x < 3 := node?_lt hn
  interval_cases x <;> cases hn <;> simp

end Arena

end OpenMath
