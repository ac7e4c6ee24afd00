/-
  The data model.

  Shapes are checked before anything is made of them, edits are not: they take nodes
  and keys as they are.  Still no edit leads out of the data model, and all that an
  edit can spoil is that a slot that must be filled is emptied.

  * `Conforms`: what the data model asks of a node;
  * `Content.Emptied`: a head or a body is missing, or all children of an application;
  * `Wf.described_iff`: a node is described by a valid shape if and only if no such
    node is in its tree;
  * `Reachable.data_model`: both, for the arenas that come about.
-/
import OpenMath.Proofs.Arena.CaptureAvoidance
import OpenMath.Proofs.Arena.RoundTrip
import OpenMath.Proofs.Wire.Describing

namespace OpenMath

/-! ## Emptied slots -/

/-- A slot that must be filled is empty: the head or the body of a binding, the head of
    an error, or all the slots of an application. -/
def Content.Emptied {α : Type} : Content α → Prop
  | .application cs => cs = []
  | .binding h _ b => h = none ∨ b = none
  | .error h _ => h = none
  | _ => False

theorem Content.not_emptied {α : Type} {c : Content α} :
    ¬ c.Emptied ↔ c.Complete ∧ (c.kind = .application → c.children ≠ []) := by
  cases c with
  | binding hd vs b => cases hd <;> cases b <;> simp [Emptied, Complete, kind]
  | error hd cs => cases hd <;> simp [Emptied, Complete, kind]
  | _ => simp [Emptied, Complete, kind, children]

theorem Content.emptied_map {α β : Type} {f : α → β} {c : Content α} :
    (c.map f).Emptied ↔ c.Emptied := by
  cases c <;> simp [map, Emptied]

namespace Arena

variable {a : Arena} {id p : NodeId} {n : Node} {t : Tree NodeId}

/-! ## What is asked of a node -/

/-- A node keeps to the data model: heads are symbols and bound variables variables,
    names and dictionaries are identifiers, integers that are held as texts are
    numerals, floats are finite, and no two keys agree. -/
structure Conforms (a : Arena) (n : Node) : Prop where
  head : ∀ x, n.content.head? = some x → ∃ s, a.kind? x = some (.symbol s)
  bound : ∀ x ∈ n.content.bound, ∃ name, a.kind? x = some (.var name)
  variableName : ∀ name, n.content = .var name → Identifier.isIdentifier name = true
  symbolNames : ∀ s, n.content = .symbol s →
    Identifier.isIdentifier s.name = true ∧ Identifier.isIdentifier s.cd = true
  integerText : ∀ s, n.content = .integer (.text s) → Identifier.isIntegerText s = true
  float : ∀ x, n.content = .float x → x.isFinite = true
  keyNames : ∀ e ∈ n.attributes,
    Identifier.isIdentifier e.1.name = true ∧ Identifier.isIdentifier e.1.cd = true
  keys : n.attributes.Pairwise fun d e => ¬ (d.1.name = e.1.name ∧ d.1.cd = e.1.cd)

theorem Wf.exists_admitted (w : a.Wf) (hn : a.node? p = some n) {s : Slot NodeId}
    (hs : s ∈ n.slots) : ∃ k, a.kind? s.content = some k ∧ s.role.admits k = true := by
  obtain ⟨m, hm, -⟩ := w.node?_of_mem hn (Node.mem_owned_of_slot hs)
  have hk : a.kind? s.content = some m.kind := kind?_eq_some.2 ⟨m, hm, rfl⟩
  exact ⟨m.kind, hk, w.fits hn s hs m.kind hk⟩

/-- A node of an arena in which the records of owners agree keeps to the data model if
    its payload does. -/
theorem Wf.conforms (w : a.Wf) (hn : a.node? p = some n) (hk : n.kind.Acceptable) :
    a.Conforms n where
  head x hx := by
    have hs : (⟨.head, x⟩ : Slot NodeId) ∈ n.slots := by
      simp [Node.slots, Content.allSlots, Content.slots, Content.placed, hx]
    obtain ⟨k, hk, ha⟩ := w.exists_admitted hn hs
    cases k with
    | symbol s => exact ⟨s, hk⟩
    | _ => cases ha
  bound x hx := by
    have hs : (⟨.bound, x⟩ : Slot NodeId) ∈ n.slots := by
      simp [Node.slots, Content.allSlots, Content.slots, Content.placed, hx]
    obtain ⟨k, hk, ha⟩ := w.exists_admitted hn hs
    cases k with
    | var name => exact ⟨name, hk⟩
    | _ => cases ha
  variableName name hc := by
    rw [Node.kind, hc] at hk
    exact hk
  symbolNames s _ := ⟨s.nameOk, s.cdOk⟩
  integerText s hc := by
    rw [Node.kind, hc] at hk
    exact hk
  float x hc := by
    rw [Node.kind, hc] at hk
    exact hk
  keyNames e _ := ⟨e.1.nameOk, e.1.cdOk⟩
  keys := (w.keyed hn).imp fun {d e} h hde => by
    rw [Symbol.sameKey, hde.1, hde.2] at h
    simp at h

/-! ## What is described -/

theorem shaped_build {v : Json} (hv : Wire.Valid v) {u : Term} (hu : Wire.build v = .ok u) :
    u.Shaped := by
  have hshape : (.ok v : Except Error Json) = .ok v := rfl
  obtain ⟨t, b, -, hp, ht⟩ := wf_empty.make_ok hshape hv
  have ht' : t.Shaped := hp.wf.shaped (hp.tree t (List.mem_singleton_self t))
  rw [Except.ok.inj (hu.symm.trans ht)]
  exact ht'.rearranged (Tree.rearranges_mapLabels _)

/-- Nothing is missing in a tree if no slot that must be filled is empty, of the nodes
    inside the node. -/
theorem Wf.whole_iff (w : a.Wf) (ht : a.tree? id = some t) :
    t.Whole ↔ ∀ x n, a.Under id x → a.node? x = some n → ¬ n.content.Emptied := by
  have hlabels : t.Whole ↔ ∀ x ∈ t.labels, ∀ n, a.node? x = some n → ¬ n.content.Emptied := by
    refine tree?_induction_rooted (P := fun _ t => t.Whole ↔
      ∀ x ∈ t.labels, ∀ n, a.node? x = some n → ¬ n.content.Emptied) ?_ ht
    intro id n cs as hn hr ihp ihv
    have hself : (∀ m, a.node? id = some m → ¬ m.content.Emptied) ↔ ¬ cs.Emptied := by
      simp only [hn, Option.some.injEq, forall_eq', hr.content, Content.emptied_map]
    rw [Tree.whole_rooted, ← Content.not_emptied, ← hself, forall₂_congr ihp, forall₂_congr ihv,
      Tree.forall_labels_rooted]
  rw [hlabels]
  constructor
  · intro h x n hu
    exact h x ((w.mem_labels ht).2 hu) n
  · intro h x hx n
    exact h x n ((w.mem_labels ht).1 hx)

/-- A node is described by a valid shape if and only if no slot that must be filled is
    empty inside it. -/
theorem Wf.described_iff (w : a.Wf) (ha : a.All Kind.Acceptable) (ht : a.tree? id = some t) :
    t.Described ↔ ∀ x n, a.Under id x → a.node? x = some n → ¬ n.content.Emptied := by
  rw [← w.whole_iff ht]
  have hs := w.shaped ht
  constructor
  · rintro ⟨v, u, hv, hu, h⟩
    exact hs.whole_of_equals (shaped_build hv hu) h (Tree.whole_build hv hu)
  · intro hw
    exact hs.described_of_written (ha.tree ht) (hs.written (ha.tree ht) hw)

/-- Every node of an arena that comes about keeps to the data model.  So a node is not
    described by a valid shape only if a slot that must be filled has been emptied, in
    the node itself or inside it, and the node is written as a valid shape otherwise. -/
theorem Reachable.data_model (h : a.Reachable) :
    (∀ id n, a.node? id = some n → a.Conforms n) ∧
      ∀ id, a.contains id = true → ∃ t, a.tree? id = some t ∧
        (t.Described ↔
          ∀ x n, a.isAncestorOrSelf id x = true → a.node? x = some n → ¬ n.content.Emptied) ∧
        (t.Described → ∃ v, a.toShape id = .ok v ∧ Wire.Valid v) := by
  have w := h.wf
  constructor
  · intro id n hn
    exact w.conforms hn (h.acceptable id n.kind (kind?_eq_some.2 ⟨n, hn, rfl⟩))
  · intro id hid
    obtain ⟨n, hn⟩ := contains_iff.1 hid
    obtain ⟨t, ht⟩ := w.exists_tree hn
    have hd := w.described_iff h.acceptable ht
    refine ⟨t, ht, ?_, ?_⟩
    · simp only [w.acyclic.isAncestorOrSelf_iff]
      exact hd
    · intro hdesc
      have hw := h.written ht ((w.whole_iff ht).2 (hd.1 hdesc))
      exact ⟨t.shape, (toShape_eq ht).trans hw.toShape, hw.valid⟩

/-- The application after both of its children were taken off. -/
def appliedToNothing : Arena where
  places := #[some ⟨.var "f", [], none⟩, some ⟨.var "x", [], none⟩, some ⟨.application [], [], none⟩]

theorem reachable_appliedToNothing : appliedToNothing.Reachable :=
  .step (c := .remove 1) (r := .ok ()) (.step (c := .remove 0) (r := .ok ())
    (b := ⟨#[some ⟨.var "f", [], none⟩, some ⟨.var "x", [], some 2⟩,
      some ⟨.application [1], [], none⟩]⟩) reachable_applied (by cbv)) (by cbv)

/-- An application is described as long as it has a child. -/
theorem data_model_applied :
    (∃ t, applied.tree? 2 = some t ∧ t.Described) ∧
      ∃ (a : Arena) (t : Tree NodeId), a.Reachable ∧ a.tree? 2 = some t ∧ ¬ t.Described := by
  obtain ⟨t, ht, hd, -⟩ := reachable_applied.data_model.2 2 rfl
  obtain ⟨t', ht', hd', -⟩ := reachable_appliedToNothing.data_model.2 2 rfl
  refine ⟨⟨t, ht, hd.2 ?_⟩, _, t', reachable_appliedToNothing, ht', ?_⟩
  · intro x n _ hn
    have hx : x < 3 := node?_lt hn
    interval_cases x <;> cases hn <;> simp [Content.Emptied]
  · intro h
    exact hd'.1 h 2 _ (by cbv) rfl rfl

end Arena

end OpenMath
