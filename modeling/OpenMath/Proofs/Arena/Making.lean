/-
  Nodes are made whole or not at all.

  Whatever is made is made of a shape that was validated, and a valid shape has a
  tree.  So the only errors are those that come before the first node.

  * `Validated`: a shape that is valid if there is one;
  * `Wf.make_ok`, `make_error`: the tree of a validated shape is added, and without
    such a shape nothing is;
  * `Wf.copy_ok`, `Wf.copy_cases`: copies.
-/
import OpenMath.Proofs.Arena.Growing
import OpenMath.Proofs.Wire.Copying
import OpenMath.Compact.Parser

namespace OpenMath

/-! ## Shapes that are valid if there are any -/

/-- If there is a shape, then it is valid. -/
def Validated (shape : Except Error Json) : Prop := ∀ v, shape = .ok v → Wire.Valid v

namespace Validated

theorem error (e : Error) : Validated (.error e) := nofun

theorem bind {α : Type} (r : Except Error α) {f : α → Except Error Json}
    (h : ∀ x, Validated (f x)) : Validated (r >>= f) := fun v hv => by
  obtain ⟨x, -, hf⟩ := Except.bind_eq_ok.1 hv
  exact h x v hf

end Validated

theorem validated_validated (v : Json) : Validated (Wire.validated v) := fun w hw => by
  obtain ⟨hv, rfl⟩ := Wire.validated_eq_ok.1 hw
  exact hv

theorem validated_float (x : Double) : Validated (Shape.float x) := by
  unfold Shape.float
  split_ifs
  · exact .error _
  · exact validated_validated _
  · exact .error _

theorem validated_attribution (node : Json) (entries : List (Json × Json)) :
    Validated (Shape.attribution node entries) := by
  cases node with
  | obj fs => exact .bind _ fun _ => validated_validated _
  | _ => exact .error _

theorem validated_parse (text : String) : Validated (Compact.parse text) := by
  refine .bind _ fun ts => .bind _ fun r => ?_
  unfold Compact.finish
  split
  · exact validated_validated _
  · exact .error _

theorem validated_copyShape (a : Arena) (id : NodeId) : Validated (a.copyShape id) :=
  .bind _ fun _ => validated_validated _

/-! ## Trees that are made -/

namespace Arena

variable {a : Arena} {shape : Except Error Json} {id : NodeId}

theorem make_error {e : Error} (h : shape = .error e) : make shape a = some (.error e, a) := by
  rw [h]
  rfl

/-- The tree of a valid shape is added. -/
theorem Wf.make_ok (w : a.Wf) {v : Json} (h : shape = .ok v) (hv : Wire.Valid v) :
    ∃ u b, make shape a = some (.ok u.label, b) ∧ Planted a b [u] ∧ Wire.build v = .ok u.toTerm := by
  obtain ⟨t, _, b, _, hb, hg, hp, u, rfl, rfl, rfl, -⟩ := valid_grows hv a w a (.nil w)
  refine ⟨u, b, ?_, hp, hb⟩
  rw [h]
  exact hg

/-! ## Copies -/

/-- A node with a tree that has a copy is copied. -/
theorem Wf.copy_ok (w : a.Wf) {t : Tree NodeId} (ht : a.tree? id = some t) {c : Term}
    (hc : t.copy = .ok c) :
    ∃ u b, copy id a = some (.ok u.label, b) ∧ Planted a b [u] ∧ u.toTerm = c := by
  obtain ⟨v, hv, hd⟩ := Except.bind_eq_ok.1 hc
  obtain ⟨_, hval, hb⟩ := Except.bind_eq_ok.1 hd
  have hshape : a.copyShape id = .ok v := by
    rw [copyShape, toShape, ht]
    show (t.toShape >>= _) = _
    rw [hv]
    exact Wire.validated_eq_ok.2 ⟨hval, rfl⟩
  obtain ⟨u, b, hm, hp, hbu⟩ := w.make_ok hshape hval
  exact ⟨u, b, hm, hp, Except.ok.inj (hbu.symm.trans hb)⟩

/-- A node that is not copied has no copy, and nothing changes. -/
theorem Wf.copy_cases (w : a.Wf) (id : NodeId) :
    (∃ e, copy id a = some (.error e, a)) ∨ ∃ t c, a.tree? id = some t ∧ t.copy = .ok c := by
  cases hs : a.copyShape id with
  | error e => exact .inl ⟨e, make_error hs⟩
  | ok v =>
    right
    obtain ⟨u, b, -, -, hb⟩ := w.make_ok hs (validated_copyShape a id v hs)
    obtain ⟨v', hv', h⟩ := Except.bind_eq_ok.1 hs
    obtain ⟨_, hval, h⟩ := Except.bind_eq_ok.1 h
    cases h
    rw [toShape] at hv'
    split at hv'
    · next t ht =>
      exact ⟨t, _, ht, Except.bind_eq_ok.2 ⟨v, hv', Except.bind_eq_ok.2 ⟨_, hval, hb⟩⟩⟩
    · cases hv'

end Arena

end OpenMath
