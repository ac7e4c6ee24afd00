/-
  What validation accepts.

  * `AttributesOk`, `FieldsOk`: the rules for the attributes and for the fields of
    a shape, given what is to hold of the shapes inside it;
  * `valid_iff`: a shape is accepted if it is an object that keeps the rules.
-/
import OpenMath.Wire.Validation

namespace OpenMath

/-! ## Checks that pass -/

theorem Except.bind_eq_ok {α β : Type} {x : Except Error α} {f : α → Except Error β} {r : β} :
    (x >>= f) = .ok r ↔ ∃ v, x = .ok v ∧ f v = .ok r := by
  cases x with
  | error e => exact ⟨nofun, nofun⟩
  | ok v =>
    refine ⟨fun h => ⟨v, rfl, h⟩, ?_⟩
    rintro ⟨_, h, hf⟩
    cases h
    exact hf

namespace Check

/-- A check that passes. -/
def Passes (c : Check) : Prop := c = .ok ()

theorem passes_pass : Passes pass := rfl

theorem not_passes_violated (v : Violation) : ¬ Passes (violated v) := nofun

theorem passes_bind {c : Check} {f : Unit → Check} :
    Passes (c >>= f) ↔ Passes c ∧ Passes (f ()) := by
  rw [Passes, Except.bind_eq_ok]
  exact ⟨fun ⟨_, hc, hf⟩ => ⟨hc, hf⟩, fun ⟨hc, hf⟩ => ⟨(), hc, hf⟩⟩

theorem passes_require {b : Bool} {v : Violation} : Passes (require b v) ↔ b = true := by
  cases b <;> simp [require, passes_pass, not_passes_violated]

end Check

namespace Wire

open Check

theorem passes_checkEach {α : Type} {xs : List α} {f : (x : α) → x ∈ xs → Check} :
    Passes (checkEach xs f) ↔ ∀ x (h : x ∈ xs), Passes (f x h) := by
  induction xs with
  | nil => simp [checkEach, passes_pass]
  | cons x xs ih =>
    rw [checkEach, passes_bind, ih]
    refine ⟨?_, fun h => ⟨h x _, fun y hy => h y _⟩⟩
    rintro ⟨h, hs⟩ y hy
    rcases List.mem_cons.1 hy with rfl | hy'
    · exact h
    · exact hs y hy'

/-! ## The rules -/

section
variable (Part : Json → Prop) (fs : Json.Fields)

/-- Each key of an attribute writes the shape of a symbol; its value is a shape. -/
def AttributesOk : Prop :=
  fs.get? "a" = none ∨ ∃ as, fs.get? "a" = some (.obj as) ∧ ∀ f ∈ as, ∃ shape,
    Json.parse? f.1 = some shape ∧ shape.nodeType? = some .symbol ∧ Part shape ∧ Part f.2

/-- There is a head, and it is a symbol. -/
def HeadOk : Prop := ∃ v, fs.get? "s" = some v ∧ Part v ∧ v.nodeType? = some .symbol

/-- There is a list of shapes in a field. -/
def ListOk (field : String) (Item : Json → Prop) : Prop :=
  ∃ xs, fs.get? field = some (.arr xs) ∧ ∀ x ∈ xs, Item x

/-- There is an identifier in a field. -/
def IdentifierOk (field : String) : Prop :=
  ∃ s, fs.get? field = some (.str s) ∧ Identifier.isIdentifier s = true

/-- The fields of a shape are those of its kind, each with what belongs there. -/
def FieldsOk : NodeType → Prop
  | .integer => isInteger (fs.get? "v") = true
  | .float => ∃ v x, fs.get? "v" = some v ∧ double? v = some x ∧ x.isNaN = false ∧ x.isFinite = true
  | .string => ∃ s, fs.get? "v" = some (.str s)
  | .byteArray => ∃ v bs, fs.get? "v" = some v ∧ bytes? v = some bs
  | .symbol =>
    IdentifierOk fs "n" ∧ IdentifierOk fs "cd" ∧
      (fs.get? "uri" = none ∨ fs.get? "uri" = some .null ∨ ∃ s, fs.get? "uri" = some (.str s))
  | .var => IdentifierOk fs "n"
  | .application => ∃ xs, fs.get? "c" = some (.arr xs) ∧ xs ≠ [] ∧ ∀ x ∈ xs, Part x
  | .binding =>
    HeadOk Part fs ∧ ListOk fs "v" (fun x => Part x ∧ x.nodeType? = some .var) ∧
      ∃ v, fs.get? "b" = some v ∧ Part v
  | .error => HeadOk Part fs ∧ (fs.get? "c" = none ∨ ListOk fs "c" Part)

end

/-! ## The checks find out whether the rules are kept -/

section
variable {fs : Json.Fields}

/-- A check of the shapes inside an object, by a check of shapes. -/
abbrev within (fs : Json.Fields) (check : Json → Check) : SubCheck (Json.obj fs).weight :=
  fun v _ => check v

variable {key part : Json → Check}

theorem passes_checkAttributes :
    Passes (checkAttributes fs (within fs key) (within fs part)) ↔
      fs.get? "a" = none ∨ ∃ as, fs.get? "a" = some (.obj as) ∧ ∀ f ∈ as, ∃ shape,
        Json.parse? f.1 = some shape ∧ shape.nodeType? = some .symbol ∧
          Passes (key shape) ∧ Passes (part f.2) := by
  unfold checkAttributes
  split
  · next h => simp [h, passes_pass]
  · next as h =>
    simp only [passes_checkEach, h, reduceCtorEq, false_or, Option.some.injEq, Json.obj.injEq,
      exists_eq_left']
    refine forall_congr' fun f => forall_congr' fun hf => ?_
    split
    · next hv => simp [hv, not_passes_violated]
    · next shape hv => simp [hv, passes_bind, passes_require]
  · next v hv h =>
    simp only [h, not_passes_violated, reduceCtorEq, false_or, Option.some.injEq, false_iff]
    rintro ⟨as, rfl, -⟩
    exact hv as rfl

theorem passes_checkHead {owner : HeadOwner} :
    Passes (checkHead fs owner (within fs part)) ↔ HeadOk (fun v => Passes (part v)) fs := by
  unfold checkHead HeadOk
  split
  · next h => simp [h, not_passes_violated]
  · next v h => simp [h, passes_bind, passes_require]

theorem passes_checkBound :
    Passes (checkBound fs (within fs part)) ↔
      ListOk fs "v" fun x => Passes (part x) ∧ x.nodeType? = some .var := by
  unfold checkBound ListOk
  split
  · next xs h => simp [h, passes_checkEach, passes_bind, passes_require]
  · next h => exact iff_of_false (not_passes_violated _) fun ⟨xs, hx, _⟩ => h xs hx

theorem passes_checkBody :
    Passes (checkBody fs (within fs part)) ↔ ∃ v, fs.get? "b" = some v ∧ Passes (part v) := by
  unfold checkBody
  split
  · next h => simp [h, not_passes_violated]
  · next v h => simp [h]

theorem passes_checkApplication :
    Passes (checkApplication fs (within fs part)) ↔
      ∃ xs, fs.get? "c" = some (.arr xs) ∧ xs ≠ [] ∧ ∀ x ∈ xs, Passes (part x) := by
  unfold checkApplication
  split
  · next xs h => simp [h, passes_checkEach, passes_bind, passes_require]
  · next h => exact iff_of_false (not_passes_violated _) fun ⟨xs, hx, _⟩ => h xs hx

theorem passes_checkErrorChildren :
    Passes (checkErrorChildren fs (within fs part)) ↔
      fs.get? "c" = none ∨ ListOk fs "c" fun v => Passes (part v) := by
  unfold checkErrorChildren ListOk
  split
  · next h => simp [h, passes_pass]
  · next xs h => simp [h, passes_checkEach]
  · next v hv h => simp_all [not_passes_violated]

theorem passes_checkFloat {v : Option Json} :
    Passes (checkFloat v) ↔
      ∃ w x, v = some w ∧ double? w = some x ∧ x.isNaN = false ∧ x.isFinite = true := by
  unfold checkFloat
  split
  · next h => simp_all [not_passes_violated, Option.bind_eq_none_iff]
  · next x h =>
    obtain ⟨w, rfl, hw⟩ := Option.bind_eq_some_iff.1 h
    simp [passes_bind, passes_require, hw]

theorem passes_checkIdentifier {field : TextField} {role : NameRole} {v : Option Json} :
    Passes (checkIdentifier field role v) ↔
      ∃ s, v = some (.str s) ∧ Identifier.isIdentifier s = true := by
  unfold checkIdentifier
  split
  · simp [Symbol.checkName, passes_require]
  · simp_all [not_passes_violated]

theorem text?_eq_some {v : Json} {s : String} : v.text? = some s ↔ v = .str s := by
  cases v <;> simp [Json.text?]

theorem passes_checkText {field : TextField} {v : Option Json} :
    Passes (checkText field v) ↔ ∃ s, v = some (.str s) := by
  rw [checkText, passes_require, Option.isSome_iff_exists]
  simp [Option.bind_eq_some_iff, text?_eq_some]

theorem passes_checkUri {v : Option Json} :
    Passes (checkUri v) ↔ v = none ∨ v = some .null ∨ ∃ s, v = some (.str s) := by
  unfold checkUri
  split
  · simp [passes_pass]
  · simp [passes_pass]
  · simp_all [passes_checkText]

theorem passes_checkSymbol :
    Passes (checkSymbol fs) ↔ FieldsOk (fun v => Passes (part v)) fs .symbol := by
  simp only [checkSymbol, passes_bind, passes_checkText, passes_checkUri, passes_checkIdentifier,
    FieldsOk, IdentifierOk]
  constructor
  · rintro ⟨-, -, hu, hn, hc⟩
    exact ⟨hn, hc, hu⟩
  · rintro ⟨⟨n, hn, hn'⟩, ⟨c, hc, hc'⟩, hu⟩
    exact ⟨⟨n, hn⟩, ⟨c, hc⟩, hu, ⟨n, hn, hn'⟩, c, hc, hc'⟩

theorem passes_checkFields {type : NodeType} :
    Passes (checkFields fs type (within fs part)) ↔
      FieldsOk (fun v => Passes (part v)) fs type := by
  cases type with
  | integer => exact passes_require
  | float => exact passes_checkFloat
  | string => exact passes_checkText
  | byteArray =>
    simp only [checkFields, checkBytes, passes_require, FieldsOk, Option.isSome_iff_exists,
      Option.bind_eq_some_iff]
    exact exists_comm
  | symbol => exact passes_checkSymbol
  | var => exact passes_checkIdentifier
  | application => exact passes_checkApplication
  | binding =>
    simp only [checkFields, passes_bind, passes_checkHead, passes_checkBound, passes_checkBody,
      FieldsOk]
  | error => simp only [checkFields, passes_bind, passes_checkHead, passes_checkErrorChildren, FieldsOk]

theorem passes_checkKeys {type : NodeType} :
    Passes (checkKeys fs type) ↔ ∀ f ∈ fs, f.1 = "t" ∨ f.1 = "a" ∨ f.1 ∈ fieldNames type := by
  simp [checkKeys, passes_checkEach, passes_require, or_assoc]

/-- A shape that is accepted. -/
def Valid (v : Json) : Prop := Passes (validate v)

/-- Only objects are accepted. -/
theorem valid_iff {v : Json} :
    Valid v ↔ ∃ fs, v = .obj fs ∧ AttributesOk Valid fs ∧ ∃ type, v.nodeType? = some type ∧
      (∀ f ∈ fs, f.1 = "t" ∨ f.1 = "a" ∨ f.1 ∈ fieldNames type) ∧ FieldsOk Valid fs type := by
  cases v with
  | obj fs =>
    rw [Valid, validate, checkNode, passes_bind]
    constructor
    · rintro ⟨ha, ht⟩
      refine ⟨fs, rfl, passes_checkAttributes.1 ha, ?_⟩
      split at ht
      · exact absurd ht (not_passes_violated _)
      · next type htype =>
        rw [passes_bind, passes_checkKeys] at ht
        exact ⟨type, htype, ht.1, passes_checkFields.1 ht.2⟩
    · rintro ⟨_, ⟨⟩, ha, type, htype, hk, hf⟩
      refine ⟨passes_checkAttributes.2 ha, ?_⟩
      simp only [htype]
      rw [passes_bind, passes_checkKeys]
      exact ⟨hk, passes_checkFields.2 hf⟩
  | _ => rw [Valid, validate] <;> simp [not_passes_violated]

end

theorem get?_tag {fs : Json.Fields} {type : NodeType} (h : (Json.obj fs).nodeType? = some type) :
    fs.get? "t" = some (.str type.tag) := by
  simp only [Json.nodeType?, Json.field?, Json.fields?, Option.bind_some, Option.bind_eq_some_iff,
    text?_eq_some] at h
  obtain ⟨tag, ⟨_, ht, rfl⟩, htag⟩ := h
  rw [ht, NodeType.ofTag?_eq_some_iff.1 htag]

theorem validated_eq_ok {v w : Json} : validated v = .ok w ↔ Valid v ∧ v = w := by
  rw [validated, Except.bind_eq_ok]
  constructor
  · rintro ⟨_, hv, h⟩
    cases h
    exact ⟨hv, rfl⟩
  · rintro ⟨hv, rfl⟩
    exact ⟨(), hv, rfl⟩

end Wire

end OpenMath
