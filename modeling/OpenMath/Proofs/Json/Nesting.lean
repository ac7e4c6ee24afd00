/-
  How deep a value nests.

  A value is read as itself if it nests no deeper than the reader allows.  How deep
  that is need not be known beforehand: a value that is read as itself at some depth
  is read as itself at every greater one.

  * `Json.nesting`: how many arrays and objects stand around an innermost value;
  * `Readable.mono`: the reader may allow more depth;
  * `Readable.at_nesting`: no value needs more depth than it nests;
  * `readable_arr`, `readable_obj_iff`, `readable_ofFields`: arrays and objects;
  * `Json.Holds`: a value has another one inside.
-/
import OpenMath.Proofs.Json.Reading

namespace OpenMath.Json

mutual

/-- How many arrays and objects stand around an innermost value. -/
def nesting : Json → Nat
  | .null | .bool _ | .number _ | .str _ => 0
  | .arr xs => nestingItems xs + 1
  | .obj fs => nestingFields fs + 1

/-- The deepest nesting of the items of an array. -/
def nestingItems : List Json → Nat
  | [] => 0
  | x :: xs => max (nesting x) (nestingItems xs)

/-- The deepest nesting of the fields of an object. -/
def nestingFields : List (String × Json) → Nat
  | [] => 0
  | (_, v) :: fs => max (nesting v) (nestingFields fs)

end

variable {x : Json} {xs : List Json} {f : String × Json} {fs : Fields}

theorem nesting_le_of_mem_items (h : x ∈ xs) : x.nesting ≤ nestingItems xs := by
  induction xs with
  | nil => cases h
  | cons y ys ih =>
    rw [nestingItems]
    rcases List.mem_cons.1 h with rfl | h
    · exact Nat.le_max_left ..
    · exact (ih h).trans (Nat.le_max_right ..)

theorem nesting_le_of_mem_fields (h : f ∈ fs) : f.2.nesting ≤ nestingFields fs := by
  induction fs with
  | nil => cases h
  | cons g fs ih =>
    obtain ⟨k, v⟩ := g
    rw [nestingFields]
    rcases List.mem_cons.1 h with rfl | h
    · exact Nat.le_max_left ..
    · exact (ih h).trans (Nat.le_max_right ..)

namespace Parser

variable {d d' : Nat} {v : Json}

/-- The reader may allow more depth. -/
theorem Readable.mono (h : Readable d v) (hd : d ≤ d') : Readable d' v := by
  induction h generalizing d' with
  | null => exact .null
  | bool => exact .bool
  | number hn => exact .number hn
  | str => exact .str
  | arr _ ih =>
    obtain ⟨e, rfl⟩ := Nat.exists_eq_add_of_le' (Nat.one_le_of_lt hd)
    exact .arr fun x hx => ih x hx (Nat.le_of_succ_le_succ hd)
  | obj ha _ ih =>
    obtain ⟨e, rfl⟩ := Nat.exists_eq_add_of_le' (Nat.one_le_of_lt hd)
    exact .obj ha fun f hf => ih f hf (Nat.le_of_succ_le_succ hd)

/-- An array is readable at its nesting if its items are. -/
theorem readable_arr (h : ∀ x ∈ xs, Readable x.nesting x) :
    Readable (Json.arr xs).nesting (.arr xs) :=
  .arr fun x hx => (h x hx).mono (nesting_le_of_mem_items hx)

/-- No value needs more depth than it nests. -/
theorem Readable.at_nesting (h : Readable d v) : Readable v.nesting v := by
  induction h with
  | null => exact .null
  | bool => exact .bool
  | number hn => exact .number hn
  | str => exact .str
  | arr _ ih => exact readable_arr ih
  | obj ha _ ih => exact .obj ha fun f hf => (ih f hf).mono (nesting_le_of_mem_fields hf)

/-- An object is readable at its nesting if it is in order and its fields are. -/
theorem readable_obj_iff : Readable (Json.obj fs).nesting (.obj fs) ↔
    Fields.Ascending fs ∧ ∀ f ∈ fs, Readable f.2.nesting f.2 := by
  constructor
  · rintro (_ | _ | _ | _ | _ | ⟨ha, hf⟩)
    exact ⟨ha, fun f hm => (hf f hm).at_nesting⟩
  · rintro ⟨ha, hf⟩
    exact .obj ha fun f hm => (hf f hm).mono (nesting_le_of_mem_fields hm)

theorem readable_ofFields {fs : List (String × Json)} (h : ∀ f ∈ fs, Readable f.2.nesting f.2) :
    Readable (ofFields fs).nesting (ofFields fs) :=
  readable_obj_iff.2 ⟨Fields.ascending_ofList fs, fun f hf => h f (Fields.mem_ofList hf)⟩

end Parser

/-! ## Values inside of values -/

/-- `v.Holds u`: value `u` is `v`, or in an array or an object that `v` holds. -/
inductive Holds (v : Json) : Json → Prop
  | refl : Holds v v
  | item {xs : List Json} {x : Json} (h : Holds v (.arr xs)) (hx : x ∈ xs) : Holds v x
  | field {fs : Fields} {f : String × Json} (h : Holds v (.obj fs)) (hf : f ∈ fs) : Holds v f.2

theorem Holds.trans {u v w : Json} (h : v.Holds u) (h' : u.Holds w) : v.Holds w := by
  induction h' with
  | refl => exact h
  | item _ hx ih => exact .item ih hx
  | field _ hf ih => exact .field ih hf

/-- What is inside of a value is the value, or inside of an item or of a field. -/
theorem Holds.cases_outer {u v : Json} (h : v.Holds u) : u = v ∨
    (∃ xs, v = .arr xs ∧ ∃ x ∈ xs, x.Holds u) ∨ ∃ fs, v = .obj fs ∧ ∃ f ∈ fs, f.2.Holds u := by
  induction h with
  | refl => exact .inl rfl
  | @item xs x _ hx ih =>
    rcases ih with rfl | ⟨ys, rfl, y, hy, h⟩ | ⟨fs, rfl, f, hf, h⟩
    · exact .inr (.inl ⟨xs, rfl, x, hx, .refl⟩)
    · exact .inr (.inl ⟨ys, rfl, y, hy, h.item hx⟩)
    · exact .inr (.inr ⟨fs, rfl, f, hf, h.item hx⟩)
  | @field gs g _ hg ih =>
    rcases ih with rfl | ⟨ys, rfl, y, hy, h⟩ | ⟨fs, rfl, f, hf, h⟩
    · exact .inr (.inr ⟨gs, rfl, g, hg, .refl⟩)
    · exact .inr (.inl ⟨ys, rfl, y, hy, h.field hg⟩)
    · exact .inr (.inr ⟨fs, rfl, f, hf, h.field hg⟩)

@[simp] theorem holds_obj {u : Json} :
    (Json.obj fs).Holds u ↔ u = .obj fs ∨ ∃ f ∈ fs, f.2.Holds u := by
  constructor
  · intro h
    rcases h.cases_outer with h | ⟨_, h, _⟩ | ⟨_, ⟨⟩, h⟩
    · exact .inl h
    · cases h
    · exact .inr h
  · rintro (rfl | ⟨f, hf, h⟩)
    · exact .refl
    · exact Holds.trans (.field .refl hf) h

@[simp] theorem holds_str {s : String} {u : Json} : (Json.str s).Holds u ↔ u = .str s := by
  constructor
  · intro h
    rcases h.cases_outer with h | ⟨_, h, _⟩ | ⟨_, h, _⟩
    · exact h
    · cases h
    · cases h
  · rintro rfl
    exact .refl

theorem holds_of_get? {v : Json} {k : String} (h : fs.get? k = some v) : (Json.obj fs).Holds v :=
  .field .refl (mem_of_get? h)

end OpenMath.Json
