/-
  JSON values.

  A number keeps whether it was written as an integer; an object lists its
  fields in the order of their keys, by code points, each key once.

  * `Json.ofFields`: the object with given fields, of which the last one with a
    key counts;
  * `Json.field?`: the field of an object with a given key;
  * `Json.weight`: how many characters a value takes at least when it is
    written, which bounds recursion through texts inside of values.
-/
import OpenMath.Double.Basic

namespace OpenMath

/-- A number: an integer, or a double. -/
inductive Json.Number where
  | integer (n : Int)
  | real (x : Double)
deriving DecidableEq

/-- A JSON value. -/
inductive Json where
  | null
  | bool (b : Bool)
  | number (n : Json.Number)
  | str (s : String)
  | arr (items : List Json)
  | obj (fields : List (String × Json))

namespace Json

/-- A number without point and exponent. -/
abbrev int (n : Int) : Json := .number (.integer n)

/-! ## Objects -/

/-- Fields of an object, in the order of their keys. -/
abbrev Fields := List (String × Json)

/-- The fields with one more; a field of the same key gives way to it. -/
def Fields.insert (key : String) (value : Json) : Fields → Fields
  | [] => [(key, value)]
  | (k, v) :: fs =>
    if key < k then (key, value) :: (k, v) :: fs
    else if key = k then (key, value) :: fs
    else (k, v) :: Fields.insert key value fs

/-- Fields in any order, put in order; the last field of a key counts. -/
def Fields.ofList (fs : List (String × Json)) : Fields :=
  fs.foldl (fun acc f => Fields.insert f.1 f.2 acc) []

/-- The value of a key. -/
def Fields.get? (fs : Fields) (key : String) : Option Json := fs.lookup key

/-- An object; of fields with one key the last one stays. -/
def ofFields (fs : List (String × Json)) : Json := .obj (Fields.ofList fs)

/-! ## Parts of a value -/

/-- The fields of an object. -/
def fields? : Json → Option Fields
  | .obj fs => some fs
  | _ => none

/-- The items of an array. -/
def items? : Json → Option (List Json)
  | .arr xs => some xs
  | _ => none

/-- The text of a string. -/
def text? : Json → Option String
  | .str s => some s
  | _ => none

/-- The value of a key, in an object. -/
def field? (v : Json) (key : String) : Option Json :=
  v.fields?.bind (·.get? key)

/-! ## Weight -/

mutual

/-- A lower bound on the length of every text of a value. -/
def weight : Json → Nat
  | .null | .bool _ => 4
  | .number _ => 1
  | .str s => s.length + 2
  | .arr xs => 2 + weightItems xs
  | .obj fs => 2 + weightFields fs

/-- The weights of the items of an array, together. -/
def weightItems : List Json → Nat
  | [] => 0
  | x :: xs => weight x + weightItems xs

/-- The weights of the fields of an object, together: each has a key in
    quotes, a colon and a value. -/
def weightFields : List (String × Json) → Nat
  | [] => 0
  | (k, v) :: fs => k.length + 3 + weight v + weightFields fs

end

theorem weight_lt_of_mem_items {x : Json} {xs : List Json} (h : x ∈ xs) :
    weight x < weight (.arr xs) := by
  suffices weight x ≤ weightItems xs by simp only [weight]; omega
  induction xs with
  | nil => cases h
  | cons y ys ih =>
    rw [weightItems]
    rcases List.mem_cons.1 h with rfl | h
    · omega
    · have := ih h; omega

theorem weight_lt_of_mem_fields {k : String} {v : Json} {fs : List (String × Json)}
    (h : (k, v) ∈ fs) : k.length + weight v < weight (.obj fs) := by
  suffices k.length + weight v ≤ weightFields fs by simp only [weight]; omega
  induction fs with
  | nil => cases h
  | cons f fs ih =>
    obtain ⟨k', v'⟩ := f
    rw [weightFields]
    rcases List.mem_cons.1 h with e | h
    · cases e; omega
    · have := ih h; omega

theorem mem_of_get? {fs : Fields} {k : String} {v : Json} (h : fs.get? k = some v) :
    (k, v) ∈ fs := by
  induction fs with
  | nil => cases h
  | cons f fs ih =>
    obtain ⟨k', v'⟩ := f
    simp only [Fields.get?, List.lookup_cons] at h ih
    split at h
    · next e => cases h; simp [beq_iff_eq.1 e]
    · exact List.mem_cons_of_mem _ (ih h)

/-- Inserting a field adds at most its own weight. -/
theorem weightFields_insert_le (k : String) (v : Json) (fs : Fields) :
    weightFields (Fields.insert k v fs) ≤ k.length + 3 + weight v + weightFields fs := by
  induction fs with
  | nil => simp [Fields.insert, weightFields]
  | cons f fs ih =>
    obtain ⟨k', v'⟩ := f
    unfold Fields.insert
    split
    · simp [weightFields]
    · split
      · simp only [weightFields]; omega
      · simp only [weightFields]; omega

/-- Putting fields in order adds no weight. -/
theorem weightFields_ofList_le (fs : List (String × Json)) :
    weightFields (Fields.ofList fs) ≤ weightFields fs := by
  suffices ∀ acc, weightFields (fs.foldl (fun acc f => Fields.insert f.1 f.2 acc) acc) ≤
      weightFields acc + weightFields fs by simpa [Fields.ofList, weightFields] using this []
  induction fs with
  | nil => simp [weightFields]
  | cons f fs ih =>
    intro acc
    obtain ⟨k, v⟩ := f
    have i := weightFields_insert_le k v acc
    have := ih (Fields.insert k v acc)
    simp only [List.foldl_cons, weightFields]
    omega

end Json

end OpenMath
