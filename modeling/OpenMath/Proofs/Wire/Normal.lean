/-
  Normal shapes.

  A shape may be written in several ways: integers and floats as numbers of either sort,
  what is empty as null, as an empty object or not at all, and the keys of attributes as
  any text of a symbol.  Reading a shape and writing what was read settles on one of them.

  * `normal`: a shape with its parts normal, and its own fields as they are written;
  * `get?_normalObject`: the fields of a normal shape, one by one;
  * `normal_normal`: a normal shape is normal already.
-/
import OpenMath.Proofs.Json.Nesting
import OpenMath.Proofs.Wire.Payloads
import OpenMath.Wire.Shape

namespace OpenMath.Wire

/-! ## Normal shapes -/

/-- The text of a key, as its symbol is written. -/
def normalKey (key : String) : String :=
  match readKey key with
  | .ok s => s.encode
  | .error _ => key

/-- A payload of a shape of some kind: the number of an integer is written as the number
    that it holds or as its digits, the number of a float as a double. -/
def normalPayload (type : Option NodeType) (field : String) (v : Json) : Json :=
  if field = "v" then
    match type, v with
    | some .integer, .number n => ((Integer.ofNumber? n).map Shape.integerValue).getD v
    | some .float, v => ((double? v).map fun x => .number (.real x)).getD v
    | _, v => v
  else v

/-- A field that says nothing: a null uri, or attributes of which there are none. -/
def isVoid (f : String × Json) : Bool :=
  match f.2 with
  | .null => f.1 == "uri"
  | .obj [] => f.1 == "a"
  | _ => false

/-- The fields of a shape of some kind without those that say nothing, and with the list of
    children of an error even if there are none. -/
def settle (type : Option NodeType) (fs : Json.Fields) : Json.Fields :=
  let kept : Json.Fields := fs.filter fun f => !isVoid f
  if type = some .error ∧ (kept.get? "c").isNone then Json.Fields.insert "c" (.arr []) kept
  else kept

mutual

/-- A shape as it is written after it was read. -/
def normal : Json → Json
  | .arr xs => .arr (normalItems xs)
  | .obj fs =>
    -- of two fields with one key, the first is found
    .obj (settle (Json.obj fs).nodeType?
      (Json.Fields.ofList (normalFields (Json.obj fs).nodeType? fs).reverse))
  | v => v

/-- The normal shapes of the items of an array. -/
def normalItems : List Json → List Json
  | [] => []
  | x :: xs => normal x :: normalItems xs

/-- The fields of a shape of some kind, each with a normal value. -/
def normalFields (type : Option NodeType) : List (String × Json) → List (String × Json)
  | [] => []
  | (k, v) :: fs =>
    (k, if k = "a" then normalAttributes v else normalPayload type k (normal v)) ::
      normalFields type fs

/-- Attributes with their keys and values in normal form, in the order of these keys. -/
def normalAttributes : Json → Json
  | .obj es => .ofFields (normalEntries es)
  | v => v

/-- Attributes with normal keys and values. -/
def normalEntries : List (String × Json) → List (String × Json)
  | [] => []
  | (k, v) :: es => (normalKey k, normal v) :: normalEntries es

end

/-- What is in a field of a normal shape. -/
def normalField (type : Option NodeType) (k : String) (v : Json) : Json :=
  if k = "a" then normalAttributes v else normalPayload type k (normal v)

variable {fs es : Json.Fields} {type : NodeType} {k : String} {u v w : Json}

theorem normalItems_eq (xs : List Json) : normalItems xs = xs.map normal := by
  induction xs with
  | nil => rw [normalItems, List.map_nil]
  | cons x xs ih => rw [normalItems, ih, List.map_cons]

theorem normalFields_eq (type : Option NodeType) (fs : Json.Fields) :
    normalFields type fs = fs.map fun f => (f.1, normalField type f.1 f.2) := by
  induction fs with
  | nil => rw [normalFields, List.map_nil]
  | cons f fs ih =>
    obtain ⟨k, v⟩ := f
    rw [normalFields, ih, List.map_cons, normalField]

theorem normalEntries_eq (es : Json.Fields) :
    normalEntries es = es.map fun e => (normalKey e.1, normal e.2) := by
  induction es with
  | nil => rw [normalEntries, List.map_nil]
  | cons e es ih =>
    obtain ⟨k, v⟩ := e
    rw [normalEntries, ih, List.map_cons]

theorem normalAttributes_obj (es : Json.Fields) :
    normalAttributes (.obj es) = .ofFields (es.map fun e => (normalKey e.1, normal e.2)) := by
  rw [normalAttributes, normalEntries_eq]

@[simp] theorem normal_null : normal .null = .null := by simp [normal]

@[simp] theorem normal_number (n : Json.Number) : normal (.number n) = .number n := by
  simp [normal]

@[simp] theorem normal_str (s : String) : normal (.str s) = .str s := by simp [normal]

theorem normal_arr (xs : List Json) : normal (.arr xs) = .arr (xs.map normal) := by
  rw [normal, normalItems_eq]

/-- The fields of the normal form of an object. -/
def normalObject (fs : Json.Fields) : Json.Fields :=
  settle (Json.obj fs).nodeType? (Json.Fields.ofList
    (fs.map fun f => (f.1, normalField (Json.obj fs).nodeType? f.1 f.2)).reverse)

theorem normal_obj (fs : Json.Fields) : normal (.obj fs) = .obj (normalObject fs) := by
  rw [normal, normalFields_eq, normalObject]

/-! ## The fields of a normal shape -/

theorem ascending_settle (type : Option NodeType) (h : Json.Fields.Ascending fs) :
    Json.Fields.Ascending (settle type fs) := by
  have hkept : Json.Fields.Ascending (fs.filter fun f => !isVoid f) := List.Pairwise.filter _ h
  unfold settle
  dsimp only
  split_ifs
  · exact Json.Fields.ascending_insert hkept ..
  · exact hkept

theorem ascending_normalObject (fs : Json.Fields) : Json.Fields.Ascending (normalObject fs) :=
  ascending_settle _ (Json.Fields.ascending_ofList _)

theorem isVoid_eq_false (hu : k ≠ "uri") (ha : k ≠ "a") (v : Json) : isVoid (k, v) = false := by
  unfold isVoid
  split
  · simpa using hu
  · simpa using ha
  · rfl

theorem get?_settle (type : Option NodeType) (h : Json.Fields.Ascending fs) (k : String) :
    (settle type fs).get? k =
      if k = "c" ∧ type = some .error ∧ fs.get? "c" = none then some (.arr [])
      else (fs.get? k).filter fun v => !isVoid (k, v) := by
  have hc : ((fs.get? "c").filter fun v => !isVoid ("c", v)) = fs.get? "c" := by
    cases fs.get? "c" with
    | none => rfl
    | some v => simp [Option.filter, isVoid_eq_false]
  have hkept := h.get?_filter fun f => !isVoid f
  unfold settle
  simp only [hkept, hc, Option.isNone_iff_eq_none]
  by_cases he : type = some .error ∧ fs.get? "c" = none
  · rw [if_pos he, Json.Fields.get?_insert, hkept]
    simp only [he, and_self, and_true]
  · rw [if_neg he, hkept, if_neg fun h => he h.2]

/-- What is found in a normal shape. -/
theorem get?_normalObject (fs : Json.Fields) (k : String) :
    (normalObject fs).get? k =
      if k = "c" ∧ (Json.obj fs).nodeType? = some .error ∧ fs.get? "c" = none then some (.arr [])
      else ((fs.get? k).map (normalField (Json.obj fs).nodeType? k)).filter
        fun v => !isVoid (k, v) := by
  rw [normalObject, get?_settle _ (Json.Fields.ascending_ofList _)]
  simp only [Json.Fields.get?_ofList_reverse, Json.Fields.get?_map, Option.map_eq_none_iff]

theorem get?_normalObject_of_some (hv : fs.get? k = some v) (hu : k ≠ "uri") (ha : k ≠ "a") :
    (normalObject fs).get? k = some (normalPayload (Json.obj fs).nodeType? k (normal v)) := by
  have hk : ¬ (k = "c" ∧ (Json.obj fs).nodeType? = some .error ∧ fs.get? "c" = none) := by
    rintro ⟨rfl, -, hc⟩
    cases hv.symm.trans hc
  rw [get?_normalObject, if_neg hk, hv, Option.map_some, normalField, if_neg ha]
  simp [Option.filter, isVoid_eq_false hu ha]

/-- A field that is not there is not added, unless it is that of the children of an
    error. -/
theorem get?_normalObject_of_none (hv : fs.get? k = none) (hk : k ≠ "c") :
    (normalObject fs).get? k = none := by
  rw [get?_normalObject, if_neg fun h => hk h.1, hv]
  rfl

theorem normalPayload_of_ne (hk : k ≠ "v") (type : Option NodeType) (v : Json) :
    normalPayload type k v = v := by
  unfold normalPayload
  exact if_neg hk

/-- Normal shapes are of the same kind. -/
theorem nodeType?_normal (v : Json) : (normal v).nodeType? = v.nodeType? := by
  cases v with
  | obj fs =>
    rw [normal_obj, Json.nodeType?, Json.nodeType?]
    show ((Json.Fields.get? (normalObject fs) "t").bind _).bind _ =
      ((Json.Fields.get? fs "t").bind _).bind _
    cases hv : Json.Fields.get? fs "t" with
    | none => rw [get?_normalObject_of_none hv (by decide)]
    | some w =>
      rw [get?_normalObject_of_some hv (by decide) (by decide), normalPayload_of_ne (by decide)]
      cases w <;> simp [Json.text?, normal]
  | arr xs => rw [normal_arr]; rfl
  | _ => simp [normal]

/-! ## Normal shapes are normal -/

theorem normalKey_of_readKey {s : Symbol} (h : readKey k = .ok s) : normalKey k = s.encode := by
  rw [normalKey, h]

theorem normalKey_normalKey (k : String) : normalKey (normalKey k) = normalKey k := by
  cases h : readKey k with
  | ok s => rw [normalKey_of_readKey h, normalKey_of_readKey (readKey_encode s)]
  | error e =>
    have hk : normalKey k = k := by rw [normalKey, h]
    rw [hk, hk]

theorem normalPayload_integer {n : Integer} (hn : integer? v = some n) :
    normalPayload (some .integer) "v" (normal v) = Shape.integerValue n := by
  cases v with
  | number m =>
    have hm : Integer.ofNumber? m = some n := hn
    simp [normalPayload, hm]
  | str s =>
    cases hn
    rw [normal_str]
    rfl
  | _ => cases hn

theorem normalPayload_float {x : Double} (hx : double? v = some x) :
    normalPayload (some .float) "v" (normal v) = .number (.real x) := by
  cases v with
  | number m => simp [normalPayload, hx]
  | _ => cases hx

/-- A payload is kept as it is, or else it becomes the payload of a number. -/
theorem normalPayload_cases (type : Option NodeType) (k : String) (v : Json) :
    normalPayload type k v = v ∨
      (k = "v" ∧ ∃ n, type = some .integer ∧ normalPayload type k v = Shape.integerValue n) ∨
      (k = "v" ∧ ∃ x, type = some .float ∧ normalPayload type k v = .number (.real x)) := by
  by_cases hk : k = "v"
  · subst hk
    unfold normalPayload
    rw [if_pos rfl]
    split
    · next n =>
      cases hn : Integer.ofNumber? n with
      | none => exact .inl rfl
      | some i => exact .inr (.inl ⟨rfl, i, rfl, rfl⟩)
    · cases hx : double? v with
      | none => exact .inl rfl
      | some x => exact .inr (.inr ⟨rfl, x, rfl, rfl⟩)
    · exact .inl rfl
  · exact .inl (normalPayload_of_ne hk ..)

theorem normalPayload_normalPayload (hv : normal v = v) (type : Option NodeType) (k : String) :
    normalPayload type k (normal (normalPayload type k v)) = normalPayload type k v := by
  rcases normalPayload_cases type k v with h | ⟨rfl, n, rfl, h⟩ | ⟨rfl, x, rfl, h⟩
  · rw [h, hv, h]
  · rw [h, normalPayload_integer (integer?_integerValue n)]
  · rw [h, normalPayload_float rfl]

theorem normalAttributes_normalAttributes (h : ∀ e ∈ es, normal (normal e.2) = normal e.2) :
    normalAttributes (normalAttributes (.obj es)) = normalAttributes (.obj es) := by
  rw [normalAttributes_obj, Json.ofFields, normalAttributes_obj, Json.ofFields]
  have hself : ∀ f ∈ Json.Fields.ofList (es.map fun e => (normalKey e.1, normal e.2)),
      (normalKey f.1, normal f.2) = f := by
    intro f hf
    obtain ⟨e, he, rfl⟩ := List.mem_map.1 (Json.Fields.mem_ofList hf)
    rw [normalKey_normalKey, h e he]
  rw [(List.map_congr_left hself).trans (List.map_id _),
    Json.Fields.ofList_of_ascending (Json.Fields.ascending_ofList _)]

theorem normalField_normalField (hv : normal (normal v) = normal v)
    (he : ∀ es, v = .obj es → ∀ e ∈ es, normal (normal e.2) = normal e.2)
    (type : Option NodeType) (k : String) :
    normalField type k (normalField type k v) = normalField type k v := by
  unfold normalField
  split_ifs
  · cases v with
    | obj es => exact normalAttributes_normalAttributes (he es rfl)
    | _ => simp [normalAttributes]
  · exact normalPayload_normalPayload hv type k

/-- What is normal is not changed any more. -/
theorem normal_normal (v : Json) : normal (normal v) = normal v := by
  -- on the weight, as the values of attributes lie two levels down
  induction hw : v.weight using Nat.strongRecOn generalizing v with
  | _ w ih =>
    subst hw
    cases v with
    | arr xs =>
      rw [normal_arr, normal_arr, List.map_map]
      refine congrArg Json.arr (List.map_congr_left fun x hx => ?_)
      exact ih x.weight (Json.weight_lt_of_mem_items hx) x rfl
    | obj fs =>
      have hlt {k : String} {v : Json} (h : Json.Fields.get? fs k = some v) :
          v.weight < (Json.obj fs).weight := weight_lt_of_get? h
      have htype : (Json.obj (normalObject fs)).nodeType? = (Json.obj fs).nodeType? := by
        rw [← normal_obj, nodeType?_normal]
      rw [normal_obj, normal_obj]
      refine congrArg Json.obj ((ascending_normalObject _).ext_get? (ascending_normalObject _) ?_)
      intro k
      rw [get?_normalObject, htype]
      have hc : ¬ (k = "c" ∧ (Json.obj fs).nodeType? = some .error ∧
          Json.Fields.get? (normalObject fs) "c" = none) := by
        rintro ⟨rfl, he, hnone⟩
        cases hv : Json.Fields.get? fs "c" with
        | none =>
          rw [get?_normalObject, if_pos ⟨rfl, he, hv⟩] at hnone
          cases hnone
        | some v =>
          rw [get?_normalObject_of_some hv (by decide) (by decide)] at hnone
          cases hnone
      rw [if_neg hc, get?_normalObject]
      split_ifs with hce
      · obtain ⟨rfl, he, -⟩ := hce
        rw [Option.map_some, normalField, if_neg (by decide), normalPayload_of_ne (by decide),
          normal_arr]
        rfl
      · cases hv : Json.Fields.get? fs k with
        | none => rfl
        | some v =>
          have hself : normalField (Json.obj fs).nodeType? k
              (normalField (Json.obj fs).nodeType? k v) =
                normalField (Json.obj fs).nodeType? k v := by
            refine normalField_normalField (ih v.weight (hlt hv) v rfl) ?_ _ _
            rintro es rfl ⟨key, e⟩ he
            have hle := Json.weight_lt_of_mem_fields he
            exact ih e.weight (by have := hlt hv; omega) e rfl
          rw [Option.map_some, Option.filter_some]
          split_ifs with hkeep
          · rw [Option.map_some, hself, Option.filter_some, if_pos hkeep]
          · rfl
    | _ => simp [normal]

end OpenMath.Wire
