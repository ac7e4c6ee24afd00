/-
  The language of the wire format.

  Which values are shapes is said here by an inductive definition, which does not run: an
  object with a tag that has the fields of that tag, whose parts are shapes, and so are
  the values of its attributes.  The keys of attributes are texts of shapes, however deep
  attributes are nested in them.

  * `IsInteger`, `IsFinite`, `IsByte`, `IsName`, `IsNumeral`: what a payload may be;
  * `Typed`, `Formed`: the shapes of each kind, and the shapes of any kind;
  * `Typed.accepted`: shapes are accepted, by the rules of the language;
  * `typed_of_accepted`: what is accepted is a shape, by the weight of the value;
  * `validate_eq_ok_iff`: validation accepts the language and nothing else.
-/
import OpenMath.Proofs.Integer
import OpenMath.Proofs.Wire.Acceptance

namespace OpenMath.Wire

variable {fs : Json.Fields} {v : Json} {s : String} {type : NodeType}

/-! ## Payloads -/

/-- A number without fractional part: one that is written as an integer, or a double
    whose amount is a natural number. -/
inductive IsWhole : Json.Number → Prop
  | integer (n : Int) : IsWhole (.integer n)
  | real {x : Double} {n : Nat} (finite : x.isFinite = true) (value : x.value = n) :
    IsWhole (.real x)

/-- A number that is not too large for a double. -/
inductive IsFinite : Json.Number → Prop
  | integer {n : Int} (finite : (Double.ofInt n).isFinite = true) : IsFinite (.integer n)
  | real {x : Double} (finite : x.isFinite = true) : IsFinite (.real x)

/-- A sign, which may be left out, and one decimal digit or more. -/
inductive IsNumeral : String → Prop
  | mk {sign ds : List Char} (sign_mem : sign ∈ [[], ['+'], ['-']]) (ne_nil : ds ≠ [])
    (digits : ∀ c ∈ ds, '0' ≤ c ∧ c ≤ '9') : IsNumeral (String.ofList (sign ++ ds))

/-- An integer, as a number or as a numeral. -/
inductive IsInteger : Json → Prop
  | number {n : Json.Number} (whole : IsWhole n) : IsInteger (.number n)
  | text {s : String} (numeral : IsNumeral s) : IsInteger (.str s)

/-- An integer that is a byte. -/
inductive IsByte : Json → Prop
  | mk {n : Int} (nonneg : 0 ≤ n) (le : n ≤ 255) : IsByte (.int n)

/-- An ASCII letter, an underscore, a colon, or a letter from U+0374 to U+03FF. -/
def IsNameStart (c : Char) : Prop :=
  ('A' ≤ c ∧ c ≤ 'Z') ∨ ('a' ≤ c ∧ c ≤ 'z') ∨ c = '_' ∨ c = ':' ∨ ('\u0374' ≤ c ∧ c ≤ '\u03FF')

/-- Any of these, a digit, a point or a hyphen. -/
def IsNamePart (c : Char) : Prop := IsNameStart c ∨ ('0' ≤ c ∧ c ≤ '9') ∨ c = '.' ∨ c = '-'

/-- A name of a symbol, a dictionary or a variable. -/
inductive IsName : String → Prop
  | mk {c : Char} {cs : List Char} (start : IsNameStart c) (part : ∀ d ∈ cs, IsNamePart d) :
    IsName (String.ofList (c :: cs))

/-- A base uri: a text, null, or nothing. -/
inductive IsUri : Option Json → Prop
  | absent : IsUri none
  | null : IsUri (some .null)
  | text (s : String) : IsUri (some (.str s))

/-! ## Shapes -/

/-- An object with a given tag, and with no fields but the tag, attributes and those
    with given names. -/
structure Marked (fs : Json.Fields) (tag : String) (names : List String) : Prop where
  tag : fs.get? "t" = some (.str tag)
  names : ∀ f ∈ fs, f.1 = "t" ∨ f.1 = "a" ∨ f.1 ∈ names

mutual

/-- The shapes of each kind. -/
inductive Typed : NodeType → Json → Prop
  | integer {fs : Json.Fields} {v : Json} (marked : Marked fs "i" ["v"])
    (annotated : Annotated (fs.get? "a")) (value : fs.get? "v" = some v) (valueOk : IsInteger v) :
    Typed .integer (.obj fs)
  | float {fs : Json.Fields} {n : Json.Number} (marked : Marked fs "f" ["v"])
    (annotated : Annotated (fs.get? "a")) (value : fs.get? "v" = some (.number n))
    (valueOk : IsFinite n) : Typed .float (.obj fs)
  | string {fs : Json.Fields} {s : String} (marked : Marked fs "st" ["v"])
    (annotated : Annotated (fs.get? "a")) (value : fs.get? "v" = some (.str s)) :
    Typed .string (.obj fs)
  | byteArray {fs : Json.Fields} {xs : List Json} (marked : Marked fs "ba" ["v"])
    (annotated : Annotated (fs.get? "a")) (value : fs.get? "v" = some (.arr xs))
    (valueOk : ∀ x ∈ xs, IsByte x) : Typed .byteArray (.obj fs)
  | symbol {fs : Json.Fields} {n d : String} (marked : Marked fs "sy" ["n", "cd", "uri"])
    (annotated : Annotated (fs.get? "a")) (name : fs.get? "n" = some (.str n)) (nameOk : IsName n)
    (cd : fs.get? "cd" = some (.str d)) (cdOk : IsName d) (uri : IsUri (fs.get? "uri")) :
    Typed .symbol (.obj fs)
  | var {fs : Json.Fields} {n : String} (marked : Marked fs "v" ["n"])
    (annotated : Annotated (fs.get? "a")) (name : fs.get? "n" = some (.str n)) (nameOk : IsName n) :
    Typed .var (.obj fs)
  | application {fs : Json.Fields} {xs : List Json} (marked : Marked fs "a" ["c"])
    (annotated : Annotated (fs.get? "a")) (children : fs.get? "c" = some (.arr xs))
    (ne_nil : xs ≠ []) (childrenOk : ∀ x ∈ xs, Formed x) : Typed .application (.obj fs)
  | binding {fs : Json.Fields} {h b : Json} {xs : List Json}
    (marked : Marked fs "bi" ["s", "v", "b"]) (annotated : Annotated (fs.get? "a"))
    (head : fs.get? "s" = some h) (headOk : Typed .symbol h) (bound : fs.get? "v" = some (.arr xs))
    (boundOk : ∀ x ∈ xs, Typed .var x) (body : fs.get? "b" = some b) (bodyOk : Formed b) :
    Typed .binding (.obj fs)
  | error {fs : Json.Fields} {h : Json} (marked : Marked fs "e" ["s", "c"])
    (annotated : Annotated (fs.get? "a")) (head : fs.get? "s" = some h) (headOk : Typed .symbol h)
    (children : Listed (fs.get? "c")) : Typed .error (.obj fs)

/-- The shapes. -/
inductive Formed : Json → Prop
  | typed {type : NodeType} {v : Json} (typed : Typed type v) : Formed v

/-- The children of an error: a list of shapes, or nothing. -/
inductive Listed : Option Json → Prop
  | absent : Listed none
  | items {xs : List Json} (formed : ∀ x ∈ xs, Formed x) : Listed (some (.arr xs))

/-- The attributes of a shape: an object, or nothing. -/
inductive Annotated : Option Json → Prop
  | absent : Annotated none
  | entries {as : Json.Fields} (entries : ∀ e ∈ as, Entry e) : Annotated (some (.obj as))

/-- An attribute: its key is a text that is read as the shape of a symbol, which may itself
    have attributes, and its value is a shape. -/
inductive Entry : String × Json → Prop
  | mk {key : String} {symbol value : Json} (read : Json.parse? key = some symbol)
    (typed : Typed .symbol symbol) (formed : Formed value) : Entry (key, value)

end

/-! ## Payloads are tested for -/

theorem isDigit_iff {c : Char} : c.isDigit = true ↔ '0' ≤ c ∧ c ≤ '9' := by
  simp [Char.isDigit, Char.le_def, UInt32.le_iff_toNat_le]

theorem isStart_iff {c : Char} : Identifier.isStart c = true ↔ IsNameStart c := by
  simp only [Identifier.isStart, Identifier.isGreek, Char.isAlpha, Char.isUpper, Char.isLower,
    IsNameStart, Char.le_def, Bool.or_eq_true, Bool.and_eq_true, decide_eq_true_eq, beq_iff_eq,
    UInt32.le_iff_toNat_le, or_assoc]
  exact Iff.rfl

theorem isContinue_iff {c : Char} : Identifier.isContinue c = true ↔ IsNamePart c := by
  simp [Identifier.isContinue, IsNamePart, isStart_iff, isDigit_iff, or_assoc]

theorem isIdentifier_iff : Identifier.isIdentifier s = true ↔ IsName s := by
  constructor
  · intro h
    obtain ⟨c, cs, hs⟩ : ∃ c cs, s.toList = c :: cs := by
      cases hs : s.toList with
      | nil => simp [Identifier.isIdentifier, hs, Identifier.isName] at h
      | cons c cs => exact ⟨c, cs, rfl⟩
    rw [Identifier.isIdentifier, hs, Identifier.isName, Bool.and_eq_true, List.all_eq_true] at h
    rw [← String.ofList_toList (s := s), hs]
    exact .mk (isStart_iff.1 h.1) fun d hd => isContinue_iff.1 (h.2 d hd)
  · rintro ⟨hc, hcs⟩
    rw [Identifier.isIdentifier, String.toList_ofList, Identifier.isName, Bool.and_eq_true,
      List.all_eq_true]
    exact ⟨isStart_iff.2 hc, fun d hd => isContinue_iff.2 (hcs d hd)⟩

theorem isIntegerText_iff : Identifier.isIntegerText s = true ↔ IsNumeral s := by
  constructor
  · intro h
    obtain ⟨hne, hds⟩ := Digits.isNumeral_iff.1 h
    obtain ⟨sign, hsign, hs⟩ := Digits.exists_splitSign s.toList
    rw [← String.ofList_toList (s := s), hs]
    exact .mk hsign hne fun c hc => isDigit_iff.1 (hds c hc)
  · rintro @⟨sign, ds, hsign, hne, hds⟩
    have hd : Digits.isNumeral ds = true :=
      Digits.isNumeral_iff.2 ⟨hne, fun c hc => isDigit_iff.2 (hds c hc)⟩
    have hsplit : (Digits.splitSign (sign ++ ds)).2 = ds := by
      simp only [List.mem_cons, List.not_mem_nil, or_false] at hsign
      rcases hsign with rfl | rfl | rfl
      · exact congrArg Prod.snd (Digits.splitSign_of_isNumeral hd)
      · rfl
      · rfl
    rw [Identifier.isIntegerText, String.toList_ofList, hsplit]
    exact hd

theorem ofNumber?_isSome_iff {n : Json.Number} :
    (Integer.ofNumber? n).isSome = true ↔ IsWhole n := by
  cases n with
  | integer n => exact iff_of_true rfl (.integer n)
  | real x =>
    rw [Integer.ofNumber?, Integer.ofDouble?_eq, Option.isSome_map]
    constructor
    · intro h
      obtain ⟨hfin, hdvd⟩ : x.isFinite = true ∧ x.numerator % x.denominator = 0 := by
        by_contra hx
        rw [Double.toInt?, if_neg hx] at h
        cases h
      refine .real (n := x.numerator / x.denominator) hfin ?_
      rw [Double.value_eq_div,
        Nat.cast_div (Nat.dvd_of_mod_eq_zero hdvd) x.cast_denominator_ne_zero]
    · rintro ⟨⟩
      next n hfin hval => exact Double.toInt?_isSome hfin hval

theorem isInteger_iff {v : Option Json} : isInteger v = true ↔ ∃ w, v = some w ∧ IsInteger w := by
  constructor
  · intro h
    unfold isInteger at h
    split at h
    · exact ⟨_, rfl, .number (ofNumber?_isSome_iff.1 h)⟩
    · exact ⟨_, rfl, .text (isIntegerText_iff.1 h)⟩
    · cases h
  · rintro ⟨_, rfl, hn | hs⟩
    · exact ofNumber?_isSome_iff.2 hn
    · exact isIntegerText_iff.2 hs

theorem byte?_isSome_iff : (byte? v).isSome = true ↔ IsByte v := by
  constructor
  · intro h
    unfold byte? at h
    split at h
    · next n =>
      have hn : 0 ≤ n ∧ n < 256 := by
        by_contra hn
        rw [if_neg hn] at h
        cases h
      exact .mk hn.1 (by omega)
    · cases h
  · rintro ⟨h0, h1⟩
    rw [byte?, if_pos ⟨h0, by omega⟩]
    rfl

theorem isSome_mapM {α β : Type} {f : α → Option β} {xs : List α} :
    (xs.mapM f).isSome = true ↔ ∀ x ∈ xs, (f x).isSome = true := by
  induction xs with
  | nil => simp
  | cons x xs ih =>
    rw [List.forall_mem_cons, ← ih, List.mapM_cons]
    cases f x <;> cases xs.mapM f <;> simp

theorem bytes?_isSome_iff :
    (bytes? v).isSome = true ↔ ∃ xs, v = .arr xs ∧ ∀ x ∈ xs, IsByte x := by
  cases v with
  | arr xs => simp [bytes?, isSome_mapM, byte?_isSome_iff]
  | _ => simp [bytes?]

theorem double?_finite_iff :
    (∃ x, double? v = some x ∧ x.isNaN = false ∧ x.isFinite = true) ↔
      ∃ n, v = .number n ∧ IsFinite n := by
  constructor
  · rintro ⟨x, hx, -, hfin⟩
    unfold double? at hx
    split at hx
    · cases hx
      exact ⟨_, rfl, .integer hfin⟩
    · cases hx
      exact ⟨_, rfl, .real hfin⟩
    · cases hx
  · rintro ⟨_, rfl, hfin | hfin⟩
    · exact ⟨_, rfl, Double.not_isNaN_of_isFinite hfin, hfin⟩
    · exact ⟨_, rfl, Double.not_isNaN_of_isFinite hfin, hfin⟩

theorem isUri_iff {v : Option Json} :
    IsUri v ↔ v = none ∨ v = some .null ∨ ∃ s, v = some (.str s) := by
  constructor
  · rintro (_ | _ | s)
    · exact .inl rfl
    · exact .inr (.inl rfl)
    · exact .inr (.inr ⟨s, rfl⟩)
  · rintro (rfl | rfl | ⟨s, rfl⟩)
    · exact .absent
    · exact .null
    · exact .text s

/-! ## Shapes are accepted -/

/-- A shape of a given kind that is accepted. -/
structure Accepted (type : NodeType) (v : Json) : Prop where
  valid : Valid v
  type : v.nodeType? = some type

/-- An object is accepted that is marked as of some kind, if its attributes and the
    fields of the kind are. -/
theorem accepted_of_marked (type : NodeType) (h : Marked fs type.tag (fieldNames type))
    (ha : AttributesOk Valid fs) (hf : FieldsOk Valid fs type) : Accepted type (.obj fs) := by
  have ht : (Json.obj fs).nodeType? = some type := by
    simp only [Json.nodeType?, Json.field?, Json.fields?, Option.bind_some, h.tag, Json.text?]
    exact NodeType.ofTag?_eq_some_iff.2 rfl
  exact ⟨valid_iff.2 ⟨fs, rfl, ha, type, ht, h.names, hf⟩, ht⟩

mutual

/-- Every shape is accepted. -/
theorem Typed.accepted : ∀ {type : NodeType} {v : Json}, Typed type v → Accepted type v
  | _, _, .integer m a hv hi =>
    accepted_of_marked .integer m (a.attributesOk rfl) (isInteger_iff.2 ⟨_, hv, hi⟩)
  | _, _, .float m a hv hn => by
    obtain ⟨x, hx⟩ := double?_finite_iff.2 ⟨_, rfl, hn⟩
    exact accepted_of_marked .float m (a.attributesOk rfl) ⟨_, x, hv, hx⟩
  | _, _, .string m a hv => accepted_of_marked .string m (a.attributesOk rfl) ⟨_, hv⟩
  | _, _, .byteArray m a hv hb => by
    obtain ⟨bs, hbs⟩ := Option.isSome_iff_exists.1 (bytes?_isSome_iff.2 ⟨_, rfl, hb⟩)
    exact accepted_of_marked .byteArray m (a.attributesOk rfl) ⟨_, bs, hv, hbs⟩
  | _, _, .symbol m a hn hn' hd hd' hu =>
    accepted_of_marked .symbol m (a.attributesOk rfl)
      ⟨⟨_, hn, isIdentifier_iff.2 hn'⟩, ⟨_, hd, isIdentifier_iff.2 hd'⟩, isUri_iff.1 hu⟩
  | _, _, .var m a hn hn' =>
    accepted_of_marked .var m (a.attributesOk rfl) ⟨_, hn, isIdentifier_iff.2 hn'⟩
  | _, _, .application m a hc hne h =>
    accepted_of_marked .application m (a.attributesOk rfl) ⟨_, hc, hne, fun x hx => (h x hx).valid⟩
  | _, _, .binding m a hs hs' hv hv' hb hb' =>
    accepted_of_marked .binding m (a.attributesOk rfl)
      ⟨⟨_, hs, hs'.accepted.valid, hs'.accepted.type⟩,
        ⟨_, hv, fun x hx => ⟨(hv' x hx).accepted.valid, (hv' x hx).accepted.type⟩⟩,
        _, hb, hb'.valid⟩
  | _, _, .error m a hs hs' hc =>
    accepted_of_marked .error m (a.attributesOk rfl)
      ⟨⟨_, hs, hs'.accepted.valid, hs'.accepted.type⟩, hc.listOk rfl⟩

theorem Formed.valid : ∀ {v : Json}, Formed v → Valid v
  | _, .typed h => h.accepted.valid

theorem Listed.listOk : ∀ {o : Option Json}, Listed o → ∀ {fs : Json.Fields}, fs.get? "c" = o →
    fs.get? "c" = none ∨ ListOk fs "c" Valid
  | _, .absent, _, he => .inl he
  | _, .items h, _, he => .inr ⟨_, he, fun x hx => (h x hx).valid⟩

theorem Annotated.attributesOk : ∀ {o : Option Json}, Annotated o → ∀ {fs : Json.Fields},
    fs.get? "a" = o → AttributesOk Valid fs
  | _, .absent, _, he => .inl he
  | _, .entries h, _, he => .inr ⟨_, he, fun e hm => (h e hm).entryOk⟩

theorem Entry.entryOk : ∀ {e : String × Json}, Entry e → ∃ shape, Json.parse? e.1 = some shape ∧
    shape.nodeType? = some .symbol ∧ Valid shape ∧ Valid e.2
  | _, .mk hr hs hv => ⟨_, hr, hs.accepted.type, hs.accepted.valid, hv.valid⟩

end

/-! ## What is accepted is a shape -/

theorem marked_of_nodeType? (ht : (Json.obj fs).nodeType? = some type)
    (hn : ∀ f ∈ fs, f.1 = "t" ∨ f.1 = "a" ∨ f.1 ∈ fieldNames type) :
    Marked fs type.tag (fieldNames type) :=
  ⟨get?_tag ht, hn⟩

theorem formed_of_typed (hv : Valid v) (h : ∀ k, Accepted k v → Typed k v) : Formed v := by
  obtain ⟨fs, rfl, -, type, ht, -⟩ := valid_iff.1 hv
  exact .typed (h type ⟨hv, ht⟩)

section
variable (typed : ∀ u : Json, u.weight < (Json.obj fs).weight → ∀ k, Accepted k u → Typed k u)
include typed

theorem annotated_of_attributesOk (h : AttributesOk Valid fs) : Annotated (fs.get? "a") := by
  rcases h with ha | ⟨as, ha, h⟩
  · exact ha ▸ .absent
  · refine ha ▸ .entries fun e he => ?_
    obtain ⟨shape, hr, hs, hvs, hve⟩ := h e he
    exact .mk hr (typed _ (weight_lt_of_key ha he hr) _ ⟨hvs, hs⟩)
      (formed_of_typed hve (typed _ (weight_lt_of_attribute ha he)))

/-- The fields of a kind make a shape of it, if what is accepted inside it is a shape. -/
theorem typed_of_fieldsOk (hm : Marked fs type.tag (fieldNames type))
    (ha : Annotated (fs.get? "a")) (hf : FieldsOk Valid fs type) : Typed type (.obj fs) := by
  have head (h : HeadOk Valid fs) : ∃ v, fs.get? "s" = some v ∧ Typed .symbol v := by
    obtain ⟨v, hs, hv, ht⟩ := h
    exact ⟨v, hs, typed v (weight_lt_of_get? hs) _ ⟨hv, ht⟩⟩
  have item {k : String} {xs : List Json} (hk : fs.get? k = some (.arr xs)) {x : Json} (hx : x ∈ xs)
      (hv : Valid x) : Formed x := formed_of_typed hv (typed x (weight_lt_of_mem_get? hk hx))
  cases type with
  | integer =>
    obtain ⟨v, hv, hi⟩ := isInteger_iff.1 hf
    exact .integer hm ha hv hi
  | float =>
    obtain ⟨v, x, hv, hx⟩ := hf
    obtain ⟨n, rfl, hn⟩ := double?_finite_iff.1 ⟨x, hx⟩
    exact .float hm ha hv hn
  | string =>
    obtain ⟨s, hs⟩ := hf
    exact .string hm ha hs
  | byteArray =>
    obtain ⟨v, bs, hv, hb⟩ := hf
    obtain ⟨xs, rfl, hxs⟩ := bytes?_isSome_iff.1 (Option.isSome_iff_exists.2 ⟨bs, hb⟩)
    exact .byteArray hm ha hv hxs
  | symbol =>
    obtain ⟨⟨n, hn, hn'⟩, ⟨d, hd, hd'⟩, hu⟩ := hf
    exact .symbol hm ha hn (isIdentifier_iff.1 hn') hd (isIdentifier_iff.1 hd') (isUri_iff.2 hu)
  | var =>
    obtain ⟨n, hn, hn'⟩ := hf
    exact .var hm ha hn (isIdentifier_iff.1 hn')
  | application =>
    obtain ⟨xs, hc, hne, hxs⟩ := hf
    exact .application hm ha hc hne fun x hx => item hc hx (hxs x hx)
  | binding =>
    obtain ⟨hhead, ⟨xs, hx, hxs⟩, b, hb, hbv⟩ := hf
    obtain ⟨h, hs, hsym⟩ := head hhead
    exact .binding hm ha hs hsym hx
      (fun x hmem => typed x (weight_lt_of_mem_get? hx hmem) _ ⟨(hxs x hmem).1, (hxs x hmem).2⟩)
      hb (formed_of_typed hbv (typed b (weight_lt_of_get? hb)))
  | error =>
    obtain ⟨hhead, hc⟩ := hf
    obtain ⟨h, hs, hsym⟩ := head hhead
    refine .error hm ha hs hsym ?_
    rcases hc with hc | ⟨xs, hc, hxs⟩
    · exact hc ▸ .absent
    · exact hc ▸ .items fun x hx => item hc hx (hxs x hx)

end

/-- What is accepted as a shape of some kind is one. -/
theorem typed_of_accepted (v : Json) : ∀ type, Accepted type v → Typed type v := by
  -- shapes inside a shape are lighter than it, and so are those that its keys write
  induction hw : v.weight using Nat.strongRecOn generalizing v with
  | _ w ih =>
    subst hw
    rintro type ⟨hv, ht⟩
    obtain ⟨fs, rfl, ha, type', ht', hn, hf⟩ := valid_iff.1 hv
    cases ht.symm.trans ht'
    have typed (u : Json) (hu : u.weight < (Json.obj fs).weight) := ih _ hu u rfl
    exact typed_of_fieldsOk typed (marked_of_nodeType? ht hn)
      (annotated_of_attributesOk typed ha) hf

/-- Validation accepts the shapes, and nothing but shapes. -/
theorem validate_eq_ok_iff (v : Json) : validate v = .ok () ↔ Formed v := by
  constructor
  · intro h
    exact formed_of_typed h (typed_of_accepted v)
  · intro h
    exact h.valid

end OpenMath.Wire
