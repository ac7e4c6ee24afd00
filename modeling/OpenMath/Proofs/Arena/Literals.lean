/-
  Integers that are decoded from literals.

  The same digits can be given in three ways: as a number of JSON, as a text, and in the
  compact notation.  The last two keep the integer that the digits write, whatever it is.
  A number keeps it only if it fits 64 bits, with or without a sign, or happens to be its own
  approximation; any other literal is decoded as another integer.

  * `MadeOf.integer`: the payload of a node that is made of an integer object;
  * `Wf.decode_isOk_iff`, `Wf.madeOf_decode`: when a text is decoded, and as what;
  * `Reachable.decode_literal`: what a literal is decoded as, in each of the three ways.
-/
import OpenMath.Proofs.Arena.Merging
import OpenMath.Proofs.Arena.Normalising
import OpenMath.Proofs.Compact.Meaning
import OpenMath.Proofs.Compact.Scanning
import OpenMath.Proofs.Json.Literals

namespace OpenMath

/-! ## Readings of literals -/

namespace Json.Literal

variable (l : Literal) {v : Json}

theorem map_integer?_number? :
    l.number?.map Wire.integer? = (held? l.value).map fun k => some (.ofInt k) := by
  rw [value, ← Parser.map_ofNumber?_ofParts? l.negative (Digits.isNumeral_iff.1 l.numeral).2,
    number?, Option.map_map]
  rfl

theorem integer?_of_number? (h : l.number? = some v) :
    ∃ k, held? l.value = some k ∧ Wire.integer? v = some (.ofInt k) := by
  have hmap := l.map_integer?_number?
  rw [h, Option.map_some] at hmap
  obtain ⟨k, hk, heq⟩ := Option.map_eq_some_iff.1 hmap.symm
  exact ⟨k, hk, heq.symm⟩

theorem isSome_number? : l.number?.isSome = (held? l.value).isSome := by
  have h := congrArg Option.isSome l.map_integer?_number?
  rwa [Option.isSome_map, Option.isSome_map] at h

theorem represents_integerOf : (Compact.integerOf l.text).Represents l.value := by
  rw [Compact.integerOf, l.readText?_text, Option.bind_some]
  exact Integer.represents_native? l.readText?_text

theorem lexes_chars : Token.Lexes l.chars [.integer l.text] := by
  refine Token.lexes_of_scan fun rest hr => ?_
  rw [text, chars, List.append_assoc]
  refine Token.scan_integer ?_ l.numeral hr
  cases l.negative
  · exact .inl rfl
  · exact .inr (.inr rfl)

theorem parse_text : Compact.parse l.text = .ok (Shape.ofInteger (Compact.integerOf l.text)) := by
  refine Compact.parse_eq_ok_iff.2 ⟨.atom (.integer l.text), ?_, ?_, ?_⟩
  · rw [text, String.toList_ofList]
    exact l.lexes_chars.ofChars.trans (by rw [Compact.Expr.tokens]; rfl)
  · rw [Compact.Expr.Proper]
    trivial
  · rw [Compact.Expr.meaning]
    rfl

end Json.Literal

/-! ## Payloads -/

namespace Arena

/-- A text writes an integer object with a given value. -/
def WritesInteger (text : String) (v : Json) : Prop :=
  ∃ fs : Json.Fields, Json.parse? text = some (.obj fs) ∧ fs.get? "t" = some (.str "i") ∧
    fs.get? "v" = some v

variable {a b : Arena} {x : NodeId} {text : String} {v : Json} {fs : Json.Fields}

theorem nodeType?_of_tag (ht : fs.get? "t" = some (.str "i")) :
    (Json.obj fs).nodeType? = some .integer := by
  simp only [Json.nodeType?, Json.field?, Json.fields?, Option.bind_some, ht]
  rfl

/-- A node that is made of an integer object has the payload that the value is read as. -/
theorem MadeOf.integer (h : b.MadeOf x (.obj fs)) (ht : fs.get? "t" = some (.str "i"))
    (hv : fs.get? "v" = some v) :
    ∃ i, Wire.integer? v = some i ∧ b.kind? x = some (.integer i) := by
  obtain ⟨n, c, as, type, ps, hn, hr, htype, hc, -⟩ := h.roots
  cases (nodeType?_of_tag ht).symm.trans htype
  have hleaf : Wire.buildLeaf fs .integer = .ok (c.map Tree.toTerm) :=
    (Wire.liftExcept_except _).symm.trans hc
  rw [Wire.buildLeaf, Wire.payload, hv] at hleaf
  obtain ⟨i, hi, hc⟩ := Except.bind_eq_ok.1 hleaf
  obtain ⟨w, hw, hi⟩ := Except.bind_eq_ok.1 hi
  cases hw
  have hkind : (c.map Tree.toTerm).kind = .integer i :=
    congrArg Content.kind (Except.ok.inj hc).symm
  refine ⟨i, ?_, kind?_eq_some.2 ⟨n, hn, ?_⟩⟩
  · cases hread : Wire.integer? v with
    | none =>
      rw [hread] at hi
      cases hi
    | some j =>
      rw [hread] at hi
      exact congrArg some (Except.ok.inj hi)
  · rw [Node.kind, hr.content, Content.kind_map, ← hkind, Content.kind_map]

/-! ## Decoding texts -/

/-- A text is decoded if it is the text of a valid shape. -/
theorem Wf.decode_isOk_iff (w : a.Wf) : (∃ x b, decode text a = some (.ok x, b)) ↔
    ∃ v, Json.parse? text = some v ∧ Wire.Valid v := by
  cases h : Json.parse? text with
  | none =>
    refine iff_of_false ?_ nofun
    rintro ⟨x, b, hrun⟩
    rw [decode, readJson, h] at hrun
    cases hrun
  | some v =>
    have hdecode : decode text a = decodeShape v a := by
      rw [decode, readJson, h]
      rfl
    simp only [hdecode, w.decodeShape_isOk_iff, Option.some.injEq, exists_eq_left']

/-- What is decoded is made of the shape that the text writes. -/
theorem Wf.madeOf_decode (w : a.Wf) (hp : Json.parse? text = some v)
    (h : decode text a = some (.ok x, b)) : b.MadeOf x v := by
  obtain ⟨v', hv', hvalid⟩ := w.decode_isOk_iff.1 ⟨x, b, h⟩
  cases hp.symm.trans hv'
  obtain ⟨u, b', hm, hpl, hb⟩ := w.make_ok (Wire.validated_eq_ok.2 ⟨hvalid, rfl⟩) hvalid
  have hdecode : decode text a = some (.ok u.label, b') := by
    rw [decode_eq, readJson, hp]
    exact hm
  cases h.symm.trans hdecode
  exact ⟨u, hpl.tree u (List.mem_singleton_self u), hb⟩

/-! ## Decoding literals -/

section
variable (l : Json.Literal)

theorem Wf.decode_integer (w : a.Wf) (hw : WritesInteger text v)
    (h : decode text a = some (.ok x, b)) :
    ∃ i, Wire.integer? v = some i ∧ b.kind? x = some (.integer i) := by
  obtain ⟨fs, hp, ht, hv⟩ := hw
  exact (w.madeOf_decode hp h).integer ht hv

theorem valid_integer_iff : Wire.Valid (.obj [("t", .str "i"), ("v", v)]) ↔
    Wire.isInteger (some v) = true := by
  rw [Wire.valid_iff]
  constructor
  · rintro ⟨_, ⟨⟩, -, type, htype, -, hf⟩
    cases (nodeType?_of_tag rfl).symm.trans htype
    exact hf
  · intro hv
    exact ⟨_, rfl, by simp [Wire.AttributesOk, Json.Fields.get?], .integer, nodeType?_of_tag rfl,
      by simp [Wire.fieldNames], hv⟩

theorem Wf.decode_integerObject_isOk_iff (w : a.Wf) :
    (∃ x b, decode (Json.integerObject l.text) a = some (.ok x, b)) ↔
      (Json.held? l.value).isSome = true := by
  rw [w.decode_isOk_iff, Json.parse?_integerObject, ← l.isSome_number?]
  cases hl : l.number? with
  | none => simp
  | some v =>
    obtain ⟨k, -, hread⟩ := l.integer?_of_number? hl
    obtain ⟨m, -, rfl⟩ := Option.map_eq_some_iff.1 hl
    refine iff_of_true ⟨_, rfl, valid_integer_iff.2 ?_⟩ rfl
    exact Option.isSome_iff_exists.2 ⟨_, hread⟩

/-- In the compact notation the digits are read as their integer. -/
theorem Wf.parse_digits (w : a.Wf) : ∃ x b, parse l.text a = some (.ok x, b) ∧
    b.kind? x = some (.integer (Compact.integerOf l.text)) := by
  have hshape := l.parse_text
  obtain ⟨u, b, hm, hp, hb⟩ := w.make_ok hshape (validated_parse l.text _ hshape)
  refine ⟨u.label, b, hm, ?_⟩
  obtain ⟨fs, hfs, -⟩ := Tree.ofContent_eq (.integer (Compact.integerOf l.text))
  have hfields : Wire.HasFields fs (Shape.ofContent (.integer (Compact.integerOf l.text))) :=
    fun k _ => by rw [hfs]; rfl
  have hmade : b.MadeOf u.label (.obj fs) := ⟨u, hp.tree u (List.mem_singleton_self u), hfs ▸ hb⟩
  obtain ⟨i, hi, hk⟩ := hmade.integer (Wire.get?_tag (Wire.nodeType?_ofContent hfields))
    (hfields.get? (List.mem_cons_self ..) (by decide) (by simp))
  rw [Wire.integer?_integerValue] at hi
  cases hi
  exact hk

/-- What a literal of JSON is decoded as.  As a number, it becomes the integer if this fits 64
    bits, with or without a sign, and otherwise the integer that its approximation is; the
    object of the literal is refused only if that is infinite.  As a text, and in the
    compact notation, it becomes the integer that the digits write, however many there are. -/
theorem Reachable.decode_literal (h : a.Reachable) :
    (∀ text v x b, Json.parse? l.text = some v → WritesInteger text v →
      decode text a = some (.ok x, b) →
      ∃ k i, Json.held? l.value = some k ∧ b.kind? x = some (.integer i) ∧ i.Represents k) ∧
    ((∃ x b, decode (Json.integerObject l.text) a = some (.ok x, b)) ↔
      (Json.held? l.value).isSome = true) ∧
    (∀ text x b, WritesInteger text (.str l.text) → decode text a = some (.ok x, b) →
      ∃ i, b.kind? x = some (.integer i) ∧ i.value? = some l.value) ∧
    ∃ x b i, parse l.text a = some (.ok x, b) ∧ b.kind? x = some (.integer i) ∧
      i.Represents l.value := by
  refine ⟨?_, h.wf.decode_integerObject_isOk_iff l, ?_, ?_⟩
  · intro text v x b hl hw hrun
    obtain ⟨i, hi, hk⟩ := h.wf.decode_integer hw hrun
    rw [l.parse?_text] at hl
    obtain ⟨k, hheld, hread⟩ := l.integer?_of_number? hl
    cases hi.symm.trans hread
    exact ⟨k, _, hheld, hk, Integer.represents_ofInt k⟩
  · intro text x b hw hrun
    obtain ⟨i, hi, hk⟩ := h.wf.decode_integer hw hrun
    cases hi
    exact ⟨_, hk, l.readText?_text⟩
  · obtain ⟨x, b, hrun, hk⟩ := h.wf.parse_digits l
    exact ⟨x, b, _, hrun, hk, l.represents_integerOf⟩

end

/-- The literal of an integer that is next to a double, but not one itself. -/
def besideDouble : Json.Literal where
  negative := false
  digits := "18446744073709551617".toList
  numeral := by decide +kernel
  zero := by decide +kernel

/-- As a number the literal is decoded as its neighbour, in the compact notation as itself. -/
theorem decode_literal_beside :
    (∃ x b i, decode "\x7b\"t\":\"i\",\"v\":18446744073709551617\x7d" empty = some (.ok x, b) ∧
      b.kind? x = some (.integer i) ∧ i.value? = some 18446744073709551616) ∧
    ∃ x b i, parse "18446744073709551617" empty = some (.ok x, b) ∧
      b.kind? x = some (.integer i) ∧ i.value? = some 18446744073709551617 := by
  have hvalue : besideDouble.value = 18446744073709551617 := by decide +kernel
  have hheld : Json.held? besideDouble.value = some 18446744073709551616 := by decide +kernel
  obtain ⟨hnumber, hsome, -, hcompact⟩ := Reachable.empty.decode_literal besideDouble
  refine ⟨?_, ?_⟩
  · obtain ⟨x, b, hrun⟩ := hsome.2 (by rw [hheld]; rfl)
    have hparse := Json.parse?_integerObject besideDouble
    obtain ⟨v, hv⟩ : ∃ v, besideDouble.number? = some v :=
      Option.isSome_iff_exists.1 (by rw [besideDouble.isSome_number?, hheld]; rfl)
    rw [hv, Option.map_some] at hparse
    obtain ⟨k, i, hk, hkind, hi⟩ :=
      hnumber _ v x b (besideDouble.parse?_text.trans hv) ⟨_, hparse, rfl, rfl⟩ hrun
    cases hheld.symm.trans hk
    exact ⟨x, b, i, hrun, hkind, hi.value⟩
  · obtain ⟨x, b, i, hrun, hkind, hi⟩ := hcompact
    exact ⟨x, b, i, hrun, hkind, hvalue ▸ hi.value⟩

end Arena

end OpenMath
