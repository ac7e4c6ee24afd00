/-
  Location tags, read back.

  A location is read back from its tag.  The reader also takes tags that no location is printed
  as, such as an index with a plus or with zeros in front of it, or the text of a key with
  blanks and attributes in it; what is read from such a tag is a location like any other, and
  so is read back from its own.

  * `Fits`: the locations whose index is below `2 ^ 64`;
  * `ofText_toText`: reading back the tag of a location that fits;
  * `fits_of_ofText`: what is read from a tag fits;
  * `tags_round_trip`: the two together.
-/
import OpenMath.Location.Text
import OpenMath.Proofs.Text.Digits
import OpenMath.Proofs.Wire.Acceptance
import OpenMath.Proofs.Wire.Keys

namespace OpenMath

theorem Symbol.exists_encode_eq (s : Symbol) : ∃ cs, s.encode.toList = '\x7b' :: cs :=
  ⟨_, String.toList_ofList⟩

namespace Location

variable {i : Nat} {l : Location} {tag : String}

/-! ## Indices -/

/-- The index of a location has 64 bits, if there is one. -/
def Fits : Location → Prop
  | child i | bound i => i < UInt64.size
  | head | body | attr _ => True

theorem readIndex?_chars (h : i < UInt64.size) : readIndex? (Digits.chars i) = some i := by
  unfold readIndex?
  split
  · next ds hds =>
    have hdigit : '+'.isDigit = true := Digits.isDigit_chars (hds ▸ List.mem_cons_self ..)
    cases hdigit
  · exact (if_pos ⟨Digits.isNumeral_chars i, by rwa [Digits.value_chars]⟩).trans
      (congrArg some (Digits.value_chars i))

theorem lt_of_readIndex? {cs : List Char} (h : readIndex? cs = some i) : i < UInt64.size := by
  obtain ⟨ds, hds⟩ : ∃ ds, readIndex? cs =
      if Digits.isNumeral ds ∧ Digits.value ds < UInt64.size then some (Digits.value ds) else none :=
    ⟨_, rfl⟩
  rw [hds] at h
  split at h
  · next hd =>
    cases h
    exact hd.2
  · cases h

theorem readIndex_eq_ok {cs : List Char} : readIndex tag cs = .ok i ↔ readIndex? cs = some i := by
  unfold readIndex
  split
  · next h => simp [h]
  · next h => simp [h]

theorem readIndex_chars (h : i < UInt64.size) : readIndex tag (Digits.chars i) = .ok i :=
  readIndex_eq_ok.2 (readIndex?_chars h)

/-! ## Keys -/

theorem readKey_encode (key : Symbol) : readKey key.encode = .ok key := by
  rw [readKey, key.parse?_encode]
  have htype : Check.Passes
      (Check.require (key.toShape.nodeType? == some .symbol) (.keyNotSymbol key.encode)) :=
    Check.passes_require.2 (beq_iff_eq.2 key.nodeType?_toShape)
  exact Except.bind_eq_ok.2 ⟨(), htype,
    Except.bind_eq_ok.2 ⟨(), key.valid_toShape, key.ofShape_toShape⟩⟩

/-! ## Tags -/

/-- A location that fits is read back from its tag. -/
theorem ofText_toText (h : l.Fits) : ofText l.toText = .ok l := by
  cases l with
  | child i =>
    have htag : (toText (child i)).toList = 'c' :: Digits.chars i := by simp [toText]
    rw [ofText, htag]
    show (readIndex _ (Digits.chars i) >>= _) = _
    rw [readIndex_chars h]
    rfl
  | bound i =>
    have htag : (toText (bound i)).toList = 'v' :: Digits.chars i := by simp [toText]
    rw [ofText, htag]
    show (readIndex _ (Digits.chars i) >>= _) = _
    rw [readIndex_chars h]
    rfl
  | head => rfl
  | body => rfl
  | attr key =>
    obtain ⟨cs, hcs⟩ := key.exists_encode_eq
    have htag : (toText (attr key)).toList = '\x7b' :: cs := hcs
    rw [ofText, htag]
    show (readKey key.encode >>= _) = _
    rw [readKey_encode]
    rfl

/-- The index that is read from a tag has 64 bits. -/
theorem fits_of_ofText (h : ofText tag = .ok l) : l.Fits := by
  unfold ofText at h
  -- in this order: a head, a body, a key, a child, a bound variable, and what is no tag
  split at h
  · cases h
    trivial
  · cases h
    trivial
  · obtain ⟨key, -, h⟩ := Except.bind_eq_ok.1 h
    cases h
    trivial
  · obtain ⟨i, hi, h⟩ := Except.bind_eq_ok.1 h
    cases h
    exact lt_of_readIndex? (readIndex_eq_ok.1 hi)
  · obtain ⟨i, hi, h⟩ := Except.bind_eq_ok.1 h
    cases h
    exact lt_of_readIndex? (readIndex_eq_ok.1 hi)
  · cases h

/-- A location whose index has 64 bits is read back from its tag, so no other location has the
    same one; and what is read from any tag is read again from the tag it is printed as. -/
theorem tags_round_trip :
    (∀ l : Location, l.Fits → ofText l.toText = .ok l) ∧
    (∀ l m : Location, l.Fits → m.Fits → l.toText = m.toText → l = m) ∧
    ∀ tag l, ofText tag = .ok l → ofText l.toText = .ok l := by
  refine ⟨fun l => ofText_toText, fun l m hl hm h => ?_, fun tag l h => ?_⟩
  · have hread := ofText_toText hl
    rw [h, ofText_toText hm] at hread
    exact (Except.ok.inj hread).symm
  · exact ofText_toText (fits_of_ofText h)

/-- A key is read back whatever its uri is; and what is read from the text of a key with blanks
    and attributes in it, or from an index with a plus and zeros, is read from its own tag. -/
theorem tags_round_trip_lenient :
    (∃ key : Symbol, key.uri = some "a\"b\\" ∧ ofText (toText (.attr key)) = .ok (.attr key)) ∧
    (∃ key : Symbol,
      ofText "\x7b\"t\": \"sy\", \"n\": \"type\", \"cd\": \"sts\", \"a\": \x7b\x7d\x7d" = .ok (.attr key) ∧
        ofText (toText (.attr key)) = .ok (.attr key)) ∧
    ofText "c+007" = .ok (.child 7) ∧ ofText (toText (.child 7)) = .ok (.child 7) := by
  have hkey : ofText "\x7b\"t\": \"sy\", \"n\": \"type\", \"cd\": \"sts\", \"a\": \x7b\x7d\x7d" =
      .ok (.attr ⟨"type", "sts", none, rfl, rfl⟩) := by cbv
  have hindex : ofText "c+007" = .ok (.child 7) := by cbv
  exact ⟨⟨⟨"type", "sts", some "a\"b\\", rfl, rfl⟩, rfl, tags_round_trip.1 (.attr _) trivial⟩,
    ⟨_, hkey, tags_round_trip.2.2 _ _ hkey⟩, hindex, tags_round_trip.2.2 _ _ hindex⟩

end Location

end OpenMath
