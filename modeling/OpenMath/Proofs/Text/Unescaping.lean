/-
  The identifiers that are read as escapes.

  A text is read as an escape if it is the mark and groups of four characters that write the
  units of a text.  A group is four hexadecimal digits of either case; but the first of the
  four may also be a plus sign, which stands in no escape that is written, and in no
  identifier.

  * `Hex.digit?_eq_some_iff`: the digits that are read;
  * `readGroup?_eq_some_iff`, `readGroups?_eq_some_iff`: the groups that are read;
  * `Utf16.decode_eq_some_iff`: only the units of a text are read as the text;
  * `unescape_exact`: the texts that are read as escapes, and which of them are identifiers.
-/
import Mathlib
import OpenMath.Proofs.Text.Escaping

namespace OpenMath

/-! ## Digits -/

namespace Hex

/-- A hexadecimal digit of either case, with its value. -/
def Digit (c : Char) (d : Nat) : Prop := d < 16 ∧ (c = char d ∨ c = (char d).toUpper)

theorem digit?_toUpper_char : ∀ d < 16, digit? (char d).toUpper = some d := by decide

theorem digit_of_digit? : ∀ n < 128, ∀ d, digit? (Char.ofNat n) = some d →
    d < 16 ∧ (Char.ofNat n = char d ∨ Char.ofNat n = (char d).toUpper) := by decide

theorem lt_of_digit? {c : Char} {d : Nat} (h : digit? c = some d) : c.toNat < 128 := by
  have hle {a : Char} (hc : c ≤ a) (ha : a.toNat < 128) : c.toNat < 128 := Nat.lt_of_le_of_lt hc ha
  unfold digit? at h
  split_ifs at h with h9 hf hF
  · exact hle h9.2 (by decide)
  · exact hle hf.2 (by decide)
  · exact hle hF.2 (by decide)

theorem digit?_eq_some_iff {c : Char} {d : Nat} : digit? c = some d ↔ Digit c d := by
  constructor
  · intro h
    have hd := digit_of_digit? c.toNat (lt_of_digit? h) d
    rw [Char.ofNat_toNat] at hd
    exact hd h
  · rintro ⟨hd, rfl | rfl⟩
    · exact digit?_char d hd
    · exact digit?_toUpper_char d hd

theorem isContinue_toUpper_char : ∀ d < 16, Identifier.isContinue (char d).toUpper = true := by
  decide

theorem Digit.isContinue {c : Char} {d : Nat} (h : Digit c d) : Identifier.isContinue c = true := by
  obtain ⟨hd, rfl | rfl⟩ := h
  · exact (Identifier.isContinue_char d hd).1
  · exact isContinue_toUpper_char d hd

theorem readFrom?_cons {acc n : Nat} {c : Char} {cs : List Char} :
    readFrom? acc (c :: cs) = some n ↔ ∃ d, Digit c d ∧ readFrom? (16 * acc + d) cs = some n := by
  rw [readFrom?]
  simp only [← digit?_eq_some_iff]
  cases digit? c <;> simp

end Hex

/-! ## Units of a text -/

namespace Utf16

variable {us : List Nat} {cs : List Char}

theorem encodeChar_ofNat {u : Nat} (hu : u < 0x10000) (h : isHigh u = false) (l : isLow u = false) :
    encodeChar (Char.ofNat u) = [u] := by
  have hvalid : u.isValidChar := by
    simp only [isHigh, isLow, Bool.and_eq_false_iff, decide_eq_false_iff_not] at h l
    simp only [Nat.isValidChar]
    omega
  rw [encodeChar, Char.toNat_ofNat, if_pos hvalid, if_pos hu]

theorem encodeChar_pair {u v : Nat} (h : isHigh u = true) (l : isLow v = true) :
    encodeChar (Char.ofNat (pair u v)) = [u, v] := by
  simp only [isHigh, isLow, Bool.and_eq_true, decide_eq_true_eq] at h l
  have hpair : 0x10000 ≤ pair u v ∧ pair u v < 0x110000 ∧
      0xD800 + (pair u v - 0x10000) / 0x400 = u ∧ 0xDC00 + (pair u v - 0x10000) % 0x400 = v := by
    unfold pair
    omega
  obtain ⟨hlow, hhigh, hu, hv⟩ := hpair
  have hvalid : (pair u v).isValidChar := .inr ⟨by omega, hhigh⟩
  rw [encodeChar, Char.toNat_ofNat, if_pos hvalid, if_neg (by omega), hu, hv]

theorem encode_cons (c : Char) (cs : List Char) : encode (c :: cs) = encodeChar c ++ encode cs :=
  List.flatMap_cons

/-- Units that are read as a text are those of the text. -/
theorem encode_of_decode (hu : ∀ u ∈ us, u < 0x10000) (h : decode us = some cs) :
    encode cs = us := by
  fun_induction decode us generalizing cs with
  | case1 =>
    cases h
    rfl
  | case2 u hs => cases h
  | case3 u hs =>
    cases h
    obtain ⟨hh, hl⟩ := Bool.or_eq_false_iff.1 (Bool.eq_false_iff.2 hs)
    rw [encode_cons, encodeChar_ofNat (hu u (List.mem_cons_self ..)) hh hl]
    rfl
  | case4 u v us hh hl ih =>
    obtain ⟨ds, hds, rfl⟩ := Option.map_eq_some_iff.1 h
    have hus := ih (fun w hw => hu w (by simp [hw])) hds
    rw [encode_cons, encodeChar_pair hh hl, hus]
    rfl
  | case5 u v us hh hl => cases h
  | case6 u v us hh hl => cases h
  | case7 u v us hh hl ih =>
    obtain ⟨ds, hds, rfl⟩ := Option.map_eq_some_iff.1 h
    have hus := ih (fun w hw => hu w (List.mem_cons_of_mem u hw)) hds
    rw [encode_cons, encodeChar_ofNat (hu u (List.mem_cons_self ..)) (Bool.eq_false_iff.2 hh)
      (Bool.eq_false_iff.2 hl), hus]
    rfl

/-- Only the units of a text are read as the text. -/
theorem decode_eq_some_iff (hu : ∀ u ∈ us, u < 0x10000) : decode us = some cs ↔ us = encode cs :=
  ⟨fun h => (encode_of_decode hu h).symm, fun h => h ▸ decode_encode cs⟩

end Utf16

namespace Identifier

variable {g cs : List Char} {u : Nat} {us : List Nat}

/-! ## Groups of digits -/

/-- Four digits, with the unit that they write. -/
inductive Group : List Char → Nat → Prop
  | digits {a b c d : Char} {w x y z : Nat} (ha : Hex.Digit a w) (hb : Hex.Digit b x)
    (hc : Hex.Digit c y) (hd : Hex.Digit d z) :
    Group [a, b, c, d] (0x1000 * w + 0x100 * x + 0x10 * y + z)

/-- A group in which a plus sign may stand in the place of a zero in front. -/
inductive SignedGroup : List Char → Nat → Prop
  | digits {g : List Char} {u : Nat} (h : Group g u) : SignedGroup g u
  | plus {b c d : Char} {u : Nat} (h : Group ['0', b, c, d] u) : SignedGroup ['+', b, c, d] u

theorem Group.lt (h : Group g u) : u < 0x10000 := by
  obtain ⟨⟨hw, -⟩, ⟨hx, -⟩, ⟨hy, -⟩, ⟨hz, -⟩⟩ := h
  omega

theorem SignedGroup.lt (h : SignedGroup g u) : u < 0x10000 := by
  cases h with
  | digits h | plus h => exact h.lt

theorem Group.isContinue (h : Group g u) : ∀ c ∈ g, isContinue c = true := by
  obtain ⟨ha, hb, hc, hd⟩ := h
  simp only [List.mem_cons, List.not_mem_nil, or_false]
  rintro _ (rfl | rfl | rfl | rfl)
  exacts [ha.isContinue, hb.isContinue, hc.isContinue, hd.isContinue]

theorem SignedGroup.group (h : SignedGroup g u) (hg : '+' ∉ g) : Group g u := by
  cases h with
  | digits h => exact h
  | plus h => exact absurd (List.mem_cons_self ..) hg

theorem read?_digits {a b c d : Char} : Hex.read? [a, b, c, d] = some u ↔ Group [a, b, c, d] u := by
  have hread : Hex.read? [a, b, c, d] = some u ↔ ∃ w, Hex.Digit a w ∧ ∃ x, Hex.Digit b x ∧
      ∃ y, Hex.Digit c y ∧ ∃ z, Hex.Digit d z ∧
        16 * (16 * (16 * (16 * 0 + w) + x) + y) + z = u := by
    rw [Hex.read?, if_neg (by simp), Hex.readFrom?_cons]
    simp only [Hex.readFrom?_cons]
    simp only [Hex.readFrom?, Option.some.injEq]
  rw [hread]
  constructor
  · rintro ⟨w, hw, x, hx, y, hy, z, hz, rfl⟩
    have h := Group.digits hw hx hy hz
    rwa [show 0x1000 * w + 0x100 * x + 0x10 * y + z =
      16 * (16 * (16 * (16 * 0 + w) + x) + y) + z by omega] at h
  · rintro ⟨hw, hx, hy, hz⟩
    exact ⟨_, hw, _, hx, _, hy, _, hz, by omega⟩

theorem read?_zero (c : Char) (cs : List Char) :
    Hex.read? ('0' :: c :: cs) = Hex.read? (c :: cs) := rfl

theorem not_digit_plus (d : Nat) : ¬ Hex.Digit '+' d := by
  rw [← Hex.digit?_eq_some_iff]
  exact nofun

/-- The groups that are read. -/
theorem readGroup?_eq_some_iff {a b c d : Char} :
    readGroup? [a, b, c, d] = some u ↔ SignedGroup [a, b, c, d] u := by
  unfold readGroup?
  split
  · next ds hds =>
    obtain ⟨rfl, rfl⟩ := List.cons.inj hds
    rw [← read?_zero, read?_digits]
    refine ⟨.plus, fun h => ?_⟩
    cases h with
    | digits h =>
      cases h with
      | digits ha => exact absurd ha (not_digit_plus _)
    | plus h => exact h
  · next hplus =>
    rw [read?_digits]
    refine ⟨.digits, fun h => ?_⟩
    cases h with
    | digits h => exact h
    | plus h => exact absurd rfl (hplus _)

theorem SignedGroup.exists_eq (h : SignedGroup g u) : ∃ a b c d, g = [a, b, c, d] := by
  cases h with
  | digits h =>
    obtain ⟨ha, hb, hc, hd⟩ := h
    exact ⟨_, _, _, _, rfl⟩
  | plus h => exact ⟨_, _, _, _, rfl⟩

/-- The sequences of groups that are read. -/
theorem readGroups?_eq_some_iff :
    readGroups? cs = some us ↔
      ∃ gs : List (List Char), cs = gs.flatten ∧ List.Forall₂ SignedGroup gs us := by
  constructor
  · intro h
    fun_induction readGroups? cs generalizing us with
    | case1 =>
      cases h
      exact ⟨[], rfl, .nil⟩
    | case2 a b c d cs ih =>
      simp only [Option.bind_eq_bind, Option.bind_eq_some_iff] at h
      obtain ⟨u, hu, vs, hvs, h⟩ := h
      cases h
      obtain ⟨gs, rfl, hgs⟩ := ih hvs
      exact ⟨[a, b, c, d] :: gs, rfl, .cons (readGroup?_eq_some_iff.1 hu) hgs⟩
    | case3 => cases h
  · rintro ⟨gs, rfl, h⟩
    induction h with
    | nil => rfl
    | @cons g u gs us hg _ ih =>
      obtain ⟨a, b, c, d, rfl⟩ := hg.exists_eq
      have hu := readGroup?_eq_some_iff.2 hg
      simp only [List.flatten_cons, List.cons_append, List.nil_append, readGroups?, hu, ih]
      rfl

theorem forall_lt_of_signedGroups {gs : List (List Char)} (h : List.Forall₂ SignedGroup gs us) :
    ∀ u ∈ us, u < 0x10000 := by
  induction h with
  | nil => exact nofun
  | cons hg _ ih => exact List.forall_mem_cons.2 ⟨hg.lt, ih⟩

theorem groups_of_signedGroups {gs : List (List Char)} (h : List.Forall₂ SignedGroup gs us)
    (hplus : '+' ∉ gs.flatten) : List.Forall₂ Group gs us := by
  induction h with
  | nil => exact .nil
  | cons hg _ ih =>
    rw [List.flatten_cons, List.mem_append, not_or] at hplus
    exact .cons (hg.group hplus.1) (ih hplus.2)

theorem isContinue_of_groups {gs : List (List Char)} (h : List.Forall₂ Group gs us) :
    ∀ c ∈ gs.flatten, isContinue c = true := by
  induction h with
  | nil => exact nofun
  | cons hg _ ih => exact List.forall_mem_append.2 ⟨hg.isContinue, ih⟩

theorem dropMark?_eq_some_iff {digits : List Char} :
    dropMark? cs = some digits ↔ cs = mark ++ digits := by
  unfold dropMark?
  split
  · simp [mark]
  · next hmark =>
    refine ⟨nofun, ?_⟩
    rintro rfl
    exact absurd rfl (hmark digits)

/-! ## Escapes -/

/-- A text is the mark and groups, of a certain sort, that write the units of another text. -/
def Escapes (group : List Char → Nat → Prop) (ident text : String) : Prop :=
  ∃ gs : List (List Char), ident.toList = mark ++ gs.flatten ∧
    List.Forall₂ group gs (Utf16.encode text.toList)

variable {ident text : String}

/-- The texts that are read as escapes. -/
theorem unescape?_eq_some_iff : unescape? ident = some text ↔ Escapes SignedGroup ident text := by
  simp only [unescape?, Option.bind_eq_bind, Option.bind_eq_some_iff, dropMark?_eq_some_iff,
    readGroups?_eq_some_iff]
  constructor
  · rintro ⟨_, hident, us, ⟨gs, rfl, hgs⟩, cs, hcs, h⟩
    cases h
    rw [Utf16.decode_eq_some_iff (forall_lt_of_signedGroups hgs)] at hcs
    exact ⟨gs, hident, by rwa [String.toList_ofList, ← hcs]⟩
  · rintro ⟨gs, hident, hgs⟩
    exact ⟨_, hident, _, ⟨gs, rfl, hgs⟩, _, Utf16.decode_encode _, by
      rw [String.ofList_toList]
      rfl⟩

theorem escapes_signedGroup_iff (h : '+' ∉ ident.toList) :
    Escapes SignedGroup ident text ↔ Escapes Group ident text := by
  constructor
  · rintro ⟨gs, hident, hgs⟩
    refine ⟨gs, hident, groups_of_signedGroups hgs fun hmem => h ?_⟩
    rw [hident]
    exact List.mem_append_right _ hmem
  · rintro ⟨gs, hident, hgs⟩
    exact ⟨gs, hident, hgs.imp fun _ _ => .digits⟩

theorem not_mem_plus_of_isIdentifier (h : isIdentifier ident = true) : '+' ∉ ident.toList :=
  not_mem_of_isIdentifier (by decide) h

theorem Escapes.isIdentifier (h : Escapes Group ident text) : isIdentifier ident = true := by
  obtain ⟨gs, hident, hgs⟩ := h
  rw [Identifier.isIdentifier, hident]
  show gs.flatten.all isContinue = true
  exact List.all_eq_true.2 (isContinue_of_groups hgs)

/-- A text is read as an escape if and only if it is the mark and groups of four characters that
    write the units of a text, where a plus sign may stand in the place of a zero in front of a
    group.  So what has no plus sign is read if and only if its groups are digits; and these are
    the texts that are read and that are identifiers. -/
theorem unescape_exact (ident text : String) :
    (unescape? ident = some text ↔ Escapes SignedGroup ident text) ∧
      ('+' ∉ ident.toList → (unescape? ident = some text ↔ Escapes Group ident text)) ∧
      (unescape? ident = some text → (isIdentifier ident = true ↔ '+' ∉ ident.toList)) := by
  refine ⟨unescape?_eq_some_iff, fun h => ?_,
    fun hread => ⟨not_mem_plus_of_isIdentifier, fun h => ?_⟩⟩
  · rw [unescape?_eq_some_iff, escapes_signedGroup_iff h]
  · rw [unescape?_eq_some_iff, escapes_signedGroup_iff h] at hread
    exact hread.isIdentifier

/-- A plus sign is read in the place of a zero, in what is not an identifier. -/
theorem unescape_exact_signed : unescape? "id_+041" = some "A" ∧
    isIdentifier "id_+041" = false ∧ ¬ Escapes Group "id_+041" "A" := by
  have hread : unescape? "id_+041" = some "A" := by decide +kernel
  have hplus : ¬ '+' ∉ "id_+041".toList := by decide
  refine ⟨hread, ?_, fun h => ?_⟩
  · have := ((unescape_exact "id_+041" "A").2.2 hread).not.2 hplus
    simpa using this
  · exact hplus (not_mem_plus_of_isIdentifier h.isIdentifier)

end Identifier

end OpenMath
