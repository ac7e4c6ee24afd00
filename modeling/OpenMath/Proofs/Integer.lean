/-
  Integers, their texts, and the numbers that they are read from.

  An integer that is held as a double is found by comparing doubles, whose upper bound is itself
  rounded, and by a conversion that would saturate out of range.  It is the integer all the same.

  * `readText?_ofInt`: the digits of an integer are read as the integer;
  * `native?_toInt`, `native?_eq_none`: which integers fit a number;
  * `Represents`: an integer is kept as a number if it fits, and otherwise as digits;
  * `ofDouble?_eq`: the integer of a double, without the detour through rounded bounds;
  * `Json.Number.Denotes`, `ofNumber?_exact`: the rational that a number denotes, and the integer
    that is made of it.
-/
import OpenMath.Integer
import OpenMath.Proofs.Double.Range
import OpenMath.Proofs.Text.Digits

namespace OpenMath

/-- The numbers that are held for JSON, and the rationals that they denote: an integer with 64
    bits and no sign, a negative one with 64 bits, or a finite double. -/
inductive Json.Number.Denotes : Json.Number → ℚ → Prop
  | unsigned (n : UInt64) : Denotes (.integer n.toNat) n.toNat
  | negative {n : Int64} (neg : n < 0) : Denotes (.integer n.toInt) n.toInt
  | real {x : Double} (finite : x.isFinite = true) : Denotes (.real x) x.signedValue

namespace Integer

variable {n : Int}

theorem splitSign_ofInt (n : Int) :
    Digits.splitSign (Digits.ofInt n) = (decide (n < 0), Digits.chars n.natAbs) := by
  unfold Digits.ofInt
  split
  · next h => rw [decide_eq_true h]; rfl
  · next h => rw [decide_eq_false h, Digits.splitSign_of_isNumeral (Digits.isNumeral_chars _)]

theorem isIntegerText_ofInt (n : Int) :
    Identifier.isIntegerText (String.ofList (Digits.ofInt n)) = true := by
  rw [Identifier.isIntegerText, String.toList_ofList, splitSign_ofInt]
  exact Digits.isNumeral_chars _

/-- The text of an integer is read as the integer. -/
theorem readText?_ofInt (n : Int) : readText? (String.ofList (Digits.ofInt n)) = some n := by
  rw [readText?, if_pos (isIntegerText_ofInt n), String.toList_ofList, splitSign_ofInt]
  exact congrArg some (Digits.signedValue_chars n)

theorem native?_toInt (n : Int64) : native? n.toInt = some (.native n) := by
  rw [native?, if_pos ⟨n.minValue_le_toInt, n.toInt_le⟩, Int64.ofInt_toInt]

theorem native?_eq_none (h : n < Int64.minValue.toInt ∨ Int64.maxValue.toInt < n) :
    native? n = none := by
  rw [native?, if_neg]
  omega

/-- An integer is kept as a number if it fits 64 bits with a sign, and otherwise as a text. -/
structure Represents (v : Integer) (n : Int) : Prop where
  value : v.value? = some n
  native : Int64.minValue.toInt ≤ n → n ≤ Int64.maxValue.toInt → ∃ k, v = .native k
  text : n < Int64.minValue.toInt ∨ Int64.maxValue.toInt < n → ∃ s, v = .text s

theorem represents_native? {s : String} (h : readText? s = some n) :
    ((native? n).getD (.text s)).Represents n := by
  by_cases hn : Int64.minValue.toInt ≤ n ∧ n ≤ Int64.maxValue.toInt
  · rw [native?, if_pos hn]
    have hlt : n < 2 ^ 63 := Int.lt_of_le_sub_one hn.2
    exact ⟨congrArg some (Int64.toInt_ofInt_of_le hn.1 hlt), fun _ _ => ⟨_, rfl⟩, by omega⟩
  · rw [native?, if_neg hn]
    exact ⟨h, by omega, fun _ => ⟨s, rfl⟩⟩

theorem represents_ofInt (n : Int) : (ofInt n).Represents n :=
  represents_native? (readText?_ofInt n)

/-! ## Integers of doubles -/

theorem inRange_iff {x : Double} (hx : x.isFinite = true) (hf : x.hasFraction = false) :
    ((Double.ofInt Int64.minValue.toInt).le x && x.lt (Double.ofInt Int64.maxValue.toInt)) = true ↔
      Int64.minValue.toInt ≤ x.truncated ∧ x.truncated ≤ Int64.maxValue.toInt := by
  have hmin : Int64.minValue.toInt = -2 ^ 63 := by decide
  have hmax : Int64.maxValue.toInt = 2 ^ 63 - 1 := by decide
  rw [Double.inRange_iff hx, Double.signedValue_eq_truncated hf, hmin, hmax, Int.le_sub_one_iff]
  norm_cast

/-- The integer of a double is made by comparing with rounded bounds, by a conversion that stays
    in range, and by a text that is rounded; none of these changes it. -/
theorem ofDouble?_eq (x : Double) : ofDouble? x = x.toInt?.map ofInt := by
  cases hx : x.isFinite with
  | false =>
    have hnone : x.toInt? = none := if_neg (by simp [hx])
    rw [ofDouble?, hx, hnone]
    rfl
  | true =>
    rw [ofDouble?, hx, Double.toInt?_eq hx]
    cases hf : x.hasFraction with
    | true => rfl
    | false =>
      have hrange := inRange_iff hx hf
      simp only [Bool.not_true, Bool.or_self, Bool.false_eq_true, if_false, Option.map_some, ofInt]
      by_cases h : Int64.minValue.toInt ≤ x.truncated ∧ x.truncated ≤ Int64.maxValue.toInt
      · rw [if_pos (hrange.2 h), native?, if_pos h, Double.toInt64_eq hx h.1 h.2, Option.getD_some]
      · have hz : x.truncated ≠ 0 := fun hz => h (by rw [hz]; decide)
        rw [if_neg (mt hrange.1 h), native?, if_neg h, Double.roundedText_eq hf hz, Option.getD_none]

/-! ## Integers of JSON numbers -/

theorem ofNumber?_denotes {x : Json.Number} {q : ℚ} (h : x.Denotes q) :
    (∃ k : Int, q = k ∧ ofNumber? x = some (ofInt k)) ∨
      (¬ ∃ k : Int, q = k) ∧ ofNumber? x = none := by
  cases h with
  | unsigned n => exact .inl ⟨n.toNat, by norm_cast, rfl⟩
  | @negative n => exact .inl ⟨n.toInt, rfl, rfl⟩
  | @real x hx =>
    rw [ofNumber?, ofDouble?_eq, Double.toInt?_eq hx, Double.exists_signedValue_eq_iff]
    cases hf : x.hasFraction with
    | true => exact .inr ⟨nofun, rfl⟩
    | false => exact .inl ⟨x.truncated, Double.signedValue_eq_truncated hf, rfl⟩

theorem isIntegerText_of_readText? {s : String} (h : readText? s = some n) :
    Identifier.isIntegerText s = true := by
  by_contra hs
  rw [readText?, if_neg hs] at h
  cases h

/-- Which of its two forms an integer is kept in. -/
theorem Represents.form_iff {v : Integer} (h : v.Represents n) :
    ((∃ m, v = .native m) ↔ -2 ^ 63 ≤ n ∧ n < 2 ^ 63) ∧
      ((∃ s, v = .text s ∧ Identifier.isIntegerText s = true) ↔ n < -2 ^ 63 ∨ 2 ^ 63 ≤ n) := by
  have hmin : Int64.minValue.toInt = -2 ^ 63 := by decide
  have hmax : Int64.maxValue.toInt = 2 ^ 63 - 1 := by decide
  by_cases hn : Int64.minValue.toInt ≤ n ∧ n ≤ Int64.maxValue.toInt
  · obtain ⟨m, rfl⟩ := h.native hn.1 hn.2
    refine ⟨iff_of_true ⟨m, rfl⟩ (by omega), iff_of_false ?_ (by omega)⟩
    rintro ⟨s, hs, -⟩
    cases hs
  · obtain ⟨s, rfl⟩ := h.text (by omega)
    refine ⟨iff_of_false ?_ (by omega), iff_of_true ⟨s, rfl, ?_⟩ (by omega)⟩
    · rintro ⟨m, hm⟩
      cases hm
    · exact isIntegerText_of_readText? h.value

/-- An integer is made of just those numbers that denote an integer, and it is the one that they
    denote: a number if it fits 64 bits with a sign, and otherwise a text. -/
theorem ofNumber?_exact {x : Json.Number} {q : ℚ} (h : x.Denotes q) :
    ((∃ v, ofNumber? x = some v) ↔ ∃ k : Int, q = k) ∧
      ∀ v, ofNumber? x = some v → ∃ k : Int, q = k ∧ v.value? = some k ∧
        ((∃ m, v = .native m) ↔ -2 ^ 63 ≤ k ∧ k < 2 ^ 63) ∧
        ((∃ s, v = .text s ∧ Identifier.isIntegerText s = true) ↔ k < -2 ^ 63 ∨ 2 ^ 63 ≤ k) := by
  rcases ofNumber?_denotes h with ⟨k, hq, hx⟩ | ⟨hq, hx⟩
  · refine ⟨iff_of_true ⟨_, hx⟩ ⟨k, hq⟩, fun v hv => ⟨k, hq, ?_⟩⟩
    have hv : v.Represents k := by
      cases hx.symm.trans hv
      exact represents_ofInt k
    exact ⟨hv.value, hv.form_iff⟩
  · refine ⟨iff_of_false ?_ hq, fun v hv => ?_⟩
    · rintro ⟨v, hv⟩
      cases hx.symm.trans hv
    · cases hx.symm.trans hv

/-- At the bounds of 64 bits: the largest integer as a double is one too many and becomes a text,
    the least one is a double and stays a number. -/
theorem ofNumber?_exact_bounds :
    (∃ v s, ofNumber? (.real (Double.ofInt Int64.maxValue.toInt)) = some v ∧
      v.value? = some (2 ^ 63) ∧ v = .text s) ∧
    ∃ v m, ofNumber? (.real (Double.ofInt Int64.minValue.toInt)) = some v ∧
      v.value? = some (-2 ^ 63) ∧ v = .native m := by
  constructor
  · obtain ⟨hsome, hexact⟩ := ofNumber?_exact
      (.real (x := Double.ofInt Int64.maxValue.toInt) (by decide +kernel))
    rw [Double.signedValue_ofInt_maxValue] at hsome hexact
    obtain ⟨v, hv⟩ := hsome.2 ⟨2 ^ 63, by norm_num⟩
    obtain ⟨k, hk, hvalue, -, htext⟩ := hexact v hv
    obtain rfl : k = 2 ^ 63 := by exact_mod_cast hk.symm
    obtain ⟨s, hs, -⟩ := htext.2 (.inr le_rfl)
    exact ⟨v, s, hv, hvalue, hs⟩
  · obtain ⟨hsome, hexact⟩ := ofNumber?_exact
      (.real (x := Double.ofInt Int64.minValue.toInt) (by decide +kernel))
    rw [Double.signedValue_ofInt_minValue] at hsome hexact
    obtain ⟨v, hv⟩ := hsome.2 ⟨-2 ^ 63, by norm_num⟩
    obtain ⟨k, hk, hvalue, hnative, -⟩ := hexact v hv
    obtain rfl : k = -2 ^ 63 := by exact_mod_cast hk.symm
    obtain ⟨m, hm⟩ := hnative.2 ⟨le_rfl, by norm_num⟩
    exact ⟨v, m, hv, hvalue, hm⟩

end Integer

end OpenMath
