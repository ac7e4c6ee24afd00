/-
  Numbers in a range, and their integers.

  The bits below the sign grow with the value, so that numbers are compared by their bits.  A
  number without fractional part that is in the range of 64 bits is kept by the conversion to
  such an integer, and its text without places behind the point writes it in any case.

  * `signedValue`: the exact value of a finite number;
  * `lt_iff`, `le_iff`: the order of numbers is that of their values;
  * `signedValue_ofInt_minValue`, `signedValue_ofInt_maxValue`: the bounds of 64 bits as doubles;
  * `exists_signedValue_eq_iff`: which numbers are integers;
  * `toInt64_eq`, `roundedText_eq`: the integer of a number as 64 bits and as a text.
-/
import Mathlib
import OpenMath.Double.Text
import OpenMath.Proofs.Double.Rounding

namespace OpenMath.Double

variable {x y : Double}

/-! ## Magnitudes -/

theorem value_nonneg (x : Double) : 0 ≤ x.value := by
  unfold value
  positivity

theorem value_lt_of_scale {k l m n : Nat} (hm : m < 2 * exponentWeight) (hn : exponentWeight ≤ n)
    (h : k < l) : (m * 2 ^ (k - 1074 : Int) : ℚ) < n * 2 ^ (l - 1074 : Int) := by
  have hm' : (m : ℚ) < 2 * exponentWeight := by exact_mod_cast hm
  have hn' : (exponentWeight : ℚ) ≤ n := by exact_mod_cast hn
  have hpow : (2 : ℚ) * 2 ^ (k - 1074 : Int) ≤ 2 ^ (l - 1074 : Int) := by
    rw [← zpow_one_add₀ two_ne_zero]
    exact zpow_le_zpow_right₀ one_le_two (by omega)
  calc (m * 2 ^ (k - 1074 : Int) : ℚ) < 2 * exponentWeight * 2 ^ (k - 1074 : Int) := by gcongr
    _ = exponentWeight * (2 * 2 ^ (k - 1074 : Int)) := by ring
    _ ≤ n * 2 ^ (l - 1074 : Int) := by gcongr

theorem value_lt_of_magnitude (h : x.magnitude < y.magnitude) : x.value < y.value := by
  obtain ⟨k, hk, hx, hxlt, hxlow⟩ := x.exists_fields
  obtain ⟨l, hl, hy, hylt, hylow⟩ := y.exists_fields
  rw [value, value, hk, hl]
  simp only [exponentWeight] at *
  rcases Nat.lt_or_ge k l with hkl | hkl
  · exact value_lt_of_scale hxlt (hylow.resolve_left (by omega)) hkl
  · -- with the same scale the significands are compared; a larger one is ruled out
    obtain ⟨rfl, hsig⟩ : k = l ∧ x.significand < y.significand := by omega
    gcongr

theorem value_lt_value_iff : x.value < y.value ↔ x.magnitude < y.magnitude := by
  refine ⟨fun h => ?_, value_lt_of_magnitude⟩
  by_contra hle
  rcases (not_lt.1 hle).eq_or_lt with heq | hlt
  · have hvalue : y.value = x.value := by
      unfold value significand scale exponentField fraction
      rw [heq]
    exact lt_irrefl _ (hvalue ▸ h)
  · exact lt_asymm h (value_lt_of_magnitude hlt)

theorem value_eq_zero_iff : x.value = 0 ↔ x.magnitude = 0 := by
  cases hz : x.isZero with
  | true => exact iff_of_true (value_of_isZero hz) (beq_iff_eq.1 hz)
  | false => exact iff_of_false (value_pos hz).ne' (beq_eq_false_iff_ne.1 hz)

/-! ## The order of numbers -/

/-- The exact value of a finite number. -/
def signedValue (x : Double) : ℚ := if x.isNegative then -x.value else x.value

theorem signedValue_lt_iff : x.signedValue < y.signedValue ↔ x.rank < y.rank := by
  have hx := value_nonneg x
  have hy := value_nonneg y
  have hxz := value_eq_zero_iff (x := x)
  have hyz := value_eq_zero_iff (x := y)
  have hlt := value_lt_value_iff (x := x) (y := y)
  have hgt := value_lt_value_iff (x := y) (y := x)
  unfold signedValue rank
  cases x.isNegative <;> cases y.isNegative <;> simp only [Bool.false_eq_true, if_true, if_false]
  · rw [hlt, Nat.cast_lt]
  · exact iff_of_false (by linarith) (by omega)
  · -- below zero and above are the same only for the two zeros
    rw [← not_iff_not, not_lt, not_lt]
    constructor
    · intro h
      have hxm := hxz.1 (by linarith)
      have hym := hyz.1 (by linarith)
      omega
    · intro h
      rw [hxz.2 (by omega), hyz.2 (by omega), neg_zero]
  · rw [neg_lt_neg_iff, neg_lt_neg_iff, hgt, Nat.cast_lt]

/-- Finite numbers are compared as their values are. -/
theorem lt_iff (hx : x.isFinite = true) (hy : y.isFinite = true) :
    x.lt y = true ↔ x.signedValue < y.signedValue := by
  simp [lt, not_isNaN_of_isFinite hx, not_isNaN_of_isFinite hy, signedValue_lt_iff]

theorem le_iff (hx : x.isFinite = true) (hy : y.isFinite = true) :
    x.le y = true ↔ x.signedValue ≤ y.signedValue := by
  rw [← not_lt, signedValue_lt_iff]
  simp [le, not_isNaN_of_isFinite hx, not_isNaN_of_isFinite hy]

/-! ## The bounds of 64 bits -/

theorem ofInt_minValue : ofInt Int64.minValue.toInt = ⟨0xC3E0000000000000⟩ := by decide +kernel

theorem ofInt_maxValue : ofInt Int64.maxValue.toInt = ⟨0x43E0000000000000⟩ := by decide +kernel

/-- The least integer is a double. -/
theorem signedValue_ofInt_minValue : (ofInt Int64.minValue.toInt).signedValue = -2 ^ 63 := by
  rw [ofInt_minValue, signedValue, if_pos (by decide), value,
    show significand ⟨0xC3E0000000000000⟩ = 2 ^ 52 by decide +kernel,
    show scale ⟨0xC3E0000000000000⟩ = 11 by decide +kernel]
  norm_num

/-- The largest integer is none, and is rounded up. -/
theorem signedValue_ofInt_maxValue : (ofInt Int64.maxValue.toInt).signedValue = 2 ^ 63 := by
  rw [ofInt_maxValue, signedValue, if_neg (by decide), value,
    show significand ⟨0x43E0000000000000⟩ = 2 ^ 52 by decide +kernel,
    show scale ⟨0x43E0000000000000⟩ = 11 by decide +kernel]
  norm_num

theorem inRange_iff (hx : x.isFinite = true) :
    ((ofInt Int64.minValue.toInt).le x && x.lt (ofInt Int64.maxValue.toInt)) = true ↔
      -2 ^ 63 ≤ x.signedValue ∧ x.signedValue < 2 ^ 63 := by
  have hmin : (ofInt Int64.minValue.toInt).isFinite = true := by rw [ofInt_minValue]; decide
  have hmax : (ofInt Int64.maxValue.toInt).isFinite = true := by rw [ofInt_maxValue]; decide
  rw [Bool.and_eq_true, le_iff hmin hx, lt_iff hx hmax, signedValue_ofInt_minValue,
    signedValue_ofInt_maxValue]

/-! ## Integers -/

theorem hasFraction_eq_false_iff : x.hasFraction = false ↔ x.denominator ∣ x.numerator := by
  rw [hasFraction, bne_eq_false_iff_eq, Nat.dvd_iff_mod_eq_zero]

theorem signedValue_eq_truncated (h : x.hasFraction = false) : x.signedValue = x.truncated := by
  have hvalue : x.value = (x.numerator / x.denominator : Nat) := by
    rw [value_eq_div, Nat.cast_div (hasFraction_eq_false_iff.1 h) x.cast_denominator_ne_zero]
  rw [signedValue, truncated, hvalue]
  split <;> push_cast <;> rfl

/-- A number is an integer if it has no fractional part. -/
theorem exists_signedValue_eq_iff : (∃ k : Int, x.signedValue = k) ↔ x.hasFraction = false := by
  refine ⟨?_, fun h => ⟨_, signedValue_eq_truncated h⟩⟩
  rintro ⟨k, hk⟩
  have hvalue : x.value = k.natAbs := by
    rw [Nat.cast_natAbs, Int.cast_abs, ← hk, signedValue]
    split
    · rw [abs_neg, abs_of_nonneg x.value_nonneg]
    · rw [abs_of_nonneg x.value_nonneg]
  rw [value_eq_div, div_eq_iff x.cast_denominator_ne_zero] at hvalue
  exact hasFraction_eq_false_iff.2 ⟨k.natAbs, by rw [mul_comm]; exact_mod_cast hvalue⟩

theorem toInt?_eq (hx : x.isFinite = true) :
    x.toInt? = if x.hasFraction then none else some x.truncated := by
  cases h : x.hasFraction with
  | true => exact if_neg fun hi => by simp [hasFraction, hi.2] at h
  | false => exact if_pos ⟨hx, Nat.mod_eq_zero_of_dvd (hasFraction_eq_false_iff.1 h)⟩

/-- In range, nothing but the fractional part is lost. -/
theorem toInt64_eq (hx : x.isFinite = true) (hmin : Int64.minValue.toInt ≤ x.truncated)
    (hmax : x.truncated ≤ Int64.maxValue.toInt) : x.toInt64 = Int64.ofInt x.truncated := by
  rw [toInt64, if_neg (by simp [not_isNaN_of_isFinite hx]), min_eq_right hmax, max_eq_right hmin]

theorem roundHalfEven_eq_div (h : x.hasFraction = false) :
    roundHalfEven x.numerator x.denominator = x.numerator / x.denominator := by
  have hmod := Nat.mod_eq_zero_of_dvd (hasFraction_eq_false_iff.1 h)
  rw [roundHalfEven, if_pos (.inl (by rw [hmod]; exact x.denominator_pos))]

/-- The text of an integer other than zero without places behind the point is its digits. -/
theorem roundedText_eq (h : x.hasFraction = false) (hz : x.truncated ≠ 0) :
    x.roundedText = String.ofList (Digits.ofInt x.truncated) := by
  rw [roundedText, roundHalfEven_eq_div h, Digits.ofInt]
  unfold truncated at hz ⊢
  generalize x.numerator / x.denominator = n at hz ⊢
  cases x.isNegative with
  | true =>
    have hneg : -(n : Int) < 0 := by simp at hz; omega
    simp only [if_true, if_pos hneg, Int.natAbs_neg, Int.natAbs_natCast, List.singleton_append]
  | false =>
    have hnonneg : ¬ (n : Int) < 0 := by omega
    simp only [Bool.false_eq_true, if_false, if_neg hnonneg, Int.natAbs_natCast, List.nil_append]

end OpenMath.Double
