/-
  Rounding depends on the value alone.

  The roundings of quotients and of decimals are one function of the rational
  number that is rounded, and a number is what its own value is rounded to.

  * `Double.value`: the exact value of a finite number, without its sign;
  * `Double.nearest`: the number nearest to a rational number;
  * `ofRatio_eq`, `ofDecimal_eq`: the roundings in terms of it;
  * `nearest_value`: the value of a number is rounded to the number;
  * `value_nearest`: the value of a rounded number.
-/
import Mathlib
import OpenMath.Double.Rounding

namespace OpenMath.Double

variable {x : Double} {negative : Bool} {num den : Nat} {q : ℚ}

/-! ## Powers -/

theorem zpow_eq_div (b : ℚ) (z : Int) : b ^ z = b ^ z.toNat / b ^ (-z).toNat := by
  rcases Int.le_total 0 z with h | h
  · obtain ⟨n, rfl⟩ := Int.eq_ofNat_of_zero_le h
    simp
  · obtain ⟨n, hn⟩ := Int.eq_ofNat_of_zero_le (Int.neg_nonneg.2 h)
    obtain rfl : z = -(n : Int) := by omega
    simp

/-! ## Rounding to an integer -/

/-- The natural number nearest to a rational one, of two equally near the even
    one. -/
def roundEven (q : ℚ) : Nat :=
  if 2 * Int.fract q < 1 ∨ (2 * Int.fract q = 1 ∧ ⌊q⌋₊ % 2 = 0) then ⌊q⌋₊ else ⌊q⌋₊ + 1

theorem roundHalfEven_eq (hd : 0 < den) : roundHalfEven num den = roundEven (num / den) := by
  have hd' : (0 : ℚ) < den := Nat.cast_pos.2 hd
  have hlt : 2 * ((num % den : Nat) / (den : ℚ)) < 1 ↔ 2 * (num % den) < den := by
    rw [← mul_div_assoc, div_lt_one hd']
    exact_mod_cast Iff.rfl
  have heq : 2 * ((num % den : Nat) / (den : ℚ)) = 1 ↔ 2 * (num % den) = den := by
    rw [← mul_div_assoc, div_eq_one_iff_eq hd'.ne']
    exact_mod_cast Iff.rfl
  simp only [roundHalfEven, roundEven, Nat.floor_div_eq_div,
    Int.fract_div_natCast_eq_div_natCast_mod, hlt, heq]

theorem roundEven_natCast (n : Nat) : roundEven n = n := by
  simp [roundEven]

theorem floor_le_roundEven (q : ℚ) : ⌊q⌋₊ ≤ roundEven q := by
  unfold roundEven
  split <;> omega

theorem roundEven_le (q : ℚ) : roundEven q ≤ ⌊q⌋₊ + 1 := by
  unfold roundEven
  split <;> omega

/-! ## The binary logarithm -/

theorem log_eq {k : Int} (hlow : (2 : ℚ) ^ k ≤ q) (hhigh : q < 2 ^ (k + 1)) : Int.log 2 q = k := by
  have hq : 0 < q := lt_of_lt_of_le (by positivity) hlow
  have h1 := (Int.zpow_le_iff_le_log Nat.one_lt_two hq).1 (by exact_mod_cast hlow)
  have h2 := (Int.lt_zpow_iff_log_lt Nat.one_lt_two hq).1 (by exact_mod_cast hhigh)
  omega

theorem zpow_log_le (hq : 0 < q) : (2 : ℚ) ^ Int.log 2 q ≤ q := by
  exact_mod_cast Int.zpow_log_le_self Nat.one_lt_two hq

theorem lt_zpow_log (q : ℚ) : q < 2 ^ (Int.log 2 q + 1) := by
  exact_mod_cast Int.lt_zpow_succ_log_self Nat.one_lt_two q

/-- The exponents of the highest powers of two tell that of a quotient but for
    one. -/
theorem quotient_bounds (hn : 0 < num) (hd : 0 < den) :
    (2 : ℚ) ^ ((num.log2 : Int) - den.log2 - 1) ≤ num / den ∧
      (num / den : ℚ) < 2 ^ ((num.log2 : Int) - den.log2 + 1) := by
  have hlow (m : Nat) (hm : 0 < m) : (2 : ℚ) ^ m.log2 ≤ m := by
    exact_mod_cast Nat.log2_self_le hm.ne'
  have hhigh (m : Nat) : (m : ℚ) < 2 ^ (m.log2 + 1) := by
    exact_mod_cast Nat.lt_log2_self
  have hd' : (0 : ℚ) < den := Nat.cast_pos.2 hd
  constructor
  · have h : (2 : ℚ) ^ ((num.log2 : Int) - den.log2 - 1) = 2 ^ num.log2 / 2 ^ (den.log2 + 1) := by
      rw [sub_sub, zpow_sub₀ two_ne_zero, zpow_natCast]
      norm_cast
    rw [h]
    exact div_le_div₀ (by positivity) (hlow num hn) hd' (hhigh den).le
  · have h : (2 : ℚ) ^ ((num.log2 : Int) - den.log2 + 1) = 2 ^ (num.log2 + 1) / 2 ^ den.log2 := by
      rw [sub_add_eq_add_sub, zpow_sub₀ two_ne_zero, zpow_natCast]
      norm_cast
    rw [h]
    exact div_lt_div₀ (hhigh num) (hlow den hd) (by positivity) (by positivity)

theorem floorLog2_eq (hn : 0 < num) (hd : 0 < den) :
    floorLog2 num den = Int.log 2 (num / den : ℚ) := by
  obtain ⟨hlow, hhigh⟩ := quotient_bounds hn hd
  have hd' : (0 : ℚ) < den := Nat.cast_pos.2 hd
  unfold floorLog2
  generalize (num.log2 : Int) - den.log2 = l at hlow hhigh
  -- the test compares the quotient with a power of two
  have htest : den * Nat.pow 2 l.toNat ≤ num * Nat.pow 2 (-l).toNat ↔ (2 : ℚ) ^ l ≤ num / den := by
    rw [zpow_eq_div, div_le_div_iff₀ (by positivity) hd', Nat.pow_eq, Nat.pow_eq]
    norm_cast
    rw [mul_comm]
  simp only [htest]
  split
  · next h => exact (log_eq h hhigh).symm
  · next h => exact (log_eq hlow (by simpa using h)).symm

/-! ## Rounding to a number -/

/-- The power of two by which the significand of a rounded number is scaled. -/
def roundedScale (q : ℚ) : Int := max (Int.log 2 q - 52) (-1074)

/-- The significand of a rounded number, before it carries into the exponent. -/
def roundedSignificand (q : ℚ) : Nat := roundEven (q / 2 ^ roundedScale q)

/-- The bits of a rounded number, unless it is too large. -/
def roundedBits (q : ℚ) : Nat :=
  (roundedScale q + 1074).toNat * exponentWeight + roundedSignificand q

/-- The number nearest to a rational number. -/
def nearest (negative : Bool) (q : ℚ) : Double :=
  if q = 0 then zero negative
  else if roundedBits q < infinityBits then ofMagnitude negative (roundedBits q)
  else infinity negative

/-- Rounding a quotient depends on its value alone. -/
theorem ofRatio_eq (negative : Bool) (num : Nat) (hd : 0 < den) :
    ofRatio negative num den = nearest negative (num / den) := by
  have hd' : (den : ℚ) ≠ 0 := Nat.cast_ne_zero.2 hd.ne'
  rcases Nat.eq_zero_or_pos num with rfl | hn
  · simp [ofRatio, nearest]
  · have hq : (num / den : ℚ) ≠ 0 := div_ne_zero (Nat.cast_ne_zero.2 hn.ne') hd'
    have hs (z : Int) : roundHalfEven (num * Nat.pow 2 (-z).toNat) (den * Nat.pow 2 z.toNat) =
        roundEven (num / den / 2 ^ z) := by
      rw [Nat.pow_eq, Nat.pow_eq, roundHalfEven_eq (by positivity), zpow_eq_div,
        div_div_eq_mul_div, div_mul_eq_mul_div, div_div]
      push_cast
      rfl
    simp only [ofRatio, if_neg hn.ne', floorLog2_eq hn hd, hs]
    rw [nearest, if_neg hq]
    rfl

/-- The significand has 53 bits, or fewer at the least exponent. -/
theorem roundedSignificand_bounds (hq : 0 < q) :
    roundedSignificand q ≤ 2 * exponentWeight ∧
      (roundedScale q = -1074 ∨ exponentWeight ≤ roundedSignificand q) := by
  have hpos : (0 : ℚ) < 2 ^ roundedScale q := by positivity
  constructor
  · -- the scale is at least the one that leaves 53 bits
    have hlt : q / 2 ^ roundedScale q < 2 ^ (53 : Int) := by
      rw [div_lt_iff₀ hpos, ← zpow_add₀ two_ne_zero]
      refine (lt_zpow_log q).trans_le (zpow_le_zpow_right₀ one_le_two ?_)
      unfold roundedScale
      omega
    have hfloor : ⌊q / 2 ^ roundedScale q⌋₊ < 2 ^ 53 := by
      refine (Nat.floor_lt (by positivity)).2 ?_
      exact_mod_cast hlt
    have := roundEven_le (q / 2 ^ roundedScale q)
    rw [roundedSignificand, show exponentWeight = 2 ^ 52 from rfl]
    omega
  · rcases le_total (Int.log 2 q - 52) (-1074) with h | h
    · exact .inl (max_eq_right h)
    · right
      have hscale : roundedScale q = Int.log 2 q - 52 := max_eq_left h
      have hle : (2 : ℚ) ^ (52 : Int) ≤ q / 2 ^ roundedScale q := by
        rw [le_div_iff₀ hpos, ← zpow_add₀ two_ne_zero, hscale, add_sub_cancel]
        exact zpow_log_le hq
      have hfloor : exponentWeight ≤ ⌊q / 2 ^ roundedScale q⌋₊ := by
        refine Nat.le_floor ?_
        exact_mod_cast hle
      exact hfloor.trans (floor_le_roundEven _)

/-! ## Decimals -/

theorem roundEven_eq_zero (hq : 0 ≤ q) (h : q < 1 / 2) : roundEven q = 0 := by
  have hfloor : ⌊q⌋₊ = 0 := Nat.floor_eq_zero.2 (by linarith)
  have hfract : Int.fract q = q := Int.fract_eq_self.2 ⟨hq, by linarith⟩
  rw [roundEven, hfloor, hfract, if_pos (.inl (by linarith))]

/-- A value below half of the least number is rounded to zero. -/
theorem nearest_small (negative : Bool) (hq : 0 ≤ q) (h : q < 2 ^ (-1075 : Int)) :
    nearest negative q = zero negative := by
  rcases hq.eq_or_lt with rfl | hq
  · rw [nearest, if_pos rfl]
  · have hlog : Int.log 2 q < -1075 :=
      (Int.lt_zpow_iff_log_lt Nat.one_lt_two hq).1 (by exact_mod_cast h)
    have hscale : roundedScale q = -1074 := max_eq_right (by omega)
    have hsignificand : roundedSignificand q = 0 := by
      rw [roundedSignificand, hscale]
      refine roundEven_eq_zero (by positivity) ?_
      rw [div_lt_iff₀ (by positivity), one_div, ← zpow_neg_one, ← zpow_add₀ two_ne_zero]
      exact h
    have hbits : roundedBits q = 0 := by
      rw [roundedBits, hsignificand, hscale]
      rfl
    rw [nearest, if_neg hq.ne', hbits, if_pos (by decide)]
    rfl

/-- A value beyond the largest number is rounded to the infinity. -/
theorem nearest_large (negative : Bool) (h : 2 ^ (1024 : Int) ≤ q) :
    nearest negative q = infinity negative := by
  have hq : 0 < q := lt_of_lt_of_le (by positivity) h
  have hlog : 1024 ≤ Int.log 2 q :=
    (Int.zpow_le_iff_le_log Nat.one_lt_two hq).1 (by exact_mod_cast h)
  have hscale : 972 ≤ roundedScale q := le_max_of_le_left (by omega)
  have hsignificand : exponentWeight ≤ roundedSignificand q :=
    (roundedSignificand_bounds hq).2.resolve_left (by omega)
  have hbits : infinityBits ≤ roundedBits q := by
    have : 2046 * exponentWeight ≤ (roundedScale q + 1074).toNat * exponentWeight :=
      Nat.mul_le_mul_right _ (by omega)
    rw [roundedBits, infinityBits]
    omega
  rw [nearest, if_neg hq.ne', if_neg (by omega)]

/-- Rounding a decimal depends on its value alone; where no rounding is made, it
    would give the same. -/
theorem ofDecimal_eq (negative : Bool) (digits : Nat) (exponent : Int) :
    ofDecimal negative digits exponent = nearest negative (digits * 10 ^ exponent) := by
  unfold ofDecimal
  split_ifs with hs hl
  · rcases hs with rfl | hs
    · simp [nearest]
    · refine (nearest_small negative (by positivity) ?_).symm
      have hdigits : (digits : ℚ) < 10 ^ (digits.log2 + 1 : Int) := by
        calc (digits : ℚ) < 2 ^ (digits.log2 + 1) := by exact_mod_cast Nat.lt_log2_self
          _ ≤ 10 ^ (digits.log2 + 1) := by gcongr; norm_num
          _ = 10 ^ (digits.log2 + 1 : Int) := by norm_cast
      calc (digits * 10 ^ exponent : ℚ) < 10 ^ (digits.log2 + 1 : Int) * 10 ^ exponent := by gcongr
        _ = 10 ^ (digits.log2 + 1 + exponent : Int) := (zpow_add₀ (by norm_num) ..).symm
        _ ≤ 10 ^ (-331 : Int) := zpow_le_zpow_right₀ (by norm_num) (by omega)
        _ < 2 ^ (-1075 : Int) := by
          rw [zpow_neg, zpow_neg, inv_lt_inv₀ (by positivity) (by positivity)]
          exact_mod_cast (by decide +kernel : 2 ^ 1075 < 10 ^ 331)
  · refine (nearest_large negative ?_).symm
    have hdigits : (1 : ℚ) ≤ digits := by
      exact_mod_cast Nat.one_le_iff_ne_zero.2 fun h => hs (.inl h)
    calc (2 ^ (1024 : Int) : ℚ) ≤ 10 ^ (311 : Int) := by
          exact_mod_cast (by decide +kernel : 2 ^ 1024 ≤ 10 ^ 311)
      _ ≤ 10 ^ exponent := zpow_le_zpow_right₀ (by norm_num) (by omega)
      _ ≤ digits * 10 ^ exponent := le_mul_of_one_le_left (by positivity) hdigits
  · rw [Nat.pow_eq, Nat.pow_eq, ofRatio_eq _ _ (by positivity), zpow_eq_div, ← mul_div_assoc]
    push_cast
    rfl

/-! ## Values -/

/-- The exact value of a finite number, without its sign. -/
def value (x : Double) : ℚ := x.significand * 2 ^ x.scale

section
variable {bits : Nat}

theorem magnitude_ofMagnitude (negative : Bool) (h : bits < signWeight) :
    (ofMagnitude negative bits).magnitude = bits := by
  simp only [signWeight] at h
  cases negative <;>
    simp only [magnitude, ofMagnitude, signWeight, UInt64.toNat_ofNat', if_true, Bool.false_eq_true,
      if_false] <;> omega

end

theorem ofMagnitude_magnitude (x : Double) : ofMagnitude x.isNegative x.magnitude = x := by
  have hb := x.bits.toNat_lt
  have hbits : x.magnitude + (if x.isNegative then signWeight else 0) = x.bits.toNat := by
    by_cases h : signWeight ≤ x.bits.toNat <;> simp only [magnitude, isNegative, h] <;>
      simp only [signWeight] at h ⊢ <;> simp <;> omega
  rw [ofMagnitude, hbits, UInt64.ofNat_toNat]

/-- The fields of a number: the least exponent goes with any fraction, any other
    with a leading one. -/
theorem exists_fields (x : Double) :
    ∃ k : Nat, x.scale = k - 1074 ∧ k * exponentWeight + x.significand = x.magnitude ∧
      x.significand < 2 * exponentWeight ∧ (k = 0 ∨ exponentWeight ≤ x.significand) := by
  unfold scale significand
  split
  · next h =>
    refine ⟨0, rfl, ?_, ?_, .inl rfl⟩ <;> simp only [fraction, exponentField, exponentWeight] at * <;>
      omega
  · next h =>
    refine ⟨x.exponentField - 1, ?_, ?_, ?_, .inr ?_⟩ <;>
      simp only [fraction, exponentField, exponentWeight] at * <;> omega

/-- The value of a number whose significand may have carried into the exponent. -/
theorem value_ofMagnitude (negative : Bool) {k m : Nat} (hm : m ≤ 2 * exponentWeight)
    (hk : k = 0 ∨ exponentWeight ≤ m) (h : k * exponentWeight + m < infinityBits) :
    (ofMagnitude negative (k * exponentWeight + m)).value = m * 2 ^ (k - 1074 : Int) := by
  have hmag := magnitude_ofMagnitude negative (h.trans (by decide))
  obtain ⟨k', hscale, hbits, hlt, hk'⟩ := exists_fields (ofMagnitude negative (k * exponentWeight + m))
  rw [hmag] at hbits
  rw [value, hscale]
  generalize (ofMagnitude negative (k * exponentWeight + m)).significand = m' at *
  simp only [exponentWeight, infinityBits] at *
  -- the fields are the given ones, unless the significand is a power of two
  by_cases hcarry : m = 9007199254740992
  · obtain ⟨rfl, rfl⟩ : k' = k + 1 ∧ m' = 4503599627370496 := by omega
    rw [hcarry, Nat.cast_add, Nat.cast_one, add_sub_right_comm, zpow_add_one₀ two_ne_zero]
    norm_num
    ring
  · obtain ⟨rfl, rfl⟩ : k' = k ∧ m' = m := by omega
    rfl

/-! ## Exact values -/

theorem value_pos (hx : x.isZero = false) : 0 < x.value := by
  obtain ⟨k, -, hbits, -, hk⟩ := x.exists_fields
  have hm : 0 < x.significand := by
    simp only [isZero, beq_eq_false_iff_ne, exponentWeight] at *
    omega
  exact mul_pos (Nat.cast_pos.2 hm) (by positivity)

theorem value_of_isZero (hx : x.isZero = true) : x.value = 0 := by
  obtain ⟨k, -, hbits, -, -⟩ := x.exists_fields
  have hm : x.significand = 0 := by
    simp only [isZero, beq_iff_eq] at hx
    omega
  rw [value, hm, Nat.cast_zero, zero_mul]

/-- The value of a finite number is rounded to the number. -/
theorem nearest_value (hx : x.isFinite = true) : nearest x.isNegative x.value = x := by
  rcases hz : x.isZero with _ | _
  · have hpos := value_pos hz
    obtain ⟨k, hscale, hbits, hlt, hk⟩ := x.exists_fields
    have hlow : Int.log 2 x.value < 53 + x.scale := by
      refine (Int.lt_zpow_iff_log_lt Nat.one_lt_two hpos).1 ?_
      push_cast
      rw [value, zpow_add₀ two_ne_zero]
      refine mul_lt_mul_of_pos_right ?_ (by positivity)
      exact_mod_cast hlt
    have hround : roundedScale x.value = x.scale := by
      rw [roundedScale]
      rcases hk with rfl | hm
      · omega
      · have hhigh : 52 + x.scale ≤ Int.log 2 x.value := by
          refine (Int.zpow_le_iff_le_log Nat.one_lt_two hpos).1 ?_
          push_cast
          rw [value, zpow_add₀ two_ne_zero]
          refine mul_le_mul_of_nonneg_right ?_ (by positivity)
          exact_mod_cast hm
        omega
    have hsignificand : roundedSignificand x.value = x.significand := by
      rw [roundedSignificand, hround, value, mul_div_cancel_right₀ _ (by positivity),
        roundEven_natCast]
    have hmag : roundedBits x.value = x.magnitude := by
      rw [roundedBits, hsignificand, hround, hscale, ← hbits]
      simp
    rw [nearest, if_neg hpos.ne', hmag, if_pos (by simpa [isFinite] using hx), ofMagnitude_magnitude]
  · have hmag : x.magnitude = 0 := by simpa [isZero] using hz
    rw [value_of_isZero hz, nearest, if_pos rfl, zero, ← hmag, ofMagnitude_magnitude]

/-- The value of a number that a positive value is rounded to. -/
theorem value_nearest (negative : Bool) (hq : 0 < q) (h : (nearest negative q).isFinite = true) :
    (nearest negative q).value = roundedSignificand q * 2 ^ roundedScale q := by
  rw [nearest, if_neg hq.ne'] at h ⊢
  split at h
  · next hlt =>
    obtain ⟨hm, hk⟩ := roundedSignificand_bounds hq
    have hscale : -1074 ≤ roundedScale q := le_max_right ..
    rw [if_pos hlt, roundedBits, value_ofMagnitude negative hm (by omega) hlt]
    congr 2
    omega
  · cases negative <;> cases h

theorem value_nearest_of_scale (negative : Bool) {n : Nat} (hn : 0 < n)
    (hs : roundedScale (n : ℚ) ≤ 0) (h : (nearest negative n).isFinite = true) :
    (nearest negative n).value = n := by
  obtain ⟨k, hk⟩ := Int.eq_ofNat_of_zero_le (Int.neg_nonneg.2 hs)
  have hscaled : (n : ℚ) / 2 ^ roundedScale (n : ℚ) = (n * 2 ^ k : Nat) := by
    rw [div_eq_mul_inv, ← zpow_neg, hk]
    push_cast
    rfl
  rw [value_nearest negative (Nat.cast_pos.2 hn) h, roundedSignificand, hscaled, roundEven_natCast,
    ← hscaled, div_mul_cancel₀ _ (by positivity)]

theorem exists_value_nearest_natCast (negative : Bool) (n : Nat)
    (h : (nearest negative n).isFinite = true) : ∃ m : Nat, (nearest negative n).value = m := by
  rcases Nat.eq_zero_or_pos n with rfl | hn
  · exact ⟨0, by simp [nearest, value_of_isZero (x := zero negative) (by cases negative <;> rfl)]⟩
  · rcases le_total 0 (roundedScale n) with hs | hs
    · rw [value_nearest negative (Nat.cast_pos.2 hn) h]
      obtain ⟨k, hk⟩ := Int.eq_ofNat_of_zero_le hs
      exact ⟨roundedSignificand n * 2 ^ k, by rw [hk]; push_cast; rfl⟩
    · exact ⟨n, value_nearest_of_scale negative hn hs h⟩

theorem denominator_pos (x : Double) : 0 < x.denominator := by
  simp [denominator]

theorem cast_denominator_ne_zero (x : Double) : (x.denominator : ℚ) ≠ 0 :=
  Nat.cast_ne_zero.2 x.denominator_pos.ne'

theorem value_eq_div (x : Double) : x.value = x.numerator / x.denominator := by
  rw [value, numerator, denominator, Nat.pow_eq, Nat.pow_eq, zpow_eq_div, mul_div_assoc']
  push_cast
  rfl

theorem toInt?_isSome (hx : x.isFinite = true) {m : Nat} (h : x.value = m) : x.toInt?.isSome = true := by
  rw [value_eq_div, div_eq_iff x.cast_denominator_ne_zero] at h
  have hmul : x.numerator = m * x.denominator := by exact_mod_cast h
  rw [toInt?, if_pos ⟨hx, by rw [hmul, Nat.mul_mod_left]⟩]
  rfl

end OpenMath.Double
