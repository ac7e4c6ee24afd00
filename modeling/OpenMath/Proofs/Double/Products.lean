/-
  Signs, products and quotients.

  Products and quotients are rounded once: they are nearest to the product and to the quotient
  of the exact values.  The sign plays no part in this but for the sign of the result.

  * `withSign_nearest`, `value_withSign`: the sign is apart from the value;
  * `mul_eq`, `div_eq`: products and quotients in terms of `nearest`;
  * `isFinite_nearest`, `isZero_nearest`: what is rounded to a finite number, and what is not
    rounded to zero;
  * `value_ofInt`: which natural numbers are not rounded.
-/
import Mathlib
import OpenMath.Proofs.Double.Whole

namespace OpenMath.Double

variable {x y : Double} {negative : Bool} {q : ℚ}

/-! ## Signs -/

theorem magnitude_lt (x : Double) : x.magnitude < signWeight := Nat.mod_lt _ (by decide)

theorem magnitude_withSign (negative : Bool) (x : Double) :
    (x.withSign negative).magnitude = x.magnitude :=
  magnitude_ofMagnitude negative x.magnitude_lt

theorem isNegative_withSign (negative : Bool) (x : Double) :
    (x.withSign negative).isNegative = negative := by
  have hlt := x.magnitude_lt
  simp only [signWeight] at hlt
  cases negative <;>
    simp only [withSign, isNegative, ofMagnitude, signWeight, UInt64.toNat_ofNat', if_true,
      Bool.false_eq_true, if_false, decide_eq_true_eq, decide_eq_false_iff_not] <;> omega

theorem isFinite_withSign (negative : Bool) (x : Double) :
    (x.withSign negative).isFinite = x.isFinite := by
  rw [isFinite, magnitude_withSign]
  rfl

/-- The value is that of the bits below the sign. -/
theorem value_withSign (negative : Bool) (x : Double) : (x.withSign negative).value = x.value := by
  unfold value significand scale exponentField fraction
  rw [magnitude_withSign]

/-- The sign is kept in rounding, and has no part in it. -/
theorem withSign_nearest (negative negative' : Bool) (q : ℚ) :
    (nearest negative' q).withSign negative = nearest negative q := by
  have h {bits : Nat} (hb : bits ≤ infinityBits) :
      (ofMagnitude negative' bits).withSign negative = ofMagnitude negative bits := by
    rw [withSign, magnitude_ofMagnitude negative' (hb.trans_lt (by decide))]
  unfold nearest
  split_ifs with hq hbits
  · exact h (Nat.zero_le _)
  · exact h hbits.le
  · exact h le_rfl

theorem isNegative_nearest (negative : Bool) (q : ℚ) : (nearest negative q).isNegative = negative := by
  rw [← withSign_nearest negative negative, isNegative_withSign]

theorem ofInt_eq_nearest (n : Int) : ofInt n = nearest (decide (n < 0)) n.natAbs := by
  rw [ofInt, ofRatio_eq _ _ Nat.one_pos, Nat.cast_one, div_one]

theorem ofInt_natCast (n : Nat) : ofInt n = nearest false n := by
  rw [ofInt_eq_nearest, Int.natAbs_natCast, decide_eq_false (by omega)]

/-! ## Products and quotients -/

theorem mul_eq (x y : Double) :
    x.mul y = nearest (x.isNegative != y.isNegative) (x.value * y.value) := by
  rw [mul, ofRatio_eq _ _ (Nat.mul_pos x.denominator_pos y.denominator_pos), value_eq_div x,
    value_eq_div y, div_mul_div_comm]
  push_cast
  rfl

theorem div_eq (x : Double) (hy : y.isZero = false) :
    x.div y = nearest (x.isNegative != y.isNegative) (x.value / y.value) := by
  have hnum : 0 < y.numerator := by
    have hpos := value_pos hy
    rw [value_eq_div] at hpos
    rcases Nat.eq_zero_or_pos y.numerator with h | h
    · rw [h, Nat.cast_zero, zero_div] at hpos
      exact absurd hpos (lt_irrefl _)
    · exact h
  rw [div, ofRatio_eq _ _ (Nat.mul_pos x.denominator_pos hnum), value_eq_div x, value_eq_div y,
    div_div_div_eq]
  push_cast
  rfl

theorem withSign_mul (negative : Bool) (x : Double) (hy : y.isNegative = false) :
    (x.withSign negative).mul y = (x.mul y).withSign negative := by
  rw [mul_eq, mul_eq, withSign_nearest, isNegative_withSign, value_withSign, hy, Bool.bne_false]

theorem mul_one_of_isFinite (hx : x.isFinite = true) : x.mul (ofInt 1) = x := by
  have hone : (ofInt 1).value = 1 := by
    have hscale : (ofInt 1).scale = -52 := by decide +kernel
    have hsignificand : (ofInt 1).significand = 2 ^ 52 := by decide +kernel
    rw [value, hscale, hsignificand]
    norm_num
  have hsign : (ofInt 1).isNegative = false := by decide +kernel
  rw [mul_eq, hone, hsign, mul_one, Bool.bne_false, nearest_value hx]

/-! ## Numbers that are rounded to finite ones -/

/-- A value that is not among the largest is rounded to a finite number. -/
theorem isFinite_nearest (negative : Bool) (hq : 0 ≤ q) (h : q < 2 ^ (1023 : Int)) :
    (nearest negative q).isFinite = true := by
  rcases hq.eq_or_lt with rfl | hq
  · cases negative <;> rfl
  · have hlog : Int.log 2 q < 1023 :=
      (Int.lt_zpow_iff_log_lt Nat.one_lt_two hq).1 (by exact_mod_cast h)
    have hscale : roundedScale q ≤ 970 := max_le (by omega) (by decide)
    have hsignificand := (roundedSignificand_bounds hq).1
    have hbits : roundedBits q < infinityBits := by
      have : (roundedScale q + 1074).toNat * exponentWeight ≤ 2044 * exponentWeight :=
        Nat.mul_le_mul_right _ (by omega)
      have : 0 < exponentWeight := by decide
      rw [roundedBits, infinityBits]
      omega
    rw [nearest, if_neg hq.ne', if_pos hbits, isFinite,
      magnitude_ofMagnitude negative (hbits.trans (by decide))]
    exact decide_eq_true hbits

/-- A number that is one at least is not rounded to zero. -/
theorem isZero_nearest (negative : Bool) (hq : 1 ≤ q) : (nearest negative q).isZero = false := by
  have hpos : 0 < q := one_pos.trans_le hq
  have hlog : 0 ≤ Int.log 2 q := (Int.zpow_le_iff_le_log Nat.one_lt_two hpos).1 (by simpa using hq)
  have hscale : -52 ≤ roundedScale q := le_max_of_le_left (by omega)
  have hsignificand : exponentWeight ≤ roundedSignificand q :=
    (roundedSignificand_bounds hpos).2.resolve_left (by omega)
  have hbits : 0 < roundedBits q := (by decide : 0 < exponentWeight).trans_le
    (hsignificand.trans (Nat.le_add_left ..))
  rw [nearest, if_neg hpos.ne']
  split
  · next hlt =>
    rw [isZero, magnitude_ofMagnitude negative (hlt.trans (by decide))]
    simpa using hbits.ne'
  · cases negative <;> rfl

theorem value_infinity : (infinity false).value = 2 ^ (1024 : Int) := by
  have hscale : (infinity false).scale = 972 := by decide +kernel
  have hsignificand : (infinity false).significand = 2 ^ 52 := by decide +kernel
  rw [value, hscale, hsignificand, show (1024 : Int) = 52 + 972 from rfl, zpow_add₀ two_ne_zero]
  congr 1

theorem mul_infinity (hx : 1 ≤ x.value) : x.mul (infinity false) = infinity x.isNegative := by
  have hsign : (infinity false).isNegative = false := by decide
  rw [mul_eq, hsign, Bool.bne_false, value_infinity]
  exact nearest_large _ (le_mul_of_one_le_left (by positivity) hx)

theorem isFinite_ofInt {n : Nat} (h : n < UInt64.size) : (ofInt n).isFinite = true := by
  rw [ofInt_natCast]
  refine isFinite_nearest false (Nat.cast_nonneg n) ?_
  have hsize : (n : ℚ) < 2 ^ (64 : Int) := by exact_mod_cast h
  exact hsize.trans (zpow_lt_zpow_right₀ one_lt_two (by decide))

/-- A natural number of at most 53 bits is not rounded. -/
theorem value_ofInt {n : Nat} (h : n < 2 ^ 53) : (ofInt n).value = n := by
  have hfinite := isFinite_ofInt (h.trans (by decide))
  rw [ofInt_natCast] at hfinite ⊢
  rcases Nat.eq_zero_or_pos n with rfl | hn
  · rw [Nat.cast_zero, nearest, if_pos rfl, value_of_isZero rfl]
  · have hlog : Int.log 2 (n : ℚ) < 53 :=
      (Int.lt_zpow_iff_log_lt Nat.one_lt_two (Nat.cast_pos.2 hn)).1 (by exact_mod_cast h)
    exact value_nearest_of_scale false hn (max_le (by omega) (by decide)) hfinite

end OpenMath.Double
