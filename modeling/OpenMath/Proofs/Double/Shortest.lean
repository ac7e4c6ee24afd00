/-
  The shortest decimal is rounded to the number.

  * `Decimal.value`: the value of a decimal;
  * `nearest_shortest`: the shortest decimal of a number is rounded to it;
  * `exponent_shortest_neg`: that of a number that is no integer has digits behind
    the point.
-/
import Mathlib
import OpenMath.Double.Shortest
import OpenMath.Proofs.Double.Rounding

namespace OpenMath

/-! ## Decimals -/

namespace Decimal

/-- The value of a decimal. -/
def value (d : Decimal) : ℚ := d.digits * 10 ^ d.exponent

theorem value_stripZeros (d : Decimal) : d.stripZeros.value = d.value := by
  fun_induction stripZeros d with
  | case1 d h ih =>
    have hdigits : (d.digits : ℚ) = (d.digits / 10 : Nat) * 10 := by
      exact_mod_cast (Nat.div_mul_cancel (Nat.dvd_of_mod_eq_zero h.2)).symm
    rw [ih, value, value, hdigits, zpow_add_one₀ (by norm_num)]
    ring
  | case2 d h => rfl

end Decimal

namespace Double

variable {x : Double}

/-! ## The candidates -/

theorem readsBack_iff {d : Decimal} :
    x.readsBack d = true ↔ nearest x.isNegative d.value = x := by
  rw [readsBack, beq_iff_eq, ofDecimal_eq, Decimal.value]

/-- A decimal with a given number of digits is taken only if it reads back, and it ends that
    many places behind the first one. -/
theorem of_withDigits? {tie : Decimal.Tie} {digits : Nat} {d : Decimal}
    (h : x.withDigits? tie digits = some d) :
    x.readsBack d = true ∧ d.exponent = x.pointPosition - digits := by
  unfold withDigits? at h
  extract_lets exponent num den low high at h
  have elow : low.exponent = exponent := rfl
  have ehigh : high.exponent = exponent := rfl
  clear_value low high
  split at h
  · cases h
  · next hl _ => exact Option.some.inj h ▸ ⟨hl, elow⟩
  · next _ hh => exact Option.some.inj h ▸ ⟨hh, ehigh⟩
  · next hl hh =>
    split at h
    · exact Option.some.inj h ▸ ⟨hl, elow⟩
    · exact Option.some.inj h ▸ ⟨hh, ehigh⟩
    · exact Option.some.inj h ▸ ⟨hh, ehigh⟩
    · rw [← Option.some.inj h]
      split
      · exact ⟨hl, elow⟩
      · exact ⟨hh, ehigh⟩

theorem value_exactDecimal (x : Double) : x.exactDecimal.value = x.value := by
  rw [exactDecimal, Decimal.value, value, numerator, Nat.pow_eq, Nat.pow_eq]
  rcases le_total 0 x.scale with h | h
  · obtain ⟨k, hk⟩ := Int.eq_ofNat_of_zero_le h
    simp [hk]
  · obtain ⟨k, hk⟩ := Int.eq_ofNat_of_zero_le (Int.neg_nonneg.2 h)
    obtain hk : x.scale = -(k : Int) := by omega
    have hten : (10 : ℚ) ^ (-(k : Int)) = (5 ^ k)⁻¹ * (2 ^ k)⁻¹ := by
      rw [zpow_neg, zpow_natCast, ← mul_inv, ← mul_pow]
      norm_num
    rw [hk, neg_neg, Int.toNat_natCast, Int.toNat_neg_natCast, min_eq_left (by omega), hten,
      zpow_neg, zpow_natCast]
    push_cast
    field_simp

/-- The shortest decimal of a finite number is rounded to the number. -/
theorem nearest_shortest (hx : x.isFinite = true) (tie : Decimal.Tie) :
    nearest x.isNegative (x.shortest tie).value = x := by
  rw [shortest, Decimal.value_stripZeros]
  cases h : (List.range' 1 17).findSome? (x.withDigits? tie) with
  | none => rw [Option.getD_none, value_exactDecimal, nearest_value hx]
  | some d =>
    obtain ⟨n, -, hn⟩ := List.exists_of_findSome?_eq_some h
    exact readsBack_iff.1 (of_withDigits? hn).1

theorem digits_shortest_ne_zero (hx : x.isFinite = true) (hz : x.isZero = false)
    (tie : Decimal.Tie) : (x.shortest tie).digits ≠ 0 := by
  intro h
  have hv := nearest_shortest hx tie
  rw [Decimal.value, h, Nat.cast_zero, zero_mul, nearest, if_pos rfl] at hv
  rw [← hv] at hz
  cases hn : x.isNegative <;> rw [hn] at hz <;> cases hz

/-- The shortest decimal of a number that is no integer has digits behind the
    point. -/
theorem exponent_shortest_neg (hx : x.isFinite = true) (hi : x.toInt? = none) (tie : Decimal.Tie) :
    (x.shortest tie).exponent < 0 := by
  by_contra h
  obtain ⟨k, hk⟩ := Int.eq_ofNat_of_zero_le (not_lt.1 h)
  have hv := nearest_shortest hx tie
  have hnat : (x.shortest tie).value = ((x.shortest tie).digits * 10 ^ k : Nat) := by
    rw [Decimal.value, hk]
    push_cast
    rfl
  rw [hnat] at hv
  obtain ⟨m, hm⟩ := exists_value_nearest_natCast x.isNegative _ (hv.symm ▸ hx)
  rw [hv] at hm
  have := toInt?_isSome hx hm
  rw [hi] at this
  cases this

end Double

end OpenMath
