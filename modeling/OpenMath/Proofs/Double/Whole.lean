/-
  A number that is an integer is written without a point.

  The digits in front of the point of such a number write it exactly.  No decimal is tried
  that has more digits before these are, so that the shortest one has none behind the point.

  * `Decimal.exponent_stripZeros_nonneg`: a decimal that is a positive integer, without the
    zeros at its end;
  * `pointPosition_pos`: an integer other than zero has digits in front of its point;
  * `exponent_shortest_nonneg`: the shortest decimal of such an integer.
-/
import Mathlib
import OpenMath.Proofs.Double.Shortest

namespace OpenMath

/-! ## Taking off zeros -/

namespace Decimal

theorem exponent_le_stripZeros (d : Decimal) : d.exponent ≤ d.stripZeros.exponent := by
  fun_induction stripZeros d with
  | case1 d h ih => exact (Int.le_add_one le_rfl).trans ih
  | case2 d h => exact le_rfl

theorem mod_digits_stripZeros {d : Decimal} (h : d.stripZeros.digits ≠ 0) :
    d.stripZeros.digits % 10 ≠ 0 := by
  fun_induction stripZeros d with
  | case1 d _ ih => exact ih h
  | case2 d hd => exact fun hm => hd ⟨h, hm⟩

/-- A decimal that is a positive integer has no digits behind the point once the zeros at
    its end are taken off. -/
theorem exponent_stripZeros_nonneg {d : Decimal} {m : Nat} (hm : m ≠ 0) (h : d.value = m) :
    0 ≤ d.stripZeros.exponent := by
  rw [← value_stripZeros, value] at h
  have hmod := mod_digits_stripZeros (d := d)
  generalize d.stripZeros = s at h hmod
  by_contra hneg
  obtain ⟨k, hk⟩ : ∃ k : Nat, s.exponent = -(k + 1 : Nat) := ⟨(-s.exponent - 1).toNat, by omega⟩
  have hdigits : s.digits = m * 10 ^ (k + 1) := by
    rw [hk, zpow_neg, zpow_natCast, ← div_eq_mul_inv, div_eq_iff (by positivity)] at h
    exact_mod_cast h
  refine hmod ?_ ?_
  · rw [hdigits]
    positivity
  · rw [hdigits, pow_succ, ← mul_assoc, Nat.mul_mod_left]

end Decimal

namespace Double

variable {x : Double} {m : Nat}

/-! ## Where the point stands -/

theorem isFinite_of_toInt? (h : x.toInt?.isSome = true) : x.isFinite = true := by
  unfold toInt? at h
  split at h
  · next hx => exact hx.1
  · cases h

theorem exists_value_eq_natCast (h : x.toInt?.isSome = true) : ∃ m : Nat, x.value = m := by
  unfold toInt? at h
  split at h
  · next hx =>
    obtain ⟨m, hm⟩ := Nat.dvd_of_mod_eq_zero hx.2
    refine ⟨m, ?_⟩
    rw [value_eq_div, div_eq_iff x.cast_denominator_ne_zero, hm, mul_comm]
    push_cast
    rfl
  · cases h

theorem lt_pow_ten_iff {num den : Nat} (hd : 0 < den) (k : Int) :
    num * Nat.pow 10 (-k).toNat < den * Nat.pow 10 k.toNat ↔ (num / den : ℚ) < 10 ^ k := by
  have hd' : (0 : ℚ) < den := Nat.cast_pos.2 hd
  rw [zpow_eq_div, div_lt_div_iff₀ hd' (by positivity), Nat.pow_eq, Nat.pow_eq, mul_comm _ (den : ℚ)]
  norm_cast

/-- An integer other than zero has digits in front of its point. -/
theorem pointPosition_pos (hm : m ≠ 0) (h : x.value = m) : 0 < x.pointPosition := by
  have hden : 0 < x.denominator := x.denominator_pos
  have hquot : (x.numerator / x.denominator : ℚ) = m := (value_eq_div x).symm.trans h
  have hone : (1 : ℚ) ≤ m := by exact_mod_cast Nat.one_le_iff_ne_zero.2 hm
  have hnum : 0 < x.numerator := by
    refine Nat.pos_of_ne_zero fun hz => ?_
    rw [hz, Nat.cast_zero, zero_div] at hquot
    linarith
  have hlog : 0 ≤ Int.log 2 (m : ℚ) :=
    (Int.zpow_le_iff_le_log Nat.one_lt_two (by linarith)).1 (by simpa using hone)
  rw [pointPosition, floorLog2_eq hnum hden, hquot, decimalPoint, Int.fdiv_eq_ediv_of_nonneg _ (by decide)]
  simp only [lt_pow_ten_iff hden, hquot]
  generalize hfirst : Int.log 2 (m : ℚ) * 30103 / 100000 - 1 = first
  cases hk : ([0, 1, 2, 3, 4].map (first + ·)).find? fun k => decide ((m : ℚ) < 10 ^ k) with
  | some k =>
    -- only a positive power of ten is above a positive integer
    have hlt : (m : ℚ) < 10 ^ k := by simpa using List.find?_some hk
    by_contra hle
    have : (10 : ℚ) ^ k ≤ 1 := zpow_le_one_of_nonpos₀ (by norm_num) (not_lt.1 hle)
    linarith
  | none =>
    -- none of the powers is above the integer, which therefore has more digits than two
    show 0 < first
    by_contra hle
    have hsmall : (m : ℚ) < 2 ^ (7 : Int) := by
      have := (Int.lt_zpow_iff_log_lt Nat.one_lt_two (x := 7) (r := (m : ℚ)) (by linarith)).2 (by omega)
      exact_mod_cast this
    have hall := List.find?_eq_none.1 hk (first + 4) (by simp)
    have hpow : (2 : ℚ) ^ (7 : Int) ≤ 10 ^ (first + 4) :=
      calc (2 : ℚ) ^ (7 : Int) ≤ 10 ^ (3 : Int) := by norm_num
        _ ≤ 10 ^ (first + 4) := zpow_le_zpow_right₀ (by norm_num) (by omega)
    exact hall (by simpa using hsmall.trans_le hpow)

/-! ## The shortest decimal -/

/-- With all digits that it has in front of its point, an integer is written exactly. -/
theorem isSome_withDigits? (hx : x.isFinite = true) (h : x.value = m) (tie : Decimal.Tie) {n : Nat}
    (hn : x.pointPosition = n) : (x.withDigits? tie n).isSome = true := by
  have hden : 0 < x.denominator := x.denominator_pos
  have hquot : x.numerator / x.denominator = m := by
    rw [value_eq_div, div_eq_iff (by positivity)] at h
    have hmul : x.numerator = m * x.denominator := by exact_mod_cast h
    rw [hmul, Nat.mul_div_cancel _ hden]
  have hback : x.readsBack ⟨m, 0⟩ = true := by
    rw [readsBack_iff, Decimal.value, zpow_zero, mul_one, ← h, nearest_value hx]
  unfold withDigits?
  extract_lets exponent num den low high
  have hlow : low = ⟨m, 0⟩ := by
    simp only [low, num, den, exponent, hn, sub_self, neg_zero, Int.toNat_zero, Nat.pow_eq, pow_zero,
      mul_one, hquot]
  rw [← hlow] at hback
  clear_value num den low high
  rw [hback]
  split
  · next h _ => cases h
  · rfl
  · next h _ => cases h
  · split <;> rfl

/-- The shortest decimal of an integer other than zero has no digits behind the point. -/
theorem exponent_shortest_nonneg (hi : x.toInt?.isSome = true) (hz : x.isZero = false)
    (tie : Decimal.Tie) : 0 ≤ (x.shortest tie).exponent := by
  obtain ⟨m, hm⟩ := exists_value_eq_natCast hi
  have hm0 : m ≠ 0 := by
    rintro rfl
    exact (value_pos hz).ne' (by rw [hm, Nat.cast_zero])
  rw [shortest]
  cases hf : (List.range' 1 17).findSome? (x.withDigits? tie) with
  | none => exact Decimal.exponent_stripZeros_nonneg hm0 ((value_exactDecimal x).trans hm)
  | some d =>
    obtain ⟨before, n, after, hl, hd, hnone⟩ := List.findSome?_eq_some_iff.1 hf
    refine le_trans ?_ d.exponent_le_stripZeros
    rw [(of_withDigits? hd).2, sub_nonneg]
    by_contra hlt
    -- the exact decimal was tried before
    obtain ⟨p, hp⟩ := Int.eq_ofNat_of_zero_le (pointPosition_pos hm0 hm).le
    have hpos := pointPosition_pos hm0 hm
    have hn : n ∈ List.range' 1 17 := hl ▸ List.mem_append_right _ (List.mem_cons_self ..)
    have hsorted : (before ++ n :: after).Pairwise (· < ·) := hl ▸ List.pairwise_lt_range'
    rw [List.pairwise_append, List.pairwise_cons] at hsorted
    have hmem : p ∈ before ++ n :: after := by
      rw [← hl, List.mem_range'_1] at *
      omega
    rw [List.mem_append, List.mem_cons] at hmem
    rcases hmem with hmem | rfl | hmem
    · have := isSome_withDigits? (isFinite_of_toInt? hi) hm tie hp
      rw [hnone p hmem] at this
      cases this
    · omega
    · have := hsorted.2.1.1 p hmem
      omega

end Double

end OpenMath
