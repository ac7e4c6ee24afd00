/-
  Rounding exact values to double precision: to the nearest number, a tie to
  the one with an even significand, a value too large to the infinity.

  * `roundHalfEven n d`: the integer nearest to `n / d`;
  * `ofRatio`: the number nearest to a quotient of natural numbers;
  * `ofDecimal`: the number nearest to `digits · 10 ^ exponent`;
  * `mul`, `div`: the numbers nearest to a product and to a quotient.
-/
import OpenMath.Double.Basic

namespace OpenMath.Double

/-- The integer nearest to `num / den`, of two equally near the even one. -/
def roundHalfEven (num den : Nat) : Nat :=
  let q := num / den
  let r := num % den
  if 2 * r < den ∨ (2 * r = den ∧ q % 2 = 0) then q else q + 1

/-- The exponent of the highest power of two that is at most `num / den`. -/
def floorLog2 (num den : Nat) : Int :=
  let l : Int := (num.log2 : Int) - den.log2
  if den * Nat.pow 2 l.toNat ≤ num * Nat.pow 2 (-l).toNat then l else l - 1

/-- The number nearest to `num / den`.  The significand is the quotient by the
    power of two that leaves it 53 bits, or fewer below the least exponent; one
    that rounds up to 54 bits carries into the exponent bits. -/
def ofRatio (negative : Bool) (num den : Nat) : Double :=
  if num = 0 then zero negative
  else
    let scale := max (floorLog2 num den - 52) (-1074)
    let significand :=
      roundHalfEven (num * Nat.pow 2 (-scale).toNat) (den * Nat.pow 2 scale.toNat)
    let bits := (scale + 1074).toNat * exponentWeight + significand
    if bits < infinityBits then ofMagnitude negative bits else infinity negative

/-- The number nearest to an integer. -/
def ofInt (n : Int) : Double := ofRatio (n < 0) n.natAbs 1

/-- The number nearest to `digits · 10 ^ exponent`.  Above `10 ^ 310` every
    positive value rounds to the infinity, and below `10 ^ (-330)` to zero, so
    that no power of ten is larger than the digits call for. -/
def ofDecimal (negative : Bool) (digits : Nat) (exponent : Int) : Double :=
  if digits = 0 ∨ exponent + digits.log2 + 1 < -330 then zero negative
  else if 310 < exponent then infinity negative
  else ofRatio negative (digits * Nat.pow 10 exponent.toNat) (Nat.pow 10 (-exponent).toNat)

/-- The number nearest to the product of two finite numbers. -/
def mul (x y : Double) : Double :=
  ofRatio (x.isNegative != y.isNegative) (x.numerator * y.numerator) (x.denominator * y.denominator)

/-- The number nearest to the quotient of two finite numbers, of which the second is not
    zero. -/
def div (x y : Double) : Double :=
  ofRatio (x.isNegative != y.isNegative) (x.numerator * y.denominator) (x.denominator * y.numerator)

end OpenMath.Double
