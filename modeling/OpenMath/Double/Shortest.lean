/-
  The shortest decimal that reads back.

  A finite positive value has decimals of one digit, of two digits and so on
  that are nearest to it from below and from above.  The shortest decimal is
  the first of these that rounds to the value again, of two with the same
  number of digits the nearer, and of two equally near the one that the tie
  rule picks.

  * `Decimal`: a natural number scaled by a power of ten;
  * `shortest`: the shortest decimal of a finite number, without its sign.
-/
import OpenMath.Double.Rounding

namespace OpenMath

/-- The value `digits · 10 ^ exponent`. -/
structure Decimal where
  digits : Nat
  exponent : Int
deriving DecidableEq

namespace Decimal

/-- The same value without trailing zeros in the digits. -/
def stripZeros (d : Decimal) : Decimal :=
  if _h : d.digits ≠ 0 ∧ d.digits % 10 = 0 then stripZeros ⟨d.digits / 10, d.exponent + 1⟩ else d
termination_by d.digits

/-- Which of two equally near neighbours is taken. -/
inductive Tie where
  /-- the one with an even last digit -/
  | toEven
  /-- the one above -/
  | up

end Decimal

namespace Double

/-- The least `k` from `first` on, within five steps, with `num / den < 10 ^ k`. -/
def decimalPoint (num den : Nat) (first : Int) : Int :=
  let above := fun k : Int => decide (num * Nat.pow 10 (-k).toNat < den * Nat.pow 10 k.toNat)
  (([0, 1, 2, 3, 4].map (first + ·)).find? above).getD first

/-- How many digits the value of a finite number other than zero has before the
    decimal point; zero or negative if it starts behind the point.  The binary
    logarithm fixes it up to a few steps. -/
def pointPosition (x : Double) : Int :=
  decimalPoint x.numerator x.denominator
    ((floorLog2 x.numerator x.denominator * 30103).fdiv 100000 - 1)

/-- Whether a decimal, taken with the sign of the number, rounds to it. -/
def readsBack (x : Double) (d : Decimal) : Bool :=
  ofDecimal x.isNegative d.digits d.exponent == x

/-- The decimal with `digits` digits that reads back, if there is one. -/
def withDigits? (x : Double) (tie : Decimal.Tie) (digits : Nat) : Option Decimal :=
  let exponent := x.pointPosition - digits
  let num := x.numerator * Nat.pow 10 (-exponent).toNat
  let den := x.denominator * Nat.pow 10 exponent.toNat
  let low : Decimal := ⟨num / den, exponent⟩
  let high : Decimal := ⟨num / den + 1, exponent⟩
  match x.readsBack low, x.readsBack high with
  | false, false => none
  | true, false => some low
  | false, true => some high
  | true, true =>
    match compare (2 * (num % den)) den, tie with
    | .lt, _ => some low
    | .gt, _ => some high
    | .eq, .up => some high
    | .eq, .toEven => some (if low.digits % 2 = 0 then low else high)

/-- The decimal that is exactly the value of a finite number. -/
def exactDecimal (x : Double) : Decimal :=
  ⟨x.numerator * Nat.pow 5 (-x.scale).toNat, min x.scale 0⟩

/-- The shortest decimal that reads back as the number, without its sign and
    without trailing zeros.  Seventeen digits are known to suffice; the exact
    value stands behind them. -/
def shortest (x : Double) (tie : Decimal.Tie) : Decimal :=
  ((List.range' 1 17).findSome? (x.withDigits? tie)).getD x.exactDecimal |>.stripZeros

end Double

end OpenMath
