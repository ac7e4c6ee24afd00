/-
  Double-precision numbers, as the 64 bits that hold them.

  The bits are a sign, eleven bits of exponent and 52 bits of fraction.  A
  finite number is `± significand · 2 ^ scale`; what is decided about it here
  is decided in exact integer arithmetic.

  * `significand`, `scale`: the exact value of a finite number;
  * `numericEq`, `lt`, `le`: equality and order as numbers, where the two zeros agree
    and NaN agrees with nothing;
  * `toInt?`: the integer that a number is, if it is one;
  * `toInt64`: the 64-bit integer of a number, the nearest one if it is out of range.
-/

namespace OpenMath

/-- A double-precision number. -/
structure Double where
  /-- Sign, exponent and fraction, from the highest bit down. -/
  bits : UInt64
deriving DecidableEq, Inhabited

namespace Double

/-! ## The parts of a number -/

/-- The weight of the sign bit. -/
def signWeight : Nat := 0x8000000000000000

/-- The weight of the lowest exponent bit. -/
def exponentWeight : Nat := 0x10000000000000

/-- The bits of the positive infinity. -/
def infinityBits : Nat := 0x7FF * exponentWeight

/-- Whether the sign bit is set. -/
def isNegative (x : Double) : Bool := signWeight ≤ x.bits.toNat

/-- The bits without the sign. -/
def magnitude (x : Double) : Nat := x.bits.toNat % signWeight

/-- The number with a given sign and given bits below the sign. -/
def ofMagnitude (negative : Bool) (bits : Nat) : Double :=
  ⟨UInt64.ofNat (bits + if negative then signWeight else 0)⟩

/-- The number with the same bits below the sign. -/
def withSign (negative : Bool) (x : Double) : Double := ofMagnitude negative x.magnitude

/-- One of the two zeros. -/
def zero (negative : Bool) : Double := ofMagnitude negative 0

/-- One of the two infinities. -/
def infinity (negative : Bool) : Double := ofMagnitude negative infinityBits

/-- The number that is none. -/
def nan : Double := ofMagnitude false (infinityBits + exponentWeight / 2)

/-! ## Classes of numbers -/

/-- Neither an infinity nor NaN. -/
def isFinite (x : Double) : Bool := x.magnitude < infinityBits

/-- Not a number. -/
def isNaN (x : Double) : Bool := infinityBits < x.magnitude

theorem not_isNaN_of_isFinite {x : Double} (h : x.isFinite = true) : x.isNaN = false := by
  simp only [isFinite, isNaN, decide_eq_true_eq, decide_eq_false_iff_not] at h ⊢
  omega

/-- Plus or minus zero. -/
def isZero (x : Double) : Bool := x.magnitude == 0

/-- Equality as numbers: the two zeros are equal, NaN equals nothing. -/
def numericEq (x y : Double) : Bool :=
  !x.isNaN && !y.isNaN && (x.bits == y.bits || (x.isZero && y.isZero))

/-- What orders the numbers: the bits below the sign, with the sign.  Both zeros
    have the same rank. -/
def rank (x : Double) : Int := if x.isNegative then -(x.magnitude : Int) else x.magnitude

/-- Less as a number; NaN is in no order with anything. -/
def lt (x y : Double) : Bool := !x.isNaN && !y.isNaN && decide (x.rank < y.rank)

/-- Less or equal as a number. -/
def le (x y : Double) : Bool := !x.isNaN && !y.isNaN && decide (x.rank ≤ y.rank)

/-! ## The exact value of a finite number -/

/-- The exponent bits. -/
def exponentField (x : Double) : Nat := x.magnitude / exponentWeight

/-- The bits below the exponent. -/
def fraction (x : Double) : Nat := x.magnitude % exponentWeight

/-- The significand: the fraction, below a leading one unless the exponent
    bits are all zero. -/
def significand (x : Double) : Nat :=
  if x.exponentField = 0 then x.fraction else exponentWeight + x.fraction

/-- The power of two that the significand is scaled by. -/
def scale (x : Double) : Int :=
  if x.exponentField = 0 then -1074 else (x.exponentField : Int) - 1075

/-- The value of a finite number times the denominator `2 ^ (-scale)`, without
    its sign. -/
def numerator (x : Double) : Nat := x.significand * Nat.pow 2 x.scale.toNat

/-- The denominator of the value of a finite number. -/
def denominator (x : Double) : Nat := Nat.pow 2 (-x.scale).toNat

/-- The integer that a finite number is, if it has no fractional part. -/
def toInt? (x : Double) : Option Int :=
  if x.isFinite ∧ x.numerator % x.denominator = 0 then
    let n := x.numerator / x.denominator
    some (if x.isNegative then -(n : Int) else n)
  else none

/-- Whether a finite number has a fractional part. -/
def hasFraction (x : Double) : Bool := x.numerator % x.denominator != 0

/-- The integer that is left of a number without its fractional part. -/
def truncated (x : Double) : Int :=
  let n := x.numerator / x.denominator
  if x.isNegative then -(n : Int) else n

/-- A number as a 64-bit integer, without its fractional part.  One that is out of
    range becomes the least or the largest integer, and NaN becomes zero. -/
def toInt64 (x : Double) : Int64 :=
  if x.isNaN then 0
  else Int64.ofInt (max Int64.minValue.toInt (min Int64.maxValue.toInt x.truncated))

/-! ## The machine's numbers -/

/-- The machine's number with these bits. -/
def toFloat (x : Double) : Float := Float.ofBits x.bits

/-- The bits of a machine's number. -/
def ofFloat (x : Float) : Double := ⟨x.toBits⟩

end Double

end OpenMath
