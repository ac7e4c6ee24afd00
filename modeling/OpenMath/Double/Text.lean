/-
  The text of numbers.

  A finite number is written with the digits of its shortest decimal, in one of
  two notations: always positionally (`plain`), or positionally only in a range
  of exponents and otherwise with an exponent (`json`).  Reading accepts an
  optional sign, digits with an optional point, an optional exponent, and the
  names of the infinity and of NaN.

  * `NumberStyle`: what the two forms differ in, as one record;
  * `toText`: a number in a notation;
  * `roundedText`: a number without places behind the point;
  * `ofText?`: the number that a text writes.
-/
import OpenMath.Double.Shortest
import OpenMath.Text.Digits

namespace OpenMath

/-! ## Writing -/

/-- The decisions of a number format. -/
structure NumberStyle where
  /-- Which of two equally near shortest decimals is taken. -/
  tie : Decimal.Tie
  /-- What stands behind the digits of an integral value. -/
  integralEnd : List Char
  /-- Which exponents of the leading digit are written positionally. -/
  positional : Int → Bool

namespace NumberStyle

/-- Digits and point only, integral values without a point. -/
def plain : NumberStyle where
  tie := .up
  integralEnd := []
  positional := fun _ => true

/-- Integral values end in `.0`; an exponent stands from `1e16` up and below
    `1e-5`. -/
def json : NumberStyle where
  tie := .toEven
  integralEnd := ['.', '0']
  positional := fun e => -5 ≤ e && e < 16

end NumberStyle

namespace Decimal

/-- A run of zeros. -/
def zeros (n : Nat) : List Char := List.replicate n '0'

/-- The exponent of the leading digit. -/
def leadingExponent (d : Decimal) : Int := (Digits.chars d.digits).length + d.exponent - 1

/-- Digits and point: the point behind the digits, inside them, or in front. -/
def positional (d : Decimal) (integralEnd : List Char) : List Char :=
  let ds := Digits.chars d.digits
  let point := (ds.length : Int) + d.exponent
  if 0 ≤ d.exponent then ds ++ zeros d.exponent.toNat ++ integralEnd
  else if 0 < point then ds.take point.toNat ++ '.' :: ds.drop point.toNat
  else '0' :: '.' :: zeros (-point).toNat ++ ds

/-- One digit, the others behind a point, and a signed exponent. -/
def scientific (d : Decimal) : List Char :=
  let e := d.leadingExponent
  let mantissa := match Digits.chars d.digits with
    | c :: c' :: cs => c :: '.' :: c' :: cs
    | cs => cs
  mantissa ++ 'e' :: (if e < 0 then '-' else '+') :: Digits.chars e.natAbs

end Decimal

namespace Double

/-- The shortest text that is read as the number, in a style. -/
def toText (style : NumberStyle) (x : Double) : String :=
  if x.isNaN then "NaN"
  else
    let sign := if x.isNegative then ['-'] else []
    let body :=
      if !x.isFinite then ['i', 'n', 'f']
      else
        let d := if x.isZero then ⟨0, 0⟩ else x.shortest style.tie
        if style.positional d.leadingExponent then d.positional style.integralEnd
        else d.scientific
    String.ofList (sign ++ body)

/-- The plain text of a number: never an exponent, no point on integral values. -/
def plainText (x : Double) : String := x.toText .plain

/-- The text of a finite number with no places behind the point: the nearest integer,
    of two equally near the even one. -/
def roundedText (x : Double) : String :=
  String.ofList ((if x.isNegative then ['-'] else []) ++
    Digits.chars (roundHalfEven x.numerator x.denominator))

/-! ## Reading -/

/-- The exponent that ends a numeral; no text is the exponent zero. -/
def readExponent? : List Char → Option Int
  | [] => some 0
  | c :: cs =>
    let (negative, ds) := Digits.splitSign cs
    if (c == 'e' || c == 'E') && Digits.isNumeral ds then some (Digits.signedValue negative ds)
    else none

/-- The digits behind the point, and what follows them. -/
def splitFraction : List Char → List Char × List Char
  | '.' :: cs => (Digits.leading cs, Digits.rest cs)
  | cs => ([], cs)

/-- The number nearest to an unsigned numeral. -/
def readNumeral? (negative : Bool) (cs : List Char) : Option Double := do
  let whole := Digits.leading cs
  let (frac, rest) := splitFraction (Digits.rest cs)
  let exponent ← readExponent? rest
  if whole.isEmpty && frac.isEmpty then none
  else some (ofDecimal negative (Digits.value (whole ++ frac)) (exponent - frac.length))

/-- The number that a text writes: a numeral, or the name of the infinity or of
    NaN in letters of either case. -/
def ofText? (s : String) : Option Double :=
  let (negative, cs) := Digits.splitSign s.toList
  let name := cs.map Char.toLower
  if name == ['i', 'n', 'f'] || name == ['i', 'n', 'f', 'i', 'n', 'i', 't', 'y'] then
    some (infinity negative)
  else if name == ['n', 'a', 'n'] then some nan
  else readNumeral? negative cs

end Double

end OpenMath
