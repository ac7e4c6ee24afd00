/-
  The payload of an integer object.

  A value of at most 64 bits is usually held as a number, any other as its
  decimal text.  The two forms are told apart on the wire and by equality, so
  that an integer keeps the form that it was given.

  * `Integer.value?`: the integer that a payload denotes;
  * `Integer.ofInt`: an integer as a number if it fits, otherwise as its digits;
  * `Integer.ofNumber?`: the integer that a JSON number is, if it is one.
-/
import OpenMath.Error
import OpenMath.Identifier

namespace OpenMath

/-- An integer, as a number or as decimal text. -/
inductive Integer where
  | native (n : Int64)
  | text (digits : String)
deriving DecidableEq

namespace Integer

/-! ## Value -/

/-- The integer that a text writes, if it is a numeral with or without a sign. -/
def readText? (s : String) : Option Int :=
  if Identifier.isIntegerText s then
    let (negative, ds) := Digits.splitSign s.toList
    some (Digits.signedValue negative ds)
  else none

/-- The integer that is held; a text that is no numeral holds none. -/
def value? : Integer → Option Int
  | native n => some n.toInt
  | text s => readText? s

/-- The decimal text of an integer; a text is kept as it is. -/
def toText : Integer → String
  | native n => String.ofList (Digits.ofInt n.toInt)
  | text s => s

/-- The double nearest to an integer, and not a number for a text that is no numeral. -/
def toDouble : Integer → Double
  | native n => Double.ofInt n.toInt
  | text s => (Double.ofText? s).getD Double.nan

/-! ## Making integers -/

/-- The number with an integer value, if it fits 64 bits with a sign. -/
def native? (n : Int) : Option Integer :=
  if Int64.minValue.toInt ≤ n ∧ n ≤ Int64.maxValue.toInt then some (.native (Int64.ofInt n))
  else none

/-- An integer, as a number if it fits and otherwise as its digits. -/
def ofInt (n : Int) : Integer := (native? n).getD (.text (String.ofList (Digits.ofInt n)))

/-- The integer that a double is, if it has no fractional part.  The bounds that it is
    compared with are the doubles nearest to the least and to the largest integer with 64 bits;
    the second one is next to the largest integer itself, and out of range. -/
def ofDouble? (x : Double) : Option Integer :=
  if !x.isFinite || x.hasFraction then none
  else if (Double.ofInt Int64.minValue.toInt).le x && x.lt (Double.ofInt Int64.maxValue.toInt) then
    some (.native x.toInt64)
  else some (.text x.roundedText)

/-- The integer that a JSON number is, if it has no fractional part. -/
def ofNumber? : Json.Number → Option Integer
  | .integer n => some (ofInt n)
  | .real x => ofDouble? x

/-- The integer that a text writes, kept as the text. -/
def ofText (s : String) : Except Error Integer :=
  if Identifier.isIntegerText s then .ok (.text s) else .error (.invalid (.notAnInteger s))

/-- The integer that a numeral writes: as a number if it fits, otherwise as the
    numeral itself. -/
def ofNumeral (s : String) : Except Error Integer :=
  match (readText? s).bind native? with
  | some n => .ok n
  | none => ofText s

end Integer

end OpenMath
