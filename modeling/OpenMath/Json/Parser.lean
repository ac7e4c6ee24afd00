/-
  Reading JSON text.

  The grammar is the standard one: blanks are space, tab, line feed and
  carriage return; a string holds no control characters and no unpaired
  surrogates; a number has no leading zeros, no leading plus and digits on both
  sides of its point.  Arrays and objects nest at most 127 deep, which is the
  measure that the recursion runs on.

  A number that is no integer of 64 bits is read as a double that is near to it,
  but not always as the nearest one: of its digits those count that fit 64 bits,
  their double is scaled by a power of ten, and each step rounds.

  * `ofParts?`: the number that digits in front of a point and behind it and an
    exponent write;
  * `value depth`: a value with at most `depth` levels below it, and the rest;
  * `Json.parse?`: the value of a whole text.
-/
import OpenMath.Json.Basic
import OpenMath.Text.Hex
import OpenMath.Text.Utf16
import OpenMath.Double.Text

namespace OpenMath.Json.Parser

/-- A reader of a leading part of a text: what it read, and the rest. -/
abbrev Reader (α : Type) := List Char → Option (α × List Char)

/-! ## Blanks -/

/-- A character that may stand between the parts of a value. -/
def isBlank (c : Char) : Bool := c == ' ' || c == '\t' || c == '\n' || c == '\r'

/-- A text without its leading blanks. -/
def skipBlanks (cs : List Char) : List Char := cs.dropWhile isBlank

/-! ## Strings -/

/-- The unit that a letter behind a backslash stands for. -/
def escaped? : Char → Option Nat
  | '"' => some 0x22
  | '\\' => some 0x5c
  | '/' => some 0x2f
  | 'b' => some 0x08
  | 'f' => some 0x0c
  | 'n' => some 0x0a
  | 'r' => some 0x0d
  | 't' => some 0x09
  | _ => none

/-- The 16-bit units of a string behind its opening quote. -/
def units : Reader (List Nat)
  | [] => none
  | '"' :: cs => some ([], cs)
  | '\\' :: 'u' :: a :: b :: c :: d :: cs => do
    let u ← Hex.read? [a, b, c, d]
    let (us, rest) ← units cs
    return (u :: us, rest)
  | '\\' :: c :: cs => do
    let u ← escaped? c
    let (us, rest) ← units cs
    return (u :: us, rest)
  | c :: cs =>
    if c.toNat < 0x20 ∨ c = '\\' then none
    else do
      let (us, rest) ← units cs
      return (Utf16.encodeChar c ++ us, rest)

/-- A string behind its opening quote. -/
def string : Reader String := fun cs => do
  let (us, rest) ← units cs
  let s ← Utf16.decode us
  return (String.ofList s, rest)

/-! ## Numbers -/

/-- The digits behind a point, at least one; no point is no digits. -/
def fraction : Reader (List Char)
  | '.' :: cs =>
    if (Digits.leading cs).isEmpty then none else some (Digits.leading cs, Digits.rest cs)
  | cs => some ([], cs)

/-- The exponent behind its letter, if there is one. -/
def exponent : Reader (Option Int)
  | [] => some (none, [])
  | c :: cs =>
    if c == 'e' || c == 'E' then
      let (negative, cs) := Digits.splitSign cs
      if (Digits.leading cs).isEmpty then none
      else some (some (Digits.signedValue negative (Digits.leading cs)), Digits.rest cs)
    else some (none, c :: cs)

/-- Digits that are put behind a number for as long as it has 64 bits, and those that are
    left over. -/
def absorb (n : Nat) : List Char → Nat × List Char
  | [] => (n, [])
  | d :: ds =>
    if Nat.ofDigitChars 10 [d] n < UInt64.size then absorb (Nat.ofDigitChars 10 [d] n) ds
    else (n, d :: ds)

/-- The double that is nearest to a power of ten. -/
def powerOfTen (k : Nat) : Double := Double.ofInt (Nat.pow 10 k)

/-- A double that is scaled by a power of ten, which is rounded, as is the result; none if this
    is infinite.  No power above that with the exponent 308 is a double: what is to be divided
    by one is divided in steps. -/
def scale? (x : Double) (exponent : Int) : Option Double :=
  if exponent.natAbs ≤ 308 then
    if exponent < 0 then some (x.div (powerOfTen exponent.natAbs))
    else
      let y := x.mul (powerOfTen exponent.natAbs)
      if y.isFinite then some y else none
  else if x.isZero then some x
  else if 0 < exponent then none
  else scale? (x.div (powerOfTen 308)) (exponent + 308)
termination_by exponent.natAbs

/-- The number that digits write which are followed by no point and no exponent and have 64
    bits: an integer, or a double if they follow a minus and the integer is too small, or is
    zero. -/
def ofWhole (negative : Bool) (n : Nat) : Number :=
  if negative then
    if n ≠ 0 ∧ Int64.minValue.toInt ≤ -n then .integer (-(n : Int))
    else .real ((Double.ofInt n).withSign true)
  else .integer n

/-- The number that digits in front of the point, digits behind it and an exponent write.  Of
    the digits only those count that fit 64 bits; the double of these is scaled by the power of
    ten that the others and the exponent give. -/
def ofParts? (negative : Bool) (whole frac : List Char) (exp : Option Int) : Option Number :=
  let (n, surplus) := absorb 0 whole
  if surplus.isEmpty && frac.isEmpty && exp.isNone then some (ofWhole negative n)
  else
    let (n, ignored) := absorb n frac
    (scale? (Double.ofInt n)
      (surplus.length - (frac.length - ignored.length) + exp.getD 0)).map
        fun x => .real (x.withSign negative)

/-- Digits in front of a point: at least one, and no zero in front of others. -/
def isWhole (ds : List Char) : Bool :=
  !ds.isEmpty && (ds.head? != some '0' || ds.length == 1)

/-- A number behind its sign. -/
def unsigned (negative : Bool) : Reader Number := fun cs =>
  if isWhole (Digits.leading cs) then do
    let (frac, rest) ← fraction (Digits.rest cs)
    let (exp, rest) ← exponent rest
    let n ← ofParts? negative (Digits.leading cs) frac exp
    return (n, rest)
  else none

/-- A number: a minus or none, digits, a point with digits or none, an exponent or none. -/
def number : Reader Number
  | '-' :: cs => unsigned true cs
  | cs => unsigned false cs

/-! ## Arrays and objects -/

/-- Items with a comma between any two, up to the closing character.  There are
    at most as many as the fuel says. -/
def items {α : Type} (item : Reader α) (close : Char) : Nat → Reader (List α)
  | 0, _ => none
  | fuel + 1, cs => do
    let (x, cs) ← item cs
    match skipBlanks cs with
    | [] => none
    | c :: cs =>
      if c = ',' then do
        let (xs, cs) ← items item close fuel cs
        return (x :: xs, cs)
      else if c = close then some ([x], cs)
      else none

/-- Items behind an opening character, or the closing one alone. -/
def group {α : Type} (item : Reader α) (close : Char) : Reader (List α) := fun cs =>
  match skipBlanks cs with
  | [] => none
  | c :: rest => if c = close then some ([], rest) else items item close cs.length cs

/-- A key, a colon and a value. -/
def member (item : Reader Json) : Reader (String × Json) := fun cs =>
  match skipBlanks cs with
  | '"' :: cs => do
    let (key, cs) ← string cs
    match skipBlanks cs with
    | ':' :: cs => do
      let (v, cs) ← item cs
      return ((key, v), cs)
    | _ => none
  | _ => none

/-- A value that is neither an array nor an object, without leading blanks. -/
def scalar : Reader Json
  | 'n' :: 'u' :: 'l' :: 'l' :: cs => some (.null, cs)
  | 't' :: 'r' :: 'u' :: 'e' :: cs => some (.bool true, cs)
  | 'f' :: 'a' :: 'l' :: 's' :: 'e' :: cs => some (.bool false, cs)
  | '"' :: cs => (string cs).map fun (s, rest) => (.str s, rest)
  | cs => (number cs).map fun (n, rest) => (.number n, rest)

/-- A value with at most `depth` levels of arrays and objects. -/
def value : Nat → Reader Json
  | 0 => fun cs => scalar (skipBlanks cs)
  | depth + 1 => fun cs =>
    match skipBlanks cs with
    | '[' :: cs => (group (value depth) ']' cs).map fun (xs, rest) => (.arr xs, rest)
    | '\x7b' :: cs =>
      (group (member (value depth)) '\x7d' cs).map fun (fs, rest) => (.ofFields fs, rest)
    | cs => scalar cs

/-- How deep arrays and objects may nest. -/
def maxDepth : Nat := 127

end Parser

/-- The value that a text writes, with nothing but blanks around it. -/
def parse? (s : String) : Option Json := do
  let (v, rest) ← Parser.value Parser.maxDepth s.toList
  if (Parser.skipBlanks rest).isEmpty then some v else none

end OpenMath.Json
