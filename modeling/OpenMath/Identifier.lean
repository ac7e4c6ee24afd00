/-
  Identifiers: the names of symbols, content dictionaries and variables.

  An identifier starts with an ASCII letter, `_`, `:` or a character from the
  Greek and Coptic block (U+0374 to U+03FF), and goes on with the same
  characters, ASCII digits, `.` and `-`.  Arbitrary text is embedded as an
  identifier by an escape: `id_` and four hexadecimal digits for each 16-bit
  unit of the text.

  * `isIdentifier` and `isIntegerText` are the two tests on names and numerals;
  * `escape` embeds a text, `unescape?` recovers it.
-/
import OpenMath.Text.Utf16
import OpenMath.Text.Hex
import OpenMath.Text.Digits

namespace OpenMath.Identifier

/-! ## The grammar of names -/

/-- A letter of the Greek and Coptic block that names may use. -/
def isGreek (c : Char) : Bool := 0x374 ≤ c.toNat && c.toNat ≤ 0x3FF

/-- A character that may open an identifier. -/
def isStart (c : Char) : Bool := c.isAlpha || c == '_' || c == ':' || isGreek c

/-- A character that may stand after the first of an identifier. -/
def isContinue (c : Char) : Bool := isStart c || c.isDigit || c == '.' || c == '-'

/-- The grammar of identifiers, on characters. -/
def isName : List Char → Bool
  | [] => false
  | c :: cs => isStart c && cs.all isContinue

/-- The grammar of identifiers. -/
def isIdentifier (s : String) : Bool := isName s.toList

/-! ## The grammar of integers -/

/-- An optionally signed, non-empty sequence of ASCII digits. -/
def isIntegerText (s : String) : Bool := Digits.isNumeral (Digits.splitSign s.toList).2

/-! ## Escaping -/

/-- The mark in front of every escaped text. -/
def mark : List Char := ['i', 'd', '_']

/-- The identifier that stands for an arbitrary text. -/
def escape (text : String) : String :=
  String.ofList (mark ++ (Utf16.encode text.toList).flatMap Hex.four)

/-- The unit that a group of four characters writes.  Its first character may
    be a plus sign, which counts for nothing. -/
def readGroup? : List Char → Option Nat
  | '+' :: ds => Hex.read? ds
  | ds => Hex.read? ds

/-- The units that consecutive groups of four characters write. -/
def readGroups? : List Char → Option (List Nat)
  | [] => some []
  | a :: b :: c :: d :: cs => do
    let u ← readGroup? [a, b, c, d]
    let us ← readGroups? cs
    return u :: us
  | _ => none

/-- The characters after the mark of an escaped text. -/
def dropMark? : List Char → Option (List Char)
  | 'i' :: 'd' :: '_' :: cs => some cs
  | _ => none

/-- The text that an identifier stands for, if it is an escape. -/
def unescape? (ident : String) : Option String := do
  let digits ← dropMark? ident.toList
  let units ← readGroups? digits
  let text ← Utf16.decode units
  return String.ofList text

end OpenMath.Identifier
