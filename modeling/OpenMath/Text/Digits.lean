/-
  Numerals in base ten.

  * `chars` and `ofInt` write a natural number and an integer;
  * `value` reads a sequence of digits, `leading` and `rest` part a text behind
    the digits that it starts with, and `splitSign` takes off a sign;
  * `value_chars`: reading back what was written gives the number.
-/

namespace OpenMath.Digits

/-! ## Writing -/

/-- The decimal digits of a number, without leading zeros. -/
def chars (n : Nat) : List Char := Nat.toDigits 10 n

/-- The digits of an integer, behind a minus if it is negative. -/
def ofInt (n : Int) : List Char := if n < 0 then '-' :: chars n.natAbs else chars n.natAbs

/-! ## Reading -/

/-- The number that a sequence of digits writes. -/
def value (ds : List Char) : Nat := Nat.ofDigitChars 10 ds 0

/-- The number that a sequence of digits writes, with a sign. -/
def signedValue (negative : Bool) (ds : List Char) : Int :=
  if negative then -(value ds : Int) else value ds

/-- The digits that a text starts with. -/
def leading (cs : List Char) : List Char := cs.takeWhile Char.isDigit

/-- What is behind the digits at the front of a text. -/
def rest (cs : List Char) : List Char := cs.dropWhile Char.isDigit

/-- A non-empty sequence of digits. -/
def isNumeral (cs : List Char) : Bool := !cs.isEmpty && cs.all Char.isDigit

/-- Whether a text has a minus in front, and the text without its sign. -/
def splitSign : List Char → Bool × List Char
  | '-' :: cs => (true, cs)
  | '+' :: cs => (false, cs)
  | cs => (false, cs)

/-! ## The round trip and the parts of a text -/

/-- Reading back a written number gives the number. -/
theorem value_chars (n : Nat) : value (chars n) = n :=
  Nat.ofDigitChars_toDigits (by decide) (by decide)

theorem leading_append_rest (cs : List Char) : leading cs ++ rest cs = cs :=
  List.takeWhile_append_dropWhile

theorem length_leading_add (cs : List Char) :
    (leading cs).length + (rest cs).length = cs.length := by
  rw [← List.length_append, leading_append_rest]

theorem length_splitSign_le (cs : List Char) : (splitSign cs).2.length ≤ cs.length := by
  unfold splitSign
  split <;> simp

end OpenMath.Digits
