/-
  Hexadecimal digits.

  * `digit?` reads one digit of either case, `read?` a sequence of them;
  * `char` writes a digit in lower case, `four` a number below `0x10000` as
    four digits;
  * `read?_four`: reading back what was written gives the number.
-/

namespace OpenMath.Hex

/-- The value of a hexadecimal digit of either case. -/
def digit? (c : Char) : Option Nat :=
  if '0' ≤ c ∧ c ≤ '9' then some (c.toNat - '0'.toNat)
  else if 'a' ≤ c ∧ c ≤ 'f' then some (c.toNat - 'a'.toNat + 10)
  else if 'A' ≤ c ∧ c ≤ 'F' then some (c.toNat - 'A'.toNat + 10)
  else none

/-- The number that a sequence of digits writes, continuing from `acc`. -/
def readFrom? (acc : Nat) : List Char → Option Nat
  | [] => some acc
  | c :: cs =>
    match digit? c with
    | some d => readFrom? (16 * acc + d) cs
    | none => none

/-- The number that a non-empty sequence of digits writes. -/
def read? (cs : List Char) : Option Nat :=
  if cs.isEmpty then none else readFrom? 0 cs

/-- The lower-case digit of a value below sixteen. -/
def char (d : Nat) : Char :=
  if d < 10 then Char.ofNat ('0'.toNat + d) else Char.ofNat ('a'.toNat + (d - 10))

/-- The four digits of a number below `0x10000`, leading zeros included. -/
def four (n : Nat) : List Char :=
  [char (n / 4096 % 16), char (n / 256 % 16), char (n / 16 % 16), char (n % 16)]

/-! ## The round trip -/

theorem digit?_char : ∀ d < 16, digit? (char d) = some d := by decide

theorem read?_four {n : Nat} (h : n < 0x10000) : read? (four n) = some n := by
  have d (k : Nat) : digit? (char (k % 16)) = some (k % 16) :=
    digit?_char _ (Nat.mod_lt k (by decide))
  simp only [read?, four, List.isEmpty_cons, readFrom?, d]
  simp only [Bool.false_eq_true, if_false, Option.some.injEq]
  omega

end OpenMath.Hex
