/-
  Texts as sequences of 16-bit units.

  A character below `0x10000` is one unit, any other a pair of surrogates: a
  high one (`0xD800` to `0xDBFF`) and then a low one (`0xDC00` to `0xDFFF`).

  * `encode` writes a text as its units, and `decode` reads units back; it
    refuses a surrogate that stands alone or in the wrong order;
  * `decode_encode`: reading back what was written gives the text.
-/

namespace OpenMath.Utf16

/-! ## Surrogates -/

/-- A unit that opens a surrogate pair. -/
def isHigh (u : Nat) : Bool := 0xD800 ≤ u && u < 0xDC00

/-- A unit that closes a surrogate pair. -/
def isLow (u : Nat) : Bool := 0xDC00 ≤ u && u < 0xE000

/-- The code point that a surrogate pair stands for. -/
def pair (high low : Nat) : Nat := 0x10000 + (high - 0xD800) * 0x400 + (low - 0xDC00)

/-! ## Writing and reading -/

/-- The units of one character. -/
def encodeChar (c : Char) : List Nat :=
  if c.toNat < 0x10000 then [c.toNat]
  else [0xD800 + (c.toNat - 0x10000) / 0x400, 0xDC00 + (c.toNat - 0x10000) % 0x400]

/-- The units of a text. -/
def encode (s : List Char) : List Nat := s.flatMap encodeChar

/-- The text that a sequence of units stands for, if its surrogates are paired. -/
def decode : List Nat → Option (List Char)
  | [] => some []
  | [u] => if isHigh u || isLow u then none else some [Char.ofNat u]
  | u :: v :: us =>
    if isHigh u then
      if isLow v then (decode us).map (Char.ofNat (pair u v) :: ·) else none
    else if isLow u then none
    else (decode (v :: us)).map (Char.ofNat u :: ·)

/-! ## The round trip -/

theorem toNat_scalar (c : Char) :
    c.toNat < 0xD800 ∨ (0xE000 ≤ c.toNat ∧ c.toNat < 0x110000) := by
  have v := c.valid
  have e : c.val.toNat = c.toNat := rfl
  simp only [UInt32.isValidChar, Nat.isValidChar] at v
  rw [e] at v
  omega

theorem decode_cons {u : Nat} (us : List Nat) (h : isHigh u = false) (l : isLow u = false) :
    decode (u :: us) = (decode us).map (Char.ofNat u :: ·) := by
  cases us with
  | nil => simp [decode, h, l]
  | cons v vs => simp [decode, h, l]

/-- One written character reads back before any further units. -/
theorem decode_encodeChar_append (c : Char) (us : List Nat) :
    decode (encodeChar c ++ us) = (decode us).map (c :: ·) := by
  have s := toNat_scalar c
  unfold encodeChar
  split
  · have h : isHigh c.toNat = false := by simp [isHigh]; omega
    have l : isLow c.toNat = false := by simp [isLow]; omega
    rw [List.singleton_append, decode_cons us h l, Char.ofNat_toNat]
  · have h : isHigh (0xD800 + (c.toNat - 0x10000) / 0x400) = true := by simp [isHigh]; omega
    have l : isLow (0xDC00 + (c.toNat - 0x10000) % 0x400) = true := by simp [isLow]; omega
    have p : pair (0xD800 + (c.toNat - 0x10000) / 0x400)
        (0xDC00 + (c.toNat - 0x10000) % 0x400) = c.toNat := by
      unfold pair; omega
    simp [decode, h, l, p, Char.ofNat_toNat]

/-- Reading back the units of a text gives the text. -/
theorem decode_encode (s : List Char) : decode (encode s) = some s := by
  induction s with
  | nil => rfl
  | cons c s ih =>
    have e : encode (c :: s) = encodeChar c ++ encode s := by simp [encode]
    rw [e, decode_encodeChar_append, ih, Option.map_some]

end OpenMath.Utf16
