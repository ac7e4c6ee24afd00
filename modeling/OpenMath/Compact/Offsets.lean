/-
  Tokens of a text by byte offsets.

  A text is gone through from its first byte on: at each offset the rest of the text is sliced
  off, and the next offset lies behind the token that the slice starts with.  A slice
  that starts inside of a character is none.

  * `Token.charsFrom?`: the text from an offset on;
  * `Token.Cursor`: how far a text is gone through;
  * `Cursor.run`: the tokens of the whole text.
-/
import OpenMath.Compact.Token

namespace OpenMath.Token

/-- The text from a byte on, if no character has its first bytes in front of it. -/
def charsFrom? (text : String) (offset : Nat) : Option (List Char) :=
  if h : String.Pos.Raw.IsValid text ⟨offset⟩ then some (text.sliceFrom ⟨⟨offset⟩, h⟩).copy.toList
  else none

/-- How many bytes a text has. -/
def byteLength (cs : List Char) : Nat := (String.ofList cs).utf8ByteSize

/-- The token at the start of a text, and how many bytes it takes. -/
def consume (cs : List Char) : Option (Token × Nat) :=
  (scan cs).map fun (t, rest) => (t, byteLength cs - byteLength rest)

/-- How far a text is gone through: the next offset, and the tokens in front of it. -/
structure Cursor where
  text : String
  offset : Nat
  found : List Token

namespace Cursor

/-- The front of a text, where nothing is read. -/
def start (text : String) : Cursor := ⟨text, 0, []⟩

/-- A token is found, and its bytes are passed. -/
def pass (c : Cursor) (t : Token) (consumed : Nat) : Cursor :=
  { c with offset := c.offset + consumed, found := c.found ++ [t] }

/-- The tokens of the whole text.  It is `none` if a character would be cut, or if no end is
    reached. -/
def run (c : Cursor) : Option (Except Error (List Token)) :=
  if c.offset < c.text.utf8ByteSize then do
    let here ← charsFrom? c.text c.offset
    match consume here with
    | some (t, consumed) =>
      if 0 < consumed then c.pass t consumed |>.run
      else some (.error (.unreadable (.noToken (String.ofList (here.take shownLength)))))
    | none => some (.error (.unreadable (.noToken (String.ofList (here.take shownLength)))))
  else some (.ok c.found)
partial_fixpoint

end Cursor

end OpenMath.Token
