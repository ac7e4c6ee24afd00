/-
  Reading location tags.

  A tag is `s`, `b`, the letter `c` or `v` with an index below `2 ^ 64` behind
  it, or the text of a valid symbol shape.

  * `Location.ofText`: the location that a tag writes.
-/
import OpenMath.Location.Basic
import OpenMath.Wire.Validation

namespace OpenMath.Location

/-- The index that digits write, which may have a plus in front. -/
def readIndex? (cs : List Char) : Option Nat :=
  let ds := match cs with
    | '+' :: ds => ds
    | ds => ds
  if Digits.isNumeral ds ∧ Digits.value ds < UInt64.size then some (Digits.value ds) else none

/-- The index in a tag. -/
def readIndex (tag : String) (cs : List Char) : Except Error Nat :=
  match readIndex? cs with
  | some i => .ok i
  | none => .error (.unreadable (.badIndex tag))

/-- The attribute key that a tag writes. -/
def readKey (tag : String) : Except Error Symbol :=
  match Json.parse? tag with
  | none => .error (.unreadable .json)
  | some shape => do
    Check.require (shape.nodeType? == some .symbol) (.keyNotSymbol tag)
    Wire.validate shape
    Symbol.ofShape shape

/-- The location that a tag writes. -/
def ofText (tag : String) : Except Error Location :=
  match tag.toList with
  | ['s'] => return .head
  | ['b'] => return .body
  | '\x7b' :: _ => do
    let key ← readKey tag
    return .attr key
  | 'c' :: cs => do
    let i ← readIndex tag cs
    return .child i
  | 'v' :: cs => do
    let i ← readIndex tag cs
    return .bound i
  | _ => .error (.unreadable (.badTag tag))

end OpenMath.Location
