/-
  Locations: which slot of its owner a node is in.

  A location is a role, and for children and bound variables the index among
  those.

  * `Location.toText`: the tag that writes a location;
  * `Location.role`: the role of what is there.
-/
import OpenMath.Tree.Basic

namespace OpenMath

/-- A slot of a node. -/
inductive Location where
  | child (index : Nat)
  | bound (index : Nat)
  | head
  | body
  | attr (key : Symbol)
deriving DecidableEq

namespace Location

/-- The tag that writes a location: a letter, with the index behind it where
    there is one, or the text of an attribute key. -/
def toText : Location → String
  | child i => "c" ++ String.ofList (Digits.chars i)
  | bound i => "v" ++ String.ofList (Digits.chars i)
  | head => "s"
  | body => "b"
  | attr key => key.encode

/-- The role of what is at a location. -/
def role : Location → Role
  | child _ => .child
  | bound _ => .bound
  | head => .head
  | body => .body
  | attr key => .attr key

end Location

end OpenMath
