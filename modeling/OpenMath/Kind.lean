/-
  What a node is, apart from the nodes that it owns.

  * `Kind`: the nine kinds of objects with their payloads;
  * `Role`: the part that an owned node plays in its owner, and
    `Role.admits`, the roles that only some kinds can play.
-/
import OpenMath.Integer
import OpenMath.Symbol

namespace OpenMath

/-- The kind and the payload of a node. -/
inductive Kind where
  | integer (value : Integer)
  | float (value : Double)
  | string (text : String)
  | byteArray (bytes : List UInt8)
  | symbol (s : Symbol)
  | var (name : String)
  | application
  | binding
  | error
deriving DecidableEq

namespace Kind

/-- The kind of a node without its payload. -/
def type : Kind → NodeType
  | integer _ => .integer
  | float _ => .float
  | string _ => .string
  | byteArray _ => .byteArray
  | symbol _ => .symbol
  | var _ => .var
  | application => .application
  | binding => .binding
  | error => .error

/-- The name of a variable. -/
def varName? : Kind → Option String
  | var name => some name
  | _ => none

/-- The symbol itself, with its uri. -/
def symbol? : Kind → Option Symbol
  | symbol s => some s
  | _ => none

/-- The name of a symbol or a variable. -/
def name? : Kind → Option String
  | symbol s => some s.name
  | var name => some name
  | _ => none

/-- Equality of payloads: floats count as numbers, anything else must be the
    same. -/
def agrees : Kind → Kind → Bool
  | float x, float y => x.numericEq y
  | k, k' => k == k'

end Kind

/-- The part that an owned node plays in its owner. -/
inductive Role where
  /-- the operator or an operand of an application, or a child of an error -/
  | child
  /-- the head symbol of a binding or error -/
  | head
  /-- a bound variable of a binding -/
  | bound
  /-- the body of a binding -/
  | body
  /-- the value of an attribute, with the attribute's key -/
  | attr (key : Symbol)
deriving DecidableEq

/-- Whether a node of some kind can play a role: a head is a symbol, a bound
    variable is a variable. -/
def Role.admits : Role → Kind → Bool
  | .head, k => k.type == .symbol
  | .bound, k => k.type == .var
  | _, _ => true

end OpenMath
