/-
  The nine kinds of objects and the tags that mark them in the wire format.

  * `NodeType.tag` and `NodeType.ofTag?` write and read a tag;
  * `ofTag?_eq_some_iff`: a text is a tag of exactly one kind, or of none.
-/

namespace OpenMath

/-- The kinds of objects. -/
inductive NodeType where
  | integer | float | string | byteArray | symbol | var | application | binding | error
deriving DecidableEq

namespace NodeType

/-- The tag of a kind in the wire format. -/
def tag : NodeType → String
  | integer => "i"
  | float => "f"
  | string => "st"
  | byteArray => "ba"
  | symbol => "sy"
  | var => "v"
  | application => "a"
  | binding => "bi"
  | error => "e"

/-- The name of a kind. -/
def name : NodeType → String
  | integer => "Integer"
  | float => "Float"
  | string => "String"
  | byteArray => "ByteArray"
  | symbol => "Symbol"
  | var => "Variable"
  | application => "Application"
  | binding => "Binding"
  | error => "Error"

/-- All kinds of objects. -/
def all : List NodeType :=
  [integer, float, string, byteArray, symbol, var, application, binding, error]

/-- The kind with a given tag. -/
def ofTag? (t : String) : Option NodeType := all.find? (·.tag == t)

/-- The kind that a tag is read as is the one that it marks. -/
theorem ofTag?_eq_some_iff {t : String} {k : NodeType} : ofTag? t = some k ↔ k.tag = t := by
  constructor
  · intro h
    simpa using List.find?_some h
  · rintro rfl
    cases k <;> decide

end NodeType

end OpenMath
