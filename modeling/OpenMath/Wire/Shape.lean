/-
  Building shapes.

  * `Shape.ofInteger`, `Shape.ofFloat` and so on: the shape of a node from its
    payload and the shapes of its parts, whatever these are;
  * `Shape.integer`, `Shape.float` and so on: the same, validated;
  * `Shape.attribution`: a shape with more attributes, where an entry replaces
    those whose key agrees with its own;
  * `Shape.joinApplication`, `Shape.joinBinding`: a node over parts that are
    known to be valid, whose own rules alone are checked.
-/
import OpenMath.Wire.Validation

namespace OpenMath.Shape

open Wire (validate validateShallow validated)

/-! ## Shapes of nodes -/

/-- A shape with a tag and fields. -/
def tagged (type : NodeType) (fields : List (String × Json)) : Json :=
  .ofFields (("t", .str type.tag) :: fields)

/-- The value of an integer: a number, or a text. -/
def integerValue : Integer → Json
  | .native n => .int n.toInt
  | .text s => .str s

/-- The shape of an integer; one that is held as a text is a string in it. -/
def ofInteger (v : Integer) : Json := tagged .integer [("v", integerValue v)]

/-- The shape of a float. -/
def ofFloat (x : Double) : Json := tagged .float [("v", .number (.real x))]

/-- The shape of a text. -/
def ofString (s : String) : Json := tagged .string [("v", .str s)]

/-- The shape of a byte array, which is a list of numbers. -/
def ofBytes (bs : List UInt8) : Json :=
  tagged .byteArray [("v", .arr (bs.map fun b => .int b.toNat))]

/-- The shape of a variable. -/
def ofVar (name : String) : Json := tagged .var [("n", .str name)]

/-- The shape of an application; the operator is the first child. -/
def ofApplication (children : List Json) : Json := tagged .application [("c", .arr children)]

/-- The shape of a binding. -/
def ofBinding (head : Json) (bound : List Json) (body : Json) : Json :=
  tagged .binding [("s", head), ("v", .arr bound), ("b", body)]

/-- The shape of an error. -/
def ofError (head : Json) (children : List Json) : Json :=
  tagged .error [("s", head), ("c", .arr children)]

/-! ## Validated shapes -/

/-- The shape of an integer, if it is valid. -/
def integer (v : Integer) : Except Error Json := validated (ofInteger v)

/-- The shape of a float, which is a finite number. -/
def float (x : Double) : Except Error Json :=
  if x.isNaN then .error (.invalid .floatNaN)
  else if x.isFinite then validated (ofFloat x)
  else .error (.invalid .floatInfinite)

/-- The shape of a text, which is always valid. -/
def string (s : String) : Except Error Json := validated (ofString s)

/-- The shape of a byte array, which is always valid. -/
def bytes (bs : List UInt8) : Except Error Json := validated (ofBytes bs)

/-- The shape of a symbol, if it is valid. -/
def symbol (name cd : String) (uri : Option String) : Except Error Json :=
  validated (Symbol.shapeOf name cd uri)

/-- The shape of a variable, if it is valid. -/
def var (name : String) : Except Error Json := validated (ofVar name)

/-- The application of the first shape to the others. -/
def application (children : List Json) : Except Error Json := validated (ofApplication children)

/-- The binding of variables in a body under a head symbol. -/
def binding (head : Json) (bound : List Json) (body : Json) : Except Error Json :=
  validated (ofBinding head bound body)

/-- The error with a head symbol and children. -/
def error (head : Json) (children : List Json) : Except Error Json :=
  validated (ofError head children)

/-- An application of parts that are valid. -/
def joinApplication (children : List Json) : Except Error Json := do
  validateShallow (ofApplication children)
  return ofApplication children

/-- A binding of parts that are valid. -/
def joinBinding (head : Json) (bound : List Json) (body : Json) : Except Error Json := do
  validateShallow (ofBinding head bound body)
  return ofBinding head bound body

/-! ## Attributes -/

/-- The symbol that the text of an attribute key describes. -/
def symbolOfKey? (key : String) : Option Symbol :=
  (Json.parse? key).bind fun shape => (Symbol.ofShape shape).toOption

/-- Attributes without those whose key agrees with a symbol. -/
def dropKey (s : Symbol) (as : Json.Fields) : Json.Fields :=
  as.filter fun f => !(symbolOfKey? f.1).any (·.sameKey s)

/-- Fields of a shape with one more attribute. -/
def addAttribute (fs : Json.Fields) (entry : Json × Json) : Except Error Json.Fields := do
  let s ← Symbol.ofShape entry.1
  match (fs.get? "a").getD (.obj []) with
  | .obj as =>
    return Json.Fields.insert "a" (.obj (Json.Fields.insert entry.1.compact entry.2 (dropKey s as))) fs
  | _ => .error (.invalid .attributesNotExtensible)

/-- A shape with more attributes, each given by the shapes of its key and of its
    value. -/
def attribution (node : Json) (entries : List (Json × Json)) : Except Error Json :=
  match node with
  | .obj fs => do
    let fs ← entries.foldlM addAttribute fs
    validated (.obj fs)
  | _ => .error (.invalid .attributionOfNonObject)

end OpenMath.Shape
