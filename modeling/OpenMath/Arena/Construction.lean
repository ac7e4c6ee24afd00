/-
  Making nodes in an arena.

  Every tree is made from a validated shape, from the leaves up.  Nodes that are
  given as parts are copied by way of their shapes: what is made shares nothing
  with them.

  * `Arena.grow`: the nodes of a shape that is known to be valid;
  * `Arena.decode`, `Arena.decodeShape`: a tree from a shape or its text;
  * `Arena.integer`, `Arena.symbol` and so on: a tree of one node;
  * `Arena.application`, `Arena.binding`, `Arena.error`: a tree over copies of
    nodes;
  * `Arena.attribution`: a copy of a node with more attributes;
  * `Arena.copy`: a copy of a node.
-/
import OpenMath.Arena.Editing
import OpenMath.Arena.Reading

namespace OpenMath.Arena

/-- A node is inserted in the arena; one that is not needed is discarded. -/
def nodeMaker : Wire.Maker Edit NodeId where
  make content attributes := modifyGet fun a => a.insert content attributes
  drop := discard

/-- Adds the tree of a shape that is known to be valid. -/
def grow : Json → Edit NodeId := Wire.buildWith nodeMaker

/-- Adds the tree of what may be a shape. -/
def make (shape : Except Error Json) : Edit NodeId := do
  let shape ← liftExcept shape
  grow shape

/-- Adds the tree of a shape, if the shape is valid. -/
def decodeShape (shape : Json) : Edit NodeId := make (Wire.validated shape)

/-- The value that a text writes. -/
def readJson (text : String) : Except Error Json :=
  match Json.parse? text with
  | some shape => .ok shape
  | none => .error (.unreadable .json)

/-- Adds the tree of the text of a shape. -/
def decode (text : String) : Edit NodeId := do
  let shape ← liftExcept (readJson text)
  decodeShape shape

/-- Adds the tree of a shape that is computed from the arena. -/
def makeFrom (shape : Arena → Except Error Json) : Edit NodeId := do
  let a ← get
  make (shape a)

/-- The valid shape of a node. -/
def copyShape (a : Arena) (id : NodeId) : Except Error Json := do
  let shape ← a.toShape id
  Wire.validated shape

/-- Adds a copy of a node. -/
def copy (id : NodeId) : Edit NodeId := makeFrom fun a => a.copyShape id

/-! ## Single nodes -/

/-- A root with an integer, whose text must be a numeral if it is held as one. -/
def integer (v : Integer) : Edit NodeId := make (Shape.integer v)

/-- A root with a float, which must be finite. -/
def float (x : Double) : Edit NodeId := make (Shape.float x)

/-- A root with any text. -/
def string (s : String) : Edit NodeId := make (Shape.string s)

/-- A root with a byte array. -/
def bytes (bs : List UInt8) : Edit NodeId := make (Shape.bytes bs)

/-- A root with a symbol, whose names must be identifiers. -/
def symbol (name cd : String) (uri : Option String) : Edit NodeId :=
  make (Shape.symbol name cd uri)

/-- A root with a variable, whose name must be an identifier. -/
def var (name : String) : Edit NodeId := make (Shape.var name)

/-! ## Compound nodes -/

/-- The shape of an application over nodes. -/
def applicationShape (nodes : List NodeId) (a : Arena) : Except Error Json := do
  let children ← nodes.mapM a.toShape
  Shape.application children

/-- Adds the application of a copy of the first node to copies of the others. -/
def application (nodes : List NodeId) : Edit NodeId := makeFrom (applicationShape nodes)

/-- The shape of a binding over nodes. -/
def bindingShape (head : NodeId) (bound : List NodeId) (body : NodeId) (a : Arena) :
    Except Error Json := do
  let head ← a.toShape head
  let bound ← bound.mapM a.toShape
  let body ← a.toShape body
  Shape.binding head bound body

/-- Adds a binding over copies of nodes. -/
def binding (head : NodeId) (bound : List NodeId) (body : NodeId) : Edit NodeId :=
  makeFrom (bindingShape head bound body)

/-- The shape of an error over nodes. -/
def errorShape (head : NodeId) (nodes : List NodeId) (a : Arena) : Except Error Json := do
  let head ← a.toShape head
  let children ← nodes.mapM a.toShape
  Shape.error head children

/-- Adds an error over copies of nodes. -/
def error (head : NodeId) (nodes : List NodeId) : Edit NodeId := makeFrom (errorShape head nodes)

/-- The shapes of the key and the value of an attribute. -/
def entryShape (a : Arena) (entry : NodeId × NodeId) : Except Error (Json × Json) := do
  let key ← a.toShape entry.1
  let value ← a.toShape entry.2
  return (key, value)

/-- The shape of a node with more attributes. -/
def attributionShape (node : NodeId) (entries : List (NodeId × NodeId)) (a : Arena) :
    Except Error Json := do
  let entries ← entries.mapM a.entryShape
  let shape ← a.toShape node
  Shape.attribution shape entries

/-- Adds a copy of a node with more attributes, whose keys and values are copies
    of nodes. -/
def attribution (node : NodeId) (entries : List (NodeId × NodeId)) : Edit NodeId :=
  makeFrom (attributionShape node entries)

end OpenMath.Arena
