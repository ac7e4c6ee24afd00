/-
  From trees to shapes.

  A tree has a shape unless a binding or error in it lacks its head symbol, or a
  binding its body.  Attribute keys are written as the texts of their symbols.

  * `Tree.toShape`: the shape of a tree;
  * `Tree.copy`: the term that the shape of a tree describes;
  * `toShape_node`: the equation of `toShape` at a node.
-/
import OpenMath.Wire.Shape
import OpenMath.Wire.Decoding

namespace OpenMath.Tree

variable {ι : Type}

/-- The shape in a slot that must not be empty. -/
def requiredShape (type : NodeType) (slot : RequiredSlot) :
    Option (Except Error Json) → Except Error Json
  | some shape => shape
  | none => .error (.refused (.emptySlot type slot))

/-- The shape of a node without its attributes. -/
def structuralShape (k : Kind) (ss : Slots (Except Error Json)) : Except Error Json :=
  match k with
  | .integer v => return Shape.ofInteger v
  | .float x =>
    if x.isFinite then return Shape.ofFloat x else .error (.invalid .floatInfinite)
  | .string s => return Shape.ofString s
  | .byteArray bs => return Shape.ofBytes bs
  | .symbol s => return s.toShape
  | .var name => return Shape.ofVar name
  | .application => do
    let children ← ss.children.mapM id
    return Shape.ofApplication children
  | .binding => do
    let head ← requiredShape .binding .head ss.head?
    let bound ← ss.bound.mapM id
    let body ← requiredShape .binding .body ss.body?
    return Shape.ofBinding head bound body
  | .error => do
    let head ← requiredShape .error .head ss.head?
    let children ← ss.children.mapM id
    return Shape.ofError head children

/-- A shape with attributes, unless there are none. -/
def withAttributes (as : Json.Fields) : Json → Json
  | .obj fs => if as.isEmpty then .obj fs else .obj (Json.Fields.insert "a" (.obj as) fs)
  | v => v

/-- The field that an attribute is written as. -/
def attributeField (a : Symbol × Except Error Json) : Except Error (String × Json) := do
  let value ← a.2
  return (a.1.encode, value)

/-- The shape of a node, given the shapes of its owned trees. -/
def shapeStep (k : Kind) (ss : Slots (Except Error Json)) : Except Error Json := do
  let shape ← structuralShape k ss
  let attributes ← ss.attributes.mapM attributeField
  return withAttributes (Json.Fields.ofList attributes) shape

/-- The shape of a tree, unless a slot that must be full is empty. -/
def toShape : Tree ι → Except Error Json := fold fun _ k ss => shapeStep k ss

/-- The term that the shape of a tree describes. -/
def copy (t : Tree ι) : Except Error Term := do
  let shape ← t.toShape
  Wire.decodeShape shape

theorem toShape_node (l : ι) (k : Kind) (ss : Slots (Tree ι)) :
    toShape (.node l k ss) = shapeStep k (ss.mapContent toShape) := by
  rw [toShape, fold_node]

end OpenMath.Tree
