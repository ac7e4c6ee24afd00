/-
  What an arena says about a node.

  The tree at a node is read off the arena by following the references to what
  the node owns.  Everything that looks downwards from a node looks at that
  tree; only the list of the structural nodes below a node comes from a walk
  over the arena itself, with a stack of the nodes that are still to visit.

  * `Arena.tree?`: the tree at a node;
  * `Arena.toShape`, `Arena.encode`, `Arena.compact`: texts of a node;
  * `Arena.xmlString`, `Arena.xmlRender`: its XML text, plain and with colours;
  * `Arena.equals`: structural equality of two nodes;
  * `Arena.walk`, `Arena.descendants`: the structural nodes below a node.
-/
import OpenMath.Arena.Basic
import OpenMath.Compact.Printer
import OpenMath.Evaluation
import OpenMath.Tree.Equality
import OpenMath.Tree.Variables
import OpenMath.Wire.Encoding
import OpenMath.Xml

namespace OpenMath.Arena

/-! ## Trees -/

/-- The tree at a node.  There is none if an identity on the way down is not in
    use, or if there is no end to the way down. -/
def tree? (a : Arena) (id : NodeId) : Option (Tree NodeId) := do
  let n ← a.node? id
  let slots ← n.slots.mapM fun s => do
    let t ← a |>.tree? s.content
    return (⟨s.role, t⟩ : Slot (Tree NodeId))
  return .node id n.kind slots
partial_fixpoint

/-! ## Comparing -/

/-- Whether two identities are of one node of the arena. -/
def same (a : Arena) (x y : NodeId) : Bool := x == y && a.contains x

/-- Structural equality of two nodes; an identity that is not in use equals
    none. -/
def equals (a : Arena) (x y : NodeId) (withAttributes : Bool) : Bool :=
  match a.tree? x, a.tree? y with
  | some t, some u => t.equals withAttributes u
  | _, _ => false

/-- The names of the variables that occur free in a node, ascending and each
    once. -/
def freeVariables (a : Arena) (id : NodeId) : List String :=
  ((a.tree? id).map Tree.freeVariables).getD []

/-! ## Texts and values -/

/-- The shape of a node, if it is there and no slot that must be full is empty. -/
def toShape (a : Arena) (id : NodeId) : Except Error Json :=
  match a.tree? id with
  | some t => t.toShape
  | none => .error (.refused .staleNode)

/-- The JSON text of a node. -/
def encode (a : Arena) (id : NodeId) : Except Error String := do
  let shape ← a.toShape id
  return shape.compact

/-- The compact text of a node; a node that is not there is a missing part. -/
def compact (a : Arena) (id : NodeId) : String :=
  String.ofList (((a.tree? id).map Tree.compactChars).getD missingPart)

/-- The XML element of a node. -/
def toXml (a : Arena) (id : NodeId) : Except Error Xml.Element :=
  match a.tree? id with
  | some t => t.toXml
  | none => .error (.refused (.noXml (a.compact id)))

/-- The document that is written for a node, plain or with colours. -/
def xmlDocument (a : Arena) (id : NodeId) : Except Error (Document Xml.Style) := do
  let element ← a.toXml id
  return element.document

/-- The XML text of a node. -/
def xmlString (a : Arena) (r : Renderer Xml.Style) (id : NodeId) : Except Error String := do
  let d ← a.xmlDocument id
  return String.ofList (d.plain r 80)

/-- The XML text of a node with colours, for a line width. -/
def xmlRender (a : Arena) (r : Renderer Xml.Style) (t : Terminal) (width : Nat) (id : NodeId) :
    Except Error String := do
  let d ← a.xmlDocument id
  return String.ofList (d.coloured r t Xml.Style.colorSpec width)

/-- What a node evaluates to; one that is not there has no value. -/
def evaluate (a : Arena) (id : NodeId) : Evaluation :=
  match a.tree? id with
  | some t => t.evaluate
  | none => Evaluation.failed {} (a.compact id)

/-! ## Walking -/

/-- The nodes on a stack and the structural nodes below them, from the top of the
    stack down; identities that are not in use are skipped. -/
def walk (a : Arena) (stack : List NodeId) : Option (List NodeId) :=
  match stack with
  | [] => some []
  | id :: stack =>
    match a.node? id with
    | none => a |>.walk stack
    | some n => do
      let ids ← a |>.walk (n.content.structural ++ stack)
      return id :: ids
partial_fixpoint

/-- A node and the structural nodes below it, from the top down. -/
def descendants (a : Arena) (id : NodeId) : List NodeId := (a.walk [id]).getD []

/-- The structural parts of a node that pass a test. -/
def childrenWhere (a : Arena) (id : NodeId) (accept : NodeId → Bool) : List NodeId :=
  (((a.node? id).map (·.content.structural)).getD []).filter fun c => a.contains c && accept c

/-- The nodes among a node and those below it that pass a test. -/
def descendantsWhere (a : Arena) (id : NodeId) (accept : NodeId → Bool) : List NodeId :=
  (a.descendants id).filter accept

/-- Whether a node or one below it passes a test. -/
def hasDescendantWhere (a : Arena) (id : NodeId) (accept : NodeId → Bool) : Bool :=
  (a.descendants id).any accept

end OpenMath.Arena
