/-
  Finding the way in an arena.

  Upwards the way leads along the nodes that own each other.  Which slot a node
  is in is not stored: it is looked up among the slots of its owner, children
  first, then bound variables, head, body and attributes; only a variable is
  looked for among the bound variables.

  * `Arena.root`, `Arena.isAncestorOrSelf`: loops that climb to the top;
  * `Arena.lineage?`: the nodes that such a loop passes;
  * `Node.location?`, `Arena.location?`: the slot that a node is in;
  * `Arena.address`, `Arena.index?`: the locations between two nodes, and the
    node to which they lead.
-/
import OpenMath.Arena.Basic

namespace OpenMath

/-! ## Slots of a node -/

/-- The location of a part; whether it is a variable has to be said, since nothing
    else is looked for among the bound variables. -/
def Content.location? (c : Content NodeId) (id : NodeId) (isVar : Bool) : Option Location :=
  (c.children.idxOf? id).map .child <|>
    (if isVar then (c.bound.idxOf? id).map .bound else none) <|>
    (if c.head? = some id then some .head else none) <|>
    (if c.body? = some id then some .body else none)

namespace Node

/-- What is at a location of a node. -/
def at? (n : Node) : Location → Option NodeId
  | .child i => n.content.children[i]?
  | .bound i => n.content.bound[i]?
  | .head => n.content.head?
  | .body => n.content.body?
  | .attr key => (n.attributes.find? fun e => e.1.sameKey key).map (·.2)

/-- The slot of a node in which another one is, those of attributes last. -/
def location? (n : Node) (id : NodeId) (isVar : Bool) : Option Location :=
  n.content.location? id isVar <|>
    (n.attributes.find? fun e => e.2 == id).map fun e => .attr e.1

end Node

namespace Arena

/-! ## Upwards -/

/-- The topmost node above a node, which may be the node itself. -/
def root (a : Arena) (id : NodeId) : NodeId :=
  match a.parent? id with
  | some p => a |>.root p
  | none => id
partial_fixpoint

/-- Whether a node is another one or above it. -/
def isAncestorOrSelf (a : Arena) (ancestor id : NodeId) : Bool :=
  if id = ancestor then true
  else match a.parent? id with
    | some p => a |>.isAncestorOrSelf ancestor p
    | none => false
partial_fixpoint

/-- The nodes above a node, the nearest one first; none if there is no end to
    them. -/
def lineage? (a : Arena) (id : NodeId) : Option (List NodeId) :=
  match a.parent? id with
  | some p => do
    let ps ← a |>.lineage? p
    return p :: ps
  | none => some []
partial_fixpoint

/-- Whether a node is there and is a variable. -/
def isVar (a : Arena) (id : NodeId) : Bool := (a.kind? id).any fun k => k.type == .var

/-- The slot of an owner that a node is in. -/
def locationIn? (a : Arena) (owner id : NodeId) : Option Location :=
  (a.node? owner).bind fun n => n.location? id (a.isVar id)

/-- The slot of its owner in which a node is; a root is in none. -/
def location? (a : Arena) (id : NodeId) : Option Location :=
  (a.parent? id).bind fun p => a.locationIn? p id

/-- The locations from a stop down to a node, in front of those that lead further
    down. -/
def climb (a : Arena) (stop : Option NodeId) (path : List Location) (id : NodeId) :
    List Location :=
  if stop = some id then path
  else match a.parent? id with
    | none => path
    | some p =>
      match a.locationIn? p id with
      | none => path
      | some l => a |>.climb stop (l :: path) p
partial_fixpoint

/-- The locations that lead from an ancestor down to a node; from the root, if
    no ancestor is given or what is given is none. -/
def address (a : Arena) (id : NodeId) (ancestor : Option NodeId) : List Location :=
  a.climb (ancestor.filter fun x => a.isAncestorOrSelf x id) [] id

/-! ## Downwards -/

/-- The node at a location of a node. -/
def childAt? (a : Arena) (id : NodeId) (l : Location) : Option NodeId :=
  (a.node? id).bind fun n => n.at? l

/-- The node to which an address leads down from a node. -/
def index? (a : Arena) (id : NodeId) (address : List Location) : Option NodeId :=
  address.foldlM a.childAt? id

/-- The value of an attribute of a node. -/
def getAttribute? (a : Arena) (id : NodeId) (key : Symbol) : Option NodeId :=
  (a.node? id).bind fun n => n.at? (.attr key)

end Arena

end OpenMath
