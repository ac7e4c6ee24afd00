/-
  Edits of an arena.

  An edit first looks up the slot that a node is in, then writes that slot, and
  then puts the link upwards in step with it.  A node keeps its identity when it
  is detached or put elsewhere, and gives it up only when its tree is discarded.

  * `Node.write?`: a slot of a node overwritten or emptied;
  * `Arena.remove`: detaches a node from its owner;
  * `Arena.replaceWith`: puts a node into the slot of another;
  * `Arena.setAttribute`, `Arena.removeAttribute`: the attributes of a node;
  * `Arena.discard`: frees a detached tree.
-/
import OpenMath.Arena.Navigation

namespace OpenMath

/-! ## Writing a slot -/

/-- A list with another item at a position, or without the item there; there is
    none if the position is not in the list. -/
def writeItem? {α : Type} (xs : List α) (i : Nat) (x : Option α) : Option (List α) :=
  if i < xs.length then
    match x with
    | some y => some (xs.set i y)
    | none => some (xs.eraseIdx i)
  else none

/-- A content with another part in a slot, or with the slot emptied; there is none
    if the content has no such slot. -/
def Content.write? {α : Type} : Content α → Location → Option α → Option (Content α)
  | application cs, .child i, x => (writeItem? cs i x).map application
  | error h cs, .child i, x => (writeItem? cs i x).map (error h)
  | binding h vs b, .bound i, x => (writeItem? vs i x).map fun vs => binding h vs b
  | binding _ vs b, .head, x => some (binding x vs b)
  | error _ cs, .head, x => some (error x cs)
  | binding h vs _, .body, x => some (binding h vs x)
  | _, _, _ => none

/-- Attributes with another value for the first entry whose key agrees, or
    without that entry; there are none if there is no such entry. -/
def writeValue? {α : Type} (as : List (Symbol × α)) (key : Symbol) (x : Option α) :
    Option (List (Symbol × α)) := do
  let i ← as.findIdx? fun e => e.1.sameKey key
  match x with
  | some y => return as.modify i fun e => (e.1, y)
  | none => return as.eraseIdx i

/-- A node with another node in a slot, or with the slot emptied. -/
def Node.write? (n : Node) (l : Location) (x : Option NodeId) : Option Node :=
  match l with
  | .attr key => (writeValue? n.attributes key x).map fun attributes => { n with attributes }
  | l => (n.content.write? l x).map fun content => { n with content }

namespace Arena

/-- Overwrites or empties a slot of a node, if the node has it. -/
def writeSlot? (a : Arena) (owner : NodeId) (l : Location) (x : Option NodeId) : Option Arena := do
  let n ← a.node? owner
  let n ← n.write? l x
  return a.put owner n

/-! ## Detaching and freeing -/

/-- Detaches a node, which becomes a root; says whether it was attached. -/
def remove (a : Arena) (id : NodeId) : Bool × Arena :=
  match a.parent? id with
  | none => (false, a)
  | some owner =>
    match (a.locationIn? owner id).bind fun l => a.writeSlot? owner l none with
    | none => (false, a)
    | some b => (true, b.setParent id none)

/-- Frees the nodes on a stack and all that they own; identities that are not in
    use are skipped. -/
def freeAll (a : Arena) (stack : List NodeId) : Arena :=
  match stack with
  | [] => a
  | id :: stack =>
    match _h : a.node? id with
    | none => a.freeAll stack
    | some n => (a.free id).freeAll (n.owned ++ stack)
termination_by (a.size, stack.length)
decreasing_by
  · exact Prod.Lex.right _ (by simp)
  · exact Prod.Lex.left _ _ (size_free_lt _h)

/-- Frees a detached tree; what is not there needs no freeing. -/
def discard (id : NodeId) : Edit Unit := do
  let a ← get
  match a.node? id with
  | none => return ()
  | some n =>
    if n.parent.isSome then throw (.refused .discardAttached)
    set (a.freeAll [id])

/-! ## Replacing -/

/-- The refusal to put a node of some kind into a slot. -/
def admissionFault? (role : Role) (k : Kind) : Option Refusal :=
  if role.admits k then none
  else match role with
    | .head => some .headNeedsSymbol
    | _ => some .boundNeedsVar

/-- Puts a detached node into the slot of another, which becomes a root. -/
def install (a : Arena) (owner id other : NodeId) (l : Location) : Option NodeId × Arena :=
  match a.writeSlot? owner l (some other) with
  | none => (none, a)
  | some b => (some id, (b.setParent other (some owner)).setParent id none)

/-- Puts a node, taken from wherever it is, into the slot of another, which
    becomes a root and is the result.  Nothing happens if the two are one, if one
    of them is not there, or if there is no slot. -/
def replaceWith (id other : NodeId) : Edit (Option NodeId) := do
  let a ← get
  if id = other then return none
  match a.kind? other, a.parent? id with
  | some k, some owner =>
    match a.locationIn? owner id with
    | none => return none
    | some l =>
      if let some fault := admissionFault? l.role k then throw (.refused fault)
      if a.isAncestorOrSelf other id then throw (.refused .replaceByAncestor)
      let b := (a.remove other).2
      -- what is detached may have been an earlier sibling
      modifyGet fun _ => b.install owner id other ((b.locationIn? owner id).getD l)
  | _, _ => return none

/-! ## Attributes -/

/-- Detaches the value of an attribute, which becomes a root and is the
    result. -/
def removeAttribute (a : Arena) (id : NodeId) (key : Symbol) : Option NodeId × Arena :=
  match a.getAttribute? id key with
  | some value => (some value, (a.remove value).2)
  | none => (none, a)

/-- Adds a detached node as the last attribute of a node. -/
def attach (a : Arena) (id : NodeId) (key : Symbol) (value : NodeId) : Arena :=
  let b := match a.node? id with
    | some n => a.put id { n with attributes := n.attributes ++ [(key, value)] }
    | none => a
  b.setParent value (some id)

/-- Attaches a node, taken from wherever it is, as the value of an attribute.
    The value that the key had before becomes a root and is the result, unless it
    is the same node. -/
def setAttribute (id : NodeId) (key : Symbol) (value : NodeId) : Edit (Option NodeId) := do
  let a ← get
  if !a.contains id || !a.contains value then throw (.refused .attributeStale)
  if a.isAncestorOrSelf value id then throw (.refused .attributeCycle)
  let (previous, b) := a.removeAttribute id key
  set ((b.remove value).2.attach id key value)
  return previous.filter (· != value)

end Arena

end OpenMath
