/-
  Capture-avoiding substitution.

  What is to be replaced and what replaces it are copied first, so that either
  may be part of the tree that is rewritten.  Then the tree is walked from the
  top.  A node that equals what is to be replaced, and that is free where it
  stands, gives way to a copy of the replacement, if that may stand in its slot;
  if it may not, the node is kept with all that it owns.  Below any other node
  the walk goes on in the head, the body, the bound variables and the children,
  as they were when it came to the node.

  * `Exchange`: what is replaced, and by what, with the walk `Exchange.run`;
  * `Arena.replaceFreeWithin`: the copies, the walk, and the end of the copies;
  * `Arena.replaceFree`: the same where only bindings at or below the node count.
-/
import OpenMath.Arena.Construction
import OpenMath.Arena.Scope

namespace OpenMath.Arena

/-- The parts of a content in the order in which they are rewritten. -/
def visited {α : Type} (c : Content α) : List α :=
  c.head?.toList ++ c.body?.toList ++ c.bound ++ c.children

/-- Puts a copy of a replacement in the place of a node, which is discarded; a
    root is left alone.  The result is the copy. -/
def substituteAt (id replacement : NodeId) : Edit NodeId := do
  let copied ← copy replacement
  let a ← get
  if (a.parent? id).isNone then return copied
  match ← replaceWith id copied with
  | some displaced => discard displaced
  | none => pure ()
  return copied

/-- What is replaced, and by what; bindings count up to a given node, or all the
    way up. -/
structure Exchange where
  target : NodeId
  replacement : NodeId
  upto : Option NodeId

/-- Replaces the free occurrences of the target below a node, where neither the
    target nor the replacement is below it.  The result is the node that is then
    in the place of the given one. -/
def Exchange.run (x : Exchange) (id : NodeId) : Edit NodeId := do
  let a ← get
  if a.equals id x.target true && a.isFree id x.upto then
    if a.isFreeToReplace x.replacement id x.upto then substituteAt id x.replacement else return id
  else
    match a.node? id with
    | none => return id
    | some n =>
      (visited n.content).forM fun part => do
        let _ ← x |>.run part
      return id
partial_fixpoint

/-- Replaces the free occurrences of one node below another by copies of a
    third, where bindings count up to a given node.  What is replaced and what
    replaces it are read before anything changes; if one of them is not there,
    nothing happens. -/
def replaceFreeWithin (id target replacement : NodeId) (upto : Option NodeId) : Edit NodeId := do
  let a ← get
  if !a.contains target || !a.contains replacement then return id
  let target ← copy target
  match ← observing (copy replacement) with
  | .error e =>
    discard target
    throw e
  | .ok replacement =>
    -- an identity that is not in use is none of those that the copies were given
    let walk := if a.contains id then Exchange.run ⟨target, replacement, upto⟩ id else pure id
    let result ← observing walk
    discard target
    discard replacement
    liftExcept result

/-- Replaces the free occurrences of one node below another, where only bindings
    at or below the latter count. -/
def replaceFree (id target replacement : NodeId) : Edit NodeId :=
  replaceFreeWithin id target replacement (some id)

end OpenMath.Arena
