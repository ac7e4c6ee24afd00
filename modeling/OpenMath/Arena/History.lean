/-
  Arenas as they come about.

  An arena starts without nodes, and is changed by commands only.  A command may
  be given any identities, whether they are in use or not, and may fail; the
  arena that it leaves behind then is one that goes on.

  * `Command`: the changes that there are, with `Command.run`;
  * `Arena.Reachable`: the arenas that commands lead to.
-/
import OpenMath.Arena.Substitution
import OpenMath.Compact.Parser

namespace OpenMath

/-- A change of an arena, with its arguments. -/
inductive Command where
  | decode (text : String)
  | decodeShape (shape : Json)
  | parse (text : String)
  | integer (v : Integer)
  | float (x : Double)
  | string (s : String)
  | bytes (bs : List UInt8)
  | symbol (name cd : String) (uri : Option String)
  | var (name : String)
  | application (nodes : List NodeId)
  | binding (head : NodeId) (bound : List NodeId) (body : NodeId)
  | error (head : NodeId) (nodes : List NodeId)
  | attribution (node : NodeId) (entries : List (NodeId × NodeId))
  | copy (id : NodeId)
  | discard (id : NodeId)
  | remove (id : NodeId)
  | replaceWith (id other : NodeId)
  | setAttribute (id : NodeId) (key : Symbol) (value : NodeId)
  | removeAttribute (id : NodeId) (key : Symbol)
  | replaceFree (id target replacement : NodeId)
  | replaceFreeWithin (id target replacement : NodeId) (upto : Option NodeId)

/-- An operation, its result left aside. -/
def Edit.effect {α : Type} (x : Edit α) : Edit Unit := do
  let _ ← x
  return ()

/-- What a command does, its result left aside. -/
def Command.run : Command → Edit Unit
  | decode text => Edit.effect (Arena.decode text)
  | decodeShape shape => Edit.effect (Arena.decodeShape shape)
  | parse text => Edit.effect (Arena.parse text)
  | integer v => Edit.effect (Arena.integer v)
  | float x => Edit.effect (Arena.float x)
  | string s => Edit.effect (Arena.string s)
  | bytes bs => Edit.effect (Arena.bytes bs)
  | symbol name cd uri => Edit.effect (Arena.symbol name cd uri)
  | var name => Edit.effect (Arena.var name)
  | application nodes => Edit.effect (Arena.application nodes)
  | binding head bound body => Edit.effect (Arena.binding head bound body)
  | error head nodes => Edit.effect (Arena.error head nodes)
  | attribution node entries => Edit.effect (Arena.attribution node entries)
  | copy id => Edit.effect (Arena.copy id)
  | discard id => Arena.discard id
  | remove id => Edit.effect (modifyGet fun a => a.remove id)
  | replaceWith id other => Edit.effect (Arena.replaceWith id other)
  | setAttribute id key value => Edit.effect (Arena.setAttribute id key value)
  | removeAttribute id key => Edit.effect (modifyGet fun a => a.removeAttribute id key)
  | replaceFree id target replacement => Edit.effect (Arena.replaceFree id target replacement)
  | replaceFreeWithin id target replacement upto =>
    Edit.effect (Arena.replaceFreeWithin id target replacement upto)

/-- The arenas that come about from the empty one by commands, whether these have
    results or fail. -/
inductive Arena.Reachable : Arena → Prop
  | empty : Reachable .empty
  | step {a b : Arena} {c : Command} {r : Except Error Unit} :
    Reachable a → c.run a = some (r, b) → Reachable b

end OpenMath
