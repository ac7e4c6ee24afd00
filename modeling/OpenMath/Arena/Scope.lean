/-
  Which names are bound where.

  A binding binds the names of its variables in all of its slots.  Whether a
  name is bound at a node is found out by climbing from the node, past the
  bindings above it, no further than a given node.

  * `Arena.boundNames`: the names that a node binds, where one bound variable may
    be taken to be another one;
  * `Arena.isCaptured`: the search upwards;
  * `Arena.isFree`: whether no free variable of a node is bound there;
  * `Arena.isFreeToReplace`: whether another node could stand in a slot without
    having a free variable bound;
  * `Arena.occursFree`: whether a tree occurs free inside a node.
-/
import OpenMath.Arena.Navigation
import OpenMath.Arena.Reading

namespace OpenMath

/-- A slot for a bound variable whose content is taken to have another name. -/
structure Override where
  binding : NodeId
  index : Nat
  name : String

namespace Arena

/-! ## Bound names -/

/-- The name of a variable. -/
def varName? (a : Arena) (id : NodeId) : Option String := (a.kind? id).bind Kind.varName?

/-- The name in the slot of a bound variable. -/
def boundName? (a : Arena) (binding : NodeId) (override : Option Override) (var : NodeId × Nat) :
    Option String :=
  match override with
  | some o =>
    if o.binding = binding ∧ o.index = var.2 then some o.name else a.varName? var.1
  | none => a.varName? var.1

/-- The names that a node binds. -/
def boundNames (a : Arena) (id : NodeId) (override : Option Override) : List String :=
  match a.node? id with
  | some n => n.content.bound.zipIdx.filterMap (a.boundName? id override)
  | none => []

/-- Whether a node is a binding. -/
def isBinding (a : Arena) (id : NodeId) : Bool := a.kind? id == some .binding

/-- Whether a binding on the way up from a node, which is included, binds one of
    several names.  The way ends at a given node, which is included too. -/
def isCaptured (a : Arena) (names : List String) (upto : Option NodeId)
    (override : Option Override) (start : Option NodeId) : Bool :=
  match start with
  | none => false
  | some id =>
    if a.isBinding id && names.any (a.boundNames id override).contains then true
    else if upto = some id then false
    else a |>.isCaptured names upto override (a.parent? id)
partial_fixpoint

/-! ## Freeness -/

/-- Whether no free variable of a node is bound above it, looking no further up
    than a given node. -/
def isFree (a : Arena) (id : NodeId) (upto : Option NodeId) : Bool :=
  upto == some id || !a.isCaptured (a.freeVariables id) upto none (a.parent? id)

/-- The slot whose variable a replacement would rename. -/
def overrideOf (owner : NodeId) (l : Location) (k : Kind) : Option Override :=
  match l, k with
  | .bound i, .var name => some ⟨owner, i, name⟩
  | _, _ => none

/-- Whether a node could take the place of another without a free variable of it
    being bound there, looking no further up than a given node. -/
def isFreeToReplace (a : Arena) (replacement subtree : NodeId) (upto : Option NodeId) : Bool :=
  if replacement = subtree then true
  else match a.parent? subtree with
    | none => true
    | some owner =>
      match a.locationIn? owner subtree, a.kind? replacement with
      | none, _ => true
      | some _, none => false
      | some l, some k =>
        l.role.admits k &&
          (upto == some subtree ||
            !a.isCaptured (a.freeVariables replacement) upto (overrideOf owner l k) (some owner))

/-! ## Occurrences -/

/-- Whether a node or one of its structural trees passes a test, head symbols and
    bound variables being left out; head symbols have a test of their own. -/
def searchStep (here head : Tree NodeId → Bool) (t : Tree NodeId)
    (ss : Slots (Tree NodeId × Bool)) : Bool :=
  here t || ss.head?.any (fun s => head s.1) || ss.body?.any (·.2) || ss.children.any (·.2)

/-- Whether a target occurs free in a node, with respect to its whole tree.  An
    equal head symbol counts without further ado. -/
def occursFree (a : Arena) (id target : NodeId) : Bool :=
  match a.tree? id with
  | some t =>
    let isTarget := fun u : Tree NodeId => a.equals u.label target true
    t.recurse fun u ss => searchStep (fun u => isTarget u && a.isFree u.label none) isTarget u ss
  | none => false

end Arena

end OpenMath
