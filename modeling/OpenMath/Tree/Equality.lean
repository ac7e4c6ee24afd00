/-
  Structural equality of trees.

  Two trees are equal if their nodes agree in kind and payload and their owned
  trees are equal slot by slot.  Floats agree as numbers.  Attributes count only
  on demand, and then as maps: their order and the uris of their keys play no
  part.

  * `Tree.equals`: the test, for trees with labels of any two types;
  * `equals_node`: its equation at a node.
-/
import OpenMath.Tree.Basic

namespace OpenMath

namespace Tree

variable {ι κ β : Type}

/-! ## Comparing slots -/

/-- Tests and values in equal number, each test passed by its value. -/
def passAll (tests : List (β → Bool)) (values : List β) : Bool :=
  tests.length == values.length && (tests.zip values).all fun p => p.1 p.2

/-- A test and a value, or neither. -/
def passOptional : Option (β → Bool) → Option β → Bool
  | none, none => true
  | some test, some value => test value
  | _, _ => false

/-- As many tests as values, each test passed by the first value whose key
    agrees with its own. -/
def passKeyed (tests : List (Symbol × (β → Bool))) (values : List (Symbol × β)) : Bool :=
  tests.length == values.length &&
    tests.all fun t =>
      match values.find? fun v => t.1.sameKey v.1 with
      | some v => t.2 v.2
      | none => false

/-! ## Equality -/

/-- The comparison of a node, given the comparisons of its owned trees, with
    another tree. -/
def equalsStep (withAttributes : Bool) (k : Kind) (ss : Slots (Tree κ → Bool)) (u : Tree κ) :
    Bool :=
  k.agrees u.kind &&
    passAll ss.children u.children && passOptional ss.head? u.head? &&
    passAll ss.bound u.bound && passOptional ss.body? u.body? &&
    (!withAttributes || passKeyed ss.attributes u.attributes)

/-- Structural equality, with or without attributes. -/
def equals (withAttributes : Bool) : Tree ι → Tree κ → Bool :=
  fold fun _ k ss => equalsStep withAttributes k ss

/-- Equality at a node. -/
theorem equals_node (withAttributes : Bool) (l : ι) (k : Kind) (ss : Slots (Tree ι)) :
    equals (κ := κ) withAttributes (.node l k ss) =
      equalsStep withAttributes k (ss.mapContent (equals withAttributes)) := by
  rw [equals, fold_node]

end Tree

end OpenMath
