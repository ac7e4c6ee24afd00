/-
  Free variables.

  A variable is free in itself.  The free variables of an application or error
  are those of its children, the ones of a binding those of its body that it
  does not bind.  Head symbols, bound variables and attributes contribute
  nothing.

  * `Tree.freeNames`: the names of the free occurrences, in order;
  * `Tree.freeVariables`: the same as an ascending list without repetition;
  * `freeNames_eq`: the equation that they satisfy.
-/
import OpenMath.Tree.Basic
import OpenMath.Text.Separated

namespace OpenMath

namespace Tree

variable {ι : Type}

/-- The names that bound variables stand for. -/
def namesOf (vars : List (Tree ι)) : List String := vars.filterMap (·.kind.varName?)

/-- The names that the root binds. -/
def boundNames (t : Tree ι) : List String := namesOf t.bound

/-- The free names of a node, given those of its owned trees. -/
def freeNamesStep (k : Kind) (ss : Slots (Tree ι × List String)) : List String :=
  match k with
  | .var name => [name]
  | .application | .error => (ss.children.map (·.2)).flatten
  | .binding =>
    let bound := namesOf (ss.bound.map (·.1))
    ((ss.body?.map (·.2)).getD []).filter fun name => !bound.contains name
  | _ => []

/-- The names of the variables that occur free, in the order of occurrence. -/
def freeNames : Tree ι → List String := recurse fun t ss => freeNamesStep t.kind ss

/-- The names of the variables that occur free, ascending and each once. -/
def freeVariables (t : Tree ι) : List String := Text.sorted t.freeNames

theorem freeNames_eq (t : Tree ι) :
    t.freeNames = freeNamesStep t.kind (t.slots.mapContent fun u => (u, freeNames u)) := by
  rw [freeNames, recurse_eq]

theorem freeNames_var {t : Tree ι} {name : String} (h : t.kind = .var name) :
    t.freeNames = [name] := by
  rw [freeNames_eq, h, freeNamesStep]

theorem mem_freeVariables {t : Tree ι} {name : String} :
    name ∈ t.freeVariables ↔ name ∈ t.freeNames :=
  Text.mem_sorted

end Tree

end OpenMath
