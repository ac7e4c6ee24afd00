/-
  Trees without attributes.

  What is read off the structure of a tree is a recursion that looks at the structural
  slots only, so that it has the same result when all attributes are left out.

  * `Tree.bare`: the tree without attributes, at any depth;
  * `recurse_bare`: a recursion whose step does not look at attributes;
  * `compactChars_bare`, `freeVariables_bare`, `evaluate_bare`, `toXml_bare`,
    `equals_bare`: those that there are.
-/
import OpenMath.Evaluation
import OpenMath.Proofs.Tree.Shaped
import OpenMath.Xml

namespace OpenMath

/-- Whether a slot is that of an attribute. -/
def Role.isAttr : Role → Bool
  | .attr _ => true
  | _ => false

/-! ## Slots -/

namespace Slots

variable {α β : Type}

/-- The slots that are not of attributes. -/
def bare (ss : Slots α) : Slots α := ss.filter fun s => !s.role.isAttr

theorem withRole_bare {r : Role} (hr : r.isAttr = false) (ss : Slots α) :
    ss.bare.withRole r = ss.withRole r := by
  rw [bare, withRole, withRole, List.filterMap_filter]
  refine List.filterMap_congr fun s _ => ?_
  by_cases h : s.role = r
  · simp [h, hr]
  · simp [h]

section
variable (ss : Slots α)

@[simp] theorem children_bare : ss.bare.children = ss.children := withRole_bare rfl ss

@[simp] theorem bound_bare : ss.bare.bound = ss.bound := withRole_bare rfl ss

@[simp] theorem head?_bare : ss.bare.head? = ss.head? :=
  congrArg List.head? (withRole_bare rfl ss)

@[simp] theorem body?_bare : ss.bare.body? = ss.body? :=
  congrArg List.head? (withRole_bare rfl ss)

theorem bare_mapContent (f : α → β) : (ss.mapContent f).bare = ss.bare.mapContent f := by
  rw [bare, mapContent, List.filter_map]
  rfl

theorem withRole_mapContent (f : α → β) (r : Role) :
    (ss.mapContent f).withRole r = (ss.withRole r).map f := by
  rw [withRole, withRole, mapContent, List.filterMap_map, List.map_filterMap]
  refine List.filterMap_congr fun s _ => ?_
  by_cases h : s.role = r <;> simp [Slot.map, h]

@[simp] theorem children_mapContent (f : α → β) :
    (ss.mapContent f).children = ss.children.map f := ss.withRole_mapContent f .child

@[simp] theorem bound_mapContent (f : α → β) : (ss.mapContent f).bound = ss.bound.map f :=
  ss.withRole_mapContent f .bound

@[simp] theorem head?_mapContent (f : α → β) : (ss.mapContent f).head? = ss.head?.map f := by
  rw [head?, withRole_mapContent, List.head?_map]
  rfl

@[simp] theorem body?_mapContent (f : α → β) : (ss.mapContent f).body? = ss.body?.map f := by
  rw [body?, withRole_mapContent, List.head?_map]
  rfl

end

theorem bare_allSlots (c : Content α) (as : List (Symbol × α)) :
    (c.allSlots as).bare = c.slots := by
  have hattributes : (Content.attributeSlots as).bare = [] := by
    rw [bare, Content.attributeSlots, List.filter_map]
    simp [Function.comp_def, Role.isAttr]
  have hslots : bare c.slots = c.slots := List.filter_eq_self.2 fun s hs => by
    have := Content.role_ne_attr hs
    cases hr : s.role <;> simp_all [Role.isAttr]
  rw [Content.allSlots, bare, List.filter_append]
  exact (congrArg₂ (· ++ ·) hslots hattributes).trans (List.append_nil _)

end Slots

namespace Tree

variable {ι κ α : Type}

/-- The tree without attributes, at any depth. -/
def bare : Tree ι → Tree ι := fold fun l k ss => node l k ss.bare

theorem bare_eq (t : Tree ι) : t.bare = node t.label t.kind (t.slots.bare.mapContent bare) := by
  rw [bare, fold_eq, Slots.bare_mapContent]

@[simp] theorem label_bare (t : Tree ι) : t.bare.label = t.label := by rw [bare_eq, label_node]

@[simp] theorem kind_bare (t : Tree ι) : t.bare.kind = t.kind := by rw [bare_eq, kind_node]

theorem slots_bare (t : Tree ι) : t.bare.slots = t.slots.bare.mapContent bare := by
  rw [bare_eq, slots_node]

theorem bare_rooted (l : ι) (c : Content (Tree ι)) (as : List (Symbol × Tree ι)) :
    (rooted l c as).bare = rooted l (c.map bare) [] := by
  rw [bare_eq, slots_rooted, Slots.bare_allSlots]
  show node l c.kind (c.slots.mapContent bare) = node l (c.map bare).kind ((c.map bare).slots ++ [])
  rw [Content.kind_map, Content.slots_map, List.append_nil]

theorem namesOf_bare (ts : List (Tree ι)) : namesOf (ts.map bare) = namesOf ts :=
  namesOf_map fun t _ => t.kind_bare

/-- A recursion whose step has the same result without attributes, whatever its results for
    the owned trees are, has the same result for the tree without attributes. -/
theorem recurse_bare {step : Tree ι → Slots (Tree ι × α) → α}
    (h : ∀ t ss, step t.bare (ss.bare.mapContent fun p => (p.1.bare, p.2)) = step t ss)
    (t : Tree ι) : recurse step t.bare = recurse step t := by
  induction t using Tree.induction with
  | node l k ss ih =>
    have hslots : (Slots.bare ss).mapContent (fun u => (u.bare, recurse step u.bare)) =
        (Slots.bare ss).mapContent fun u => (u.bare, recurse step u) :=
      List.map_congr_left fun s hs => by
        rw [Slot.map, Slot.map, ih s (List.mem_of_mem_filter hs)]
    have hstep := h (node l k ss) (Slots.mapContent (fun u => (u, recurse step u)) ss)
    rw [Slots.bare_mapContent, Slots.mapContent_mapContent, ← hslots] at hstep
    rw [recurse_eq step (bare _), slots_bare, Slots.mapContent_mapContent]
    exact hstep.trans (recurse_eq step _).symm

/-! ## What does not look at attributes -/

theorem compactChars_bare (t : Tree ι) : t.bare.compactChars = t.compactChars := by
  refine recurse_bare (fun t ss => ?_) t
  cases hk : t.kind <;> simp [compactStep, hk, Slots.mapContent_mapContent]

theorem compact_bare (t : Tree ι) : t.bare.compact = t.compact :=
  congrArg String.ofList t.compactChars_bare

theorem freeVariables_bare (t : Tree ι) : t.bare.freeVariables = t.freeVariables := by
  refine congrArg Text.sorted (recurse_bare (fun t ss => ?_) t)
  have hbound : namesOf (ss.bound.map fun p => p.1.bare) = namesOf (ss.bound.map (·.1)) := by
    rw [← namesOf_bare (ss.bound.map (·.1)), List.map_map]
    rfl
  rw [kind_bare]
  cases t.kind <;> simp [freeNamesStep, hbound, Function.comp_def]

theorem evaluate_bare (t : Tree ι) : t.bare.evaluate = t.evaluate := by
  refine recurse_bare (fun t ss => ?_) t
  have hnode : evaluateNode t.kind (ss.bare.mapContent fun p => (p.1.bare, p.2)) =
      evaluateNode t.kind ss := by
    rw [evaluateNode.eq_def, evaluateNode.eq_def]
    simp only [Slots.children_mapContent, Slots.children_bare]
    cases t.kind with
    | application =>
      cases ss.children with
      | nil => rfl
      | cons head operands => simp [compact_bare, Function.comp_def]
    | _ => rfl
  rw [evaluateStep, evaluateStep, kind_bare, hnode, compact_bare]

theorem toXml_bare (t : Tree ι) : t.bare.toXml = t.toXml := by
  refine recurse_bare (fun t ss => ?_) t
  have hno {α : Type} : (noXml t.bare : Except Error α) = noXml t := by
    rw [noXml, noXml, compact_bare]
  have hrequired : requiredXml t.bare = requiredXml t := by
    funext e
    cases e
    · exact hno
    · rfl
  simp only [xmlStep, kind_bare, hno, hrequired, Slots.mapContent_mapContent,
    Slots.children_mapContent, Slots.children_bare, Slots.bound_mapContent, Slots.bound_bare,
    Slots.head?_mapContent, Slots.head?_bare, Slots.body?_mapContent, Slots.body?_bare]

/-- Equality without attributes does not look at those of the left tree. -/
theorem equals_bare (t : Tree ι) (u : Tree κ) : t.bare.equals false u = t.equals false u := by
  refine congrFun (recurse_bare (fun t ss => ?_) t) u
  funext u
  simp [equalsStep, Slots.mapContent_mapContent]

end Tree

end OpenMath
