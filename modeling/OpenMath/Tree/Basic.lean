/-
  Trees of objects.

  A tree is a node with a label, a kind, and the slots in which it owns other
  trees.  Each slot has a role; slots of one role keep their order.  Terms are
  trees without labels, and the trees of an arena are labelled by the identities
  of their nodes.

  Functions on trees are instances of one recursion: `recurse` passes a tree,
  and for each of its slots the tree in it and that tree's result; `fold` passes
  the results only.

  * `recurse_eq`, `fold_eq`: the equations of the two;
  * `Tree.induction`: a property that passes from the owned trees to their
    owner holds of every tree.
-/
import OpenMath.Kind

namespace OpenMath

/-! ## Slots -/

/-- A place in a node, with what is in it. -/
structure Slot (α : Type) where
  role : Role
  content : α
deriving DecidableEq

/-- The same place with other content. -/
def Slot.map {α β : Type} (f : α → β) (s : Slot α) : Slot β := ⟨s.role, f s.content⟩

/-- The places of a node, in order. -/
abbrev Slots (α : Type) := List (Slot α)

namespace Slots

variable {α β : Type}

/-- The same places with other contents. -/
def mapContent (f : α → β) (ss : Slots α) : Slots β := ss.map (Slot.map f)

theorem mapContent_mapContent {γ : Type} (f : α → β) (g : β → γ) (ss : Slots α) :
    (ss.mapContent f).mapContent g = ss.mapContent fun x => g (f x) := by
  simp [mapContent, Slot.map, Function.comp_def]

/-- The contents of all places. -/
def contents (ss : Slots α) : List α := ss.map (·.content)

/-- The contents of the places with a given role. -/
def withRole (ss : Slots α) (role : Role) : List α :=
  ss.filterMap fun s => if s.role = role then some s.content else none

/-- The children of an application or error. -/
def children (ss : Slots α) : List α := ss.withRole .child

/-- The bound variables of a binding. -/
def bound (ss : Slots α) : List α := ss.withRole .bound

/-- The head symbol of a binding or error. -/
def head? (ss : Slots α) : Option α := (ss.withRole .head).head?

/-- The body of a binding. -/
def body? (ss : Slots α) : Option α := (ss.withRole .body).head?

/-- The attributes, in the order in which they were added. -/
def attributes (ss : Slots α) : List (Symbol × α) :=
  ss.filterMap fun s => match s.role with
    | .attr key => some (key, s.content)
    | _ => none

end Slots

/-! ## Trees -/

/-- A node and the trees that it owns. -/
inductive Tree (ι : Type) where
  | node (label : ι) (kind : Kind) (slots : List (Slot (Tree ι)))

/-- A tree by itself, whose nodes have no identity. -/
abbrev Term := Tree Unit

namespace Tree

variable {ι κ α : Type}

/-- The label of the root; in an arena it is the id of the node. -/
def label : Tree ι → ι
  | node l _ _ => l

/-- The kind of the root, with its payload. -/
def kind : Tree ι → Kind
  | node _ k _ => k

/-- The slots of the root, attributes among them. -/
def slots : Tree ι → Slots (Tree ι)
  | node _ _ ss => ss

/-- The arguments in the root, in order. -/
def children (t : Tree ι) : List (Tree ι) := t.slots.children

/-- The bound variables of a binding, in order. -/
def bound (t : Tree ι) : List (Tree ι) := t.slots.bound

/-- The head of a binding or an error, unless its slot is empty. -/
def head? (t : Tree ι) : Option (Tree ι) := t.slots.head?

/-- The body of a binding, unless its slot is empty. -/
def body? (t : Tree ι) : Option (Tree ι) := t.slots.body?

/-- The attributes of the root, in the order in which they were set. -/
def attributes (t : Tree ι) : List (Symbol × Tree ι) := t.slots.attributes

/-! ## Recursion -/

mutual

/-- Recursion on trees: `step` sees a tree, and in each of its slots the tree
    that is there and the result for that tree. -/
def recurse (step : Tree ι → Slots (Tree ι × α) → α) : Tree ι → α
  | node l k ss => step (node l k ss) (recurseSlots step ss)

/-- The trees in the slots, with their results. -/
def recurseSlots (step : Tree ι → Slots (Tree ι × α) → α) :
    List (Slot (Tree ι)) → Slots (Tree ι × α)
  | [] => []
  | ⟨r, t⟩ :: ss => ⟨r, (t, recurse step t)⟩ :: recurseSlots step ss

end

/-- Recursion that does not look at the owned trees themselves. -/
def fold (step : ι → Kind → Slots α → α) : Tree ι → α :=
  recurse fun t ss => step t.label t.kind (ss.mapContent (·.2))

theorem recurseSlots_eq (step : Tree ι → Slots (Tree ι × α) → α) (ss : Slots (Tree ι)) :
    recurseSlots step ss = ss.mapContent fun t => (t, recurse step t) := by
  induction ss with
  | nil => rfl
  | cons s ss ih => cases s; simp [recurseSlots, ih, Slots.mapContent, Slot.map]

/-- The recursion at a tree. -/
theorem recurse_eq (step : Tree ι → Slots (Tree ι × α) → α) (t : Tree ι) :
    recurse step t = step t (t.slots.mapContent fun u => (u, recurse step u)) := by
  cases t with
  | node l k ss => rw [recurse, recurseSlots_eq]; rfl

theorem fold_eq (step : ι → Kind → Slots α → α) (t : Tree ι) :
    fold step t = step t.label t.kind (t.slots.mapContent (fold step)) := by
  rw [fold, recurse_eq, Slots.mapContent_mapContent]

theorem fold_node (step : ι → Kind → Slots α → α) (l : ι) (k : Kind) (ss : Slots (Tree ι)) :
    fold step (node l k ss) = step l k (ss.mapContent (fold step)) :=
  fold_eq step (node l k ss)

mutual

/-- A property that passes from the owned trees to their owner holds of every
    tree. -/
theorem induction {P : Tree ι → Prop}
    (node : ∀ l k (ss : Slots (Tree ι)), (∀ s ∈ ss, P s.content) → P (.node l k ss)) :
    ∀ t, P t
  | .node l k ss => node l k ss (inductionSlots node ss)

theorem inductionSlots {P : Tree ι → Prop}
    (node : ∀ l k (ss : Slots (Tree ι)), (∀ s ∈ ss, P s.content) → P (.node l k ss)) :
    ∀ (ss : List (Slot (Tree ι))), ∀ s ∈ ss, P s.content
  | [], _, h => nomatch h
  | ⟨_, t⟩ :: ss, s, h =>
    match List.mem_cons.1 h with
    | .inl e => e ▸ induction node t
    | .inr h => inductionSlots node ss s h

end

/-! ## Labels -/

/-- The labels of all nodes, attribute values included, from the top down. -/
def labels : Tree ι → List ι := fold fun l _ ss => l :: ss.contents.flatten

/-- The tree with other labels. -/
def mapLabels (f : ι → κ) : Tree ι → Tree κ := fold fun l k ss => node (f l) k ss

/-- The tree without labels. -/
def toTerm (t : Tree ι) : Term := t.mapLabels fun _ => ()

@[simp] theorem label_node (l : ι) (k : Kind) (ss : Slots (Tree ι)) : (node l k ss).label = l := rfl

@[simp] theorem kind_node (l : ι) (k : Kind) (ss : Slots (Tree ι)) : (node l k ss).kind = k := rfl

@[simp] theorem slots_node (l : ι) (k : Kind) (ss : Slots (Tree ι)) : (node l k ss).slots = ss := rfl

theorem labels_node (l : ι) (k : Kind) (ss : Slots (Tree ι)) :
    (node l k ss).labels = l :: ss.flatMap fun s => s.content.labels := by
  rw [labels, fold_node]
  simp [Slots.contents, Slots.mapContent, Slot.map, List.flatMap, Function.comp_def]

theorem label_mem_labels (t : Tree ι) : t.label ∈ t.labels := by
  cases t; simp [labels_node]

theorem mapLabels_node (f : ι → κ) (l : ι) (k : Kind) (ss : Slots (Tree ι)) :
    (node l k ss).mapLabels f = node (f l) k (ss.mapContent (mapLabels f)) := by
  rw [mapLabels, fold_node]

end Tree

end OpenMath
