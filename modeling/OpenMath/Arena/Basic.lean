/-
  Arenas: nodes that refer to each other by their identities.

  An arena holds the nodes of any number of trees.  A node names the nodes that
  are its parts and the values of its attributes, and the node that owns it, if
  it is attached.  The two directions are stored apart, and every operation has
  to keep them in step.

  An identity is a place in the arena.  A place that is given up stays empty, so
  that an identity that went stale is never in use again.

  * `Arena.node?`: the node of an identity, which is what there is to see of an
    arena;
  * `Arena.put`, `Arena.setParent`, `Arena.free`, `Arena.insert`: the changes
    that all others are made of, each with its effect on `node?`;
  * `Edit`: operations that may fail, and that leave an arena behind even then.
-/
import OpenMath.Location.Basic
import OpenMath.Tree.Content

namespace OpenMath

/-- The place of a node, by which it is known; no place is used twice. -/
abbrev NodeId := Nat

/-! ## Nodes -/

/-- A node of an arena: its content with its parts, its attributes in the order
    in which they were added, and the node that owns it. -/
structure Node where
  content : Content NodeId
  attributes : List (Symbol × NodeId) := []
  parent : Option NodeId := none
deriving DecidableEq

namespace Node

/-- The kind of a node, with its payload. -/
def kind (n : Node) : Kind := n.content.kind

/-- The nodes that a node owns: its parts, and then the values of its
    attributes. -/
def owned (n : Node) : List NodeId := n.content.structural ++ n.attributes.map (·.2)

/-- What a node owns, with the roles that it plays. -/
def slots (n : Node) : Slots NodeId := n.content.allSlots n.attributes

theorem contents_slots (n : Node) : n.slots.contents = n.owned :=
  Content.contents_allSlots ..

theorem mem_owned_of_slot {n : Node} {s : Slot NodeId} (h : s ∈ n.slots) : s.content ∈ n.owned :=
  n.contents_slots ▸ List.mem_map_of_mem h

theorem mem_owned_of_bound {n : Node} {x : NodeId} (h : x ∈ n.content.bound) : x ∈ n.owned :=
  List.mem_append_left _ (Content.mem_structural_of_bound h)

end Node

/-! ## Arenas -/

/-- The places of nodes; an empty place has been given up. -/
structure Arena where
  places : Array (Option Node) := #[]

namespace Arena

/-- The arena without nodes, in which every run starts. -/
def empty : Arena := {}

/-- The node of an identity, if that is in use. -/
def node? (a : Arena) (id : NodeId) : Option Node := a.places[id]?.join

/-- Whether there is a node with an id; ids of freed nodes are stale for ever. -/
def contains (a : Arena) (id : NodeId) : Bool := (a.node? id).isSome

/-- The number of nodes that are there. -/
def size (a : Arena) : Nat := a.places.countP Option.isSome

/-- Whether no node is there; freed places may be left. -/
def isEmpty (a : Arena) : Bool := a.size == 0

/-- The first identity that was never given. -/
def next (a : Arena) : NodeId := a.places.size

/-- The kind of a node, if it is there. -/
def kind? (a : Arena) (id : NodeId) : Option Kind := (a.node? id).map (·.kind)

/-- The owner of a node, if it is there and has one. -/
def parent? (a : Arena) (id : NodeId) : Option NodeId := (a.node? id).bind (·.parent)

/-- Puts a node in the place of another. -/
def put (a : Arena) (id : NodeId) (n : Node) : Arena := ⟨a.places.setIfInBounds id (some n)⟩

/-- Gives up a place. -/
def free (a : Arena) (id : NodeId) : Arena := ⟨a.places.setIfInBounds id none⟩

/-- Changes which node owns a node. -/
def setParent (a : Arena) (id : NodeId) (parent : Option NodeId) : Arena :=
  match a.node? id with
  | some n => a.put id { n with parent }
  | none => a

/-- Adds a node in a place of its own. -/
def push (a : Arena) (n : Node) : Arena := ⟨a.places.push (some n)⟩

/-- Changes which node owns each of several nodes. -/
def setParents (a : Arena) (ids : List NodeId) (parent : Option NodeId) : Arena :=
  ids.foldl (fun a id => a.setParent id parent) a

/-- Adds a detached node, which from then on owns its parts and the values of its
    attributes. -/
def insert (a : Arena) (content : Content NodeId) (attributes : List (Symbol × NodeId)) :
    NodeId × Arena :=
  let n : Node := { content, attributes }
  (a.next, (a.push n).setParents n.owned (some a.next))

/-! ## What the changes do -/

theorem node?_lt {a : Arena} {id : NodeId} {n : Node} (h : a.node? id = some n) : id < a.next := by
  rw [node?, Option.join_eq_some_iff] at h
  exact (Array.getElem?_eq_some_iff.1 h).1

theorem node?_eq_none_of_le {a : Arena} {id : NodeId} (h : a.next ≤ id) : a.node? id = none := by
  rw [node?, Array.getElem?_eq_none h]
  rfl

theorem contains_iff {a : Arena} {id : NodeId} : a.contains id = true ↔ ∃ n, a.node? id = some n :=
  Option.isSome_iff_exists

@[simp] theorem node?_empty (id : NodeId) : empty.node? id = none :=
  node?_eq_none_of_le (Nat.zero_le id)

theorem node?_put {a : Arena} {id : NodeId} (n : Node) (h : id < a.next) (x : NodeId) :
    (a.put id n).node? x = if x = id then some n else a.node? x := by
  unfold next at h
  simp only [node?, put, Array.getElem?_setIfInBounds]
  by_cases e : id = x
  · subst e; simp [h]
  · simp [e, Ne.symm e]

theorem node?_free (a : Arena) (id x : NodeId) :
    (a.free id).node? x = if x = id then none else a.node? x := by
  simp only [node?, free, Array.getElem?_setIfInBounds]
  by_cases e : id = x
  · subst e; by_cases l : id < a.places.size <;> simp [l]
  · simp [e, Ne.symm e]

theorem node?_push (a : Arena) (n : Node) (x : NodeId) :
    (a.push n).node? x = if x = a.next then some n else a.node? x := by
  simp only [node?, push, next, Array.getElem?_push]
  by_cases e : x = a.places.size <;> simp [e]

theorem node?_setParent (a : Arena) (id : NodeId) (p : Option NodeId) (x : NodeId) :
    (a.setParent id p).node? x =
      if x = id then (a.node? id).map fun n => { n with parent := p } else a.node? x := by
  unfold setParent
  split
  · next n h => rw [node?_put _ (node?_lt h), h]; rfl
  · next h => split <;> simp_all

theorem node?_setParents (ids : List NodeId) (a : Arena) (p : Option NodeId) (x : NodeId) :
    (a.setParents ids p).node? x =
      if x ∈ ids then (a.node? x).map fun n => { n with parent := p } else a.node? x := by
  induction ids generalizing a with
  | nil => simp [setParents]
  | cons id ids ih =>
    have h : (a.setParent id p).setParents ids p = a.setParents (id :: ids) p := rfl
    rw [← h, ih, node?_setParent]
    by_cases e : x = id
    · subst e
      by_cases m : x ∈ ids <;> simp [m, Function.comp_def]
    · simp [e]

@[simp] theorem next_put (a : Arena) (id : NodeId) (n : Node) : (a.put id n).next = a.next := by
  simp [put, next]

@[simp] theorem next_free (a : Arena) (id : NodeId) : (a.free id).next = a.next := by
  simp [free, next]

@[simp] theorem next_push (a : Arena) (n : Node) : (a.push n).next = a.next + 1 := by
  simp [push, next]

@[simp] theorem next_setParent (a : Arena) (id : NodeId) (p : Option NodeId) :
    (a.setParent id p).next = a.next := by
  unfold setParent; split <;> simp

@[simp] theorem next_setParents (ids : List NodeId) (a : Arena) (p : Option NodeId) :
    (a.setParents ids p).next = a.next := by
  induction ids generalizing a with
  | nil => rfl
  | cons id ids ih => exact (ih (a.setParent id p)).trans (next_setParent a id p)

theorem size_free_lt {a : Arena} {id : NodeId} {n : Node} (h : a.node? id = some n) :
    (a.free id).size < a.size := by
  have l : id < a.places.size := node?_lt h
  have e : a.places[id] = some n := by
    rw [node?, Option.join_eq_some_iff] at h
    exact (Array.getElem?_eq_some_iff.1 h).2
  have p : 0 < a.places.countP Option.isSome :=
    Array.countP_pos_iff.2 ⟨some n, e ▸ Array.getElem_mem l, rfl⟩
  simp only [size, free, Array.setIfInBounds, dif_pos l, Array.countP_set l, e]
  simp only [Option.isSome, Bool.false_eq_true, if_true, if_false]
  omega

end Arena

/-! ## Operations that may fail -/

/-- An operation on an arena: it gives a result or an error, and in both cases
    the arena that it leaves behind.  There is no outcome at all if the operation
    does not come to an end. -/
abbrev Edit (α : Type) := ExceptT Error (StateT Arena Option) α

namespace Edit

variable {α β : Type}

theorem bind_ok {x : Edit α} {f : α → Edit β} {a b : Arena} {v : α} (h : x a = some (.ok v, b)) :
    (x >>= f) a = f v b := by
  show (x a).bind _ = _
  rw [h]
  rfl

theorem bind_error {x : Edit α} {f : α → Edit β} {a b : Arena} {e : Error}
    (h : x a = some (.error e, b)) : (x >>= f) a = some (.error e, b) := by
  show (x a).bind _ = _
  rw [h]
  rfl

@[simp] theorem pure_run (v : α) (a : Arena) : (pure v : Edit α) a = some (.ok v, a) := rfl

@[simp] theorem throw_run (e : Error) (a : Arena) :
    (throw e : Edit α) a = some (.error e, a) := rfl

@[simp] theorem get_run (a : Arena) : (get : Edit Arena) a = some (.ok a, a) := rfl

@[simp] theorem set_run (a b : Arena) : (set b : Edit Unit) a = some (.ok (), b) := rfl

@[simp] theorem modifyGet_run (f : Arena → α × Arena) (a : Arena) :
    (modifyGet f : Edit α) a = some (.ok (f a).1, (f a).2) := rfl

theorem liftExcept_run (r : Except Error α) (a : Arena) :
    (liftExcept r : Edit α) a = some (r, a) := by
  cases r <;> rfl

end Edit

end OpenMath
