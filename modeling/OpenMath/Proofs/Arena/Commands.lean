/-
  What commands may do.

  Every command comes to an end and keeps the links in step, and if it fails, it
  changes no node.

  * `Step`, `Edit.Sound`: what an operation may do to an arena;
  * `Command.sound`: no command does more;
  * `Reachable.links_agree`: in the arenas that come about the two records of who
    owns whom agree, and the way up has an end;
  * `Reachable.unchanged_of_error`: commands that fail change no node.
-/
import Mathlib
import OpenMath.Proofs.Arena.Changes

namespace OpenMath

open Arena

variable {α β : Type} {a b : Arena} {id : NodeId}

/-- What an operation may do: it keeps the links in step and uses no place again,
    and if it fails, it changes no node. -/
structure Step (a : Arena) (r : Except Error α) (b : Arena) : Prop where
  wf : b.Wf
  next_le : a.next ≤ b.next
  unchanged : ∀ e, r = .error e → ∀ x, b.node? x = a.node? x

/-- An operation that comes to an end and does no more than it may. -/
def Edit.Sound (x : Edit α) : Prop := ∀ a, a.Wf → ∃ r b, x a = some (r, b) ∧ Step a r b

/-- Every command comes to an end and does no more than it may. -/
theorem Command.sound (c : Command) : c.run.Sound := fun a w => by
  obtain ⟨r, b, hx, hb, hu⟩ := c.changes a w
  exact ⟨r, b, hx, hb.wf, hb.next_le, hu⟩

theorem Arena.Reachable.wf (h : a.Reachable) : a.Wf := by
  induction h with
  | empty => exact wf_empty
  | @step a b c r _ hc ih =>
    obtain ⟨r', b', hr, hs⟩ := c.sound a ih
    cases hc.symm.trans hr
    exact hs.wf

/-- An arena with one application, of a variable to another one. -/
def Arena.applied : Arena where
  places := #[some ⟨.var "f", [], some 2⟩, some ⟨.var "x", [], some 2⟩,
    some ⟨.application [0, 1], [], none⟩]

theorem Arena.reachable_applied : applied.Reachable :=
  .step (c := .parse "f(x)") (r := .ok ()) .empty (by cbv)

/-- A symbol that may be the head of a binding. -/
def Arena.binder : Symbol := ⟨"l", "q", none, rfl, rfl⟩

/-- An arena with one binding, of a variable that is its own body. -/
def Arena.identity : Arena where
  places := #[some ⟨.symbol binder, [], some 3⟩, some ⟨.var "x", [], some 3⟩,
    some ⟨.var "x", [], some 3⟩, some ⟨.binding (some 0) [1] (some 2), [], none⟩]

theorem Arena.reachable_identity : identity.Reachable :=
  .step (c := .parse "q.l[x,x]") (r := .ok ()) .empty (by cbv)

/-- An arena of variables that are not attached to anything. -/
def Arena.detached (names : List String) : Arena where
  places := (names.map fun name => some ⟨.var name, [], none⟩).toArray

theorem Arena.reachable_detached : (detached ["x", "y"]).Reachable :=
  .step (c := .var "y") (r := .ok ()) (b := detached ["x", "y"])
    (.step (c := .var "x") (r := .ok ()) (b := detached ["x"]) .empty (by cbv)) (by cbv)

/-- The key `type` of the dictionary `sts`. -/
def Arena.typeKey (uri : Option String) : Symbol := ⟨"type", "sts", uri, rfl, rfl⟩

/-- An arena with one variable that has another one as an attribute. -/
def Arena.annotated : Arena where
  places := #[some ⟨.var "x", [(typeKey none, 1)], none⟩, some ⟨.var "y", [], some 0⟩]

theorem Arena.reachable_annotated : annotated.Reachable :=
  .step (c := .setAttribute 0 (typeKey none) 1) (r := .ok ()) reachable_detached (by cbv)

/-- In the arenas that come about, what is in a slot is there and has the node
    with the slot as its parent; a node with a parent is in one slot of it, all
    kinds of slots taken together, and one without is in no slot; and the nodes
    above a node form a chain with an end, along which the loops for roots and
    ancestors run. -/
theorem Arena.Reachable.links_agree (h : a.Reachable) :
    (∀ p n, a.node? p = some n → ∀ s ∈ n.slots,
      a.contains s.content = true ∧ a.parent? s.content = some p) ∧
    (∀ c p, a.parent? c = some p → ∃ n, a.node? p = some n ∧ n.slots.contents.count c = 1) ∧
    (∀ c, a.parent? c = none → ∀ p n, a.node? p = some n → c ∉ n.slots.contents) ∧
    ∀ id, ∃ path, a.lineage? id = some path ∧
      (id :: path).IsChain (fun c p => a.parent? c = some p) ∧ (id :: path).Nodup ∧
      a.root id = (id :: path).getLast (List.cons_ne_nil id path) ∧
      a.parent? (a.root id) = none ∧
      ∀ x, a.isAncestorOrSelf x id = true ↔ x ∈ id :: path := by
  have w := h.wf
  refine ⟨?_, ?_, ?_, ?_⟩
  · intro p n hn s hs
    have hm := Node.mem_owned_of_slot hs
    obtain ⟨m, hm', -⟩ := w.node?_of_mem hn hm
    exact ⟨contains_iff.2 ⟨m, hm'⟩, w.parent?_of_mem hn hm⟩
  · intro c p hp
    simp only [Node.contents_slots]
    exact w.count_eq_one hp
  · intro c hp p n hn hm
    rw [Node.contents_slots] at hm
    rw [w.parent?_of_mem hn hm] at hp
    cases hp
  · intro id
    obtain ⟨path, hl, hc, hnd, hm, hr, hn⟩ := w.acyclic.lineage?_spec id
    exact ⟨path, hl, hc, hnd, hr, hn, fun x => by rw [w.acyclic.isAncestorOrSelf_iff, hm]⟩

theorem links_agree_applied :
    ∃ n, applied.node? 2 = some n ∧ n.slots.contents.count 1 = 1 :=
  reachable_applied.links_agree.2.1 1 2 rfl

/-- A command that fails changes no node: the same identities are in use, with
    the same contents, attributes and parents. -/
theorem Arena.Reachable.unchanged_of_error (h : a.Reachable) {c : Command} {e : Error}
    (hc : c.run a = some (.error e, b)) (id : NodeId) : b.node? id = a.node? id := by
  obtain ⟨r, b', hr, hs⟩ := c.sound a h.wf
  cases hc.symm.trans hr
  exact hs.unchanged e rfl id

/-- An arena with an application that lost its operator, and nothing else was in it. -/
def Arena.bereft : Arena where
  places := #[some ⟨.var "f", [], none⟩, some ⟨.application [], [], none⟩]

theorem Arena.reachable_bereft : bereft.Reachable :=
  .step (c := .remove 0) (r := .ok ())
    (.step (c := .parse "f()") (r := .ok ())
      (b := ⟨#[some ⟨.var "f", [], some 1⟩, some ⟨.application [0], [], none⟩]⟩) .empty (by cbv))
    (by cbv)

/-- An application that lost its operator has no copy, and is no replacement. -/
theorem unchanged_of_uncopied :
    ∃ a b e, a.Reachable ∧ (Command.replaceFree 0 0 1).run a = some (.error e, b) ∧
      a.next = 2 ∧ b.next = 3 ∧ ∀ id, b.node? id = a.node? id := by
  have hc : (Command.replaceFree 0 0 1).run bereft =
      some (.error (.invalid .noChildren), ⟨bereft.places.push none⟩) := by cbv
  exact ⟨_, _, _, reachable_bereft, hc, rfl, rfl, reachable_bereft.unchanged_of_error hc⟩

end OpenMath
