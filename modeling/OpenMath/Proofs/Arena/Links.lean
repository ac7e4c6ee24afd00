/-
  The links between nodes.

  An arena keeps two records of who owns whom: the slots downwards, and the
  parents upwards.  `Wf` says that they agree, that no node is inside of itself,
  that heads are symbols and bound variables variables, and that no two keys of
  a node agree.

  * `Under`: a node is another one or inside it;
  * `Wf.locationIn?_spec`: an attached node is found in its slot;
  * `Wf.remap`: what remains to be shown when nodes change in their places;
  * `acyclic_of_link`: new links make no cycle if they do not lead upwards.
-/
import OpenMath.Proofs.Arena.Slots
import Mathlib.Order.WellFoundedSet

namespace OpenMath.Arena

variable {a b : Arena} {c d p q x y z : NodeId} {n : Node}

/-! ## Upwards -/

/-- `a.Under x y`: node `y` is `x`, or `x` is above it. -/
inductive Under (a : Arena) (x : NodeId) : NodeId → Prop
  | refl : a.Under x x
  | step {c p : NodeId} (h : a.parent? c = some p) (u : a.Under x p) : a.Under x c

/-- No chain of parents comes back to where it began, and every one has an end. -/
def Acyclic (a : Arena) : Prop := WellFounded fun p c => a.parent? c = some p

namespace Under

theorem trans (h : a.Under x y) (h' : a.Under y z) : a.Under x z := by
  induction h' with
  | refl => exact h
  | step hp _ ih => exact .step hp ih

theorem of_parent (h : a.parent? c = some p) : a.Under p c := .step h .refl

theorem cases_parent (h : a.Under x y) : y = x ∨ ∃ p, a.parent? y = some p ∧ a.Under x p := by
  cases h with
  | refl => exact .inl rfl
  | step hp u => exact .inr ⟨_, hp, u⟩

theorem total (h : a.Under x z) (h' : a.Under y z) : a.Under x y ∨ a.Under y x := by
  induction h with
  | refl => exact .inr h'
  | step hp u ih =>
    cases h' with
    | refl => exact .inl (.step hp u)
    | step hp' u' => cases hp.symm.trans hp'; exact ih u'

theorem mono (h : a.Under x y) (hl : ∀ c p, a.parent? c = some p → b.parent? c = some p) :
    b.Under x y := by
  induction h with
  | refl => exact .refl
  | step hp _ ih => exact .step (hl _ _ hp) ih

end Under

theorem Acyclic.not_under (h : a.Acyclic) (hp : a.parent? c = some p) : ¬ a.Under c p := by
  intro u
  induction p using h.induction generalizing c with
  | _ p ih =>
    rcases u.cases_parent with rfl | ⟨q, hq, u⟩
    · exact ih p hp hp .refl
    · exact ih q hq hq ((Under.of_parent hp).trans u)

theorem Acyclic.parent?_ne (h : a.Acyclic) (hp : a.parent? c = some p) : c ≠ p := by
  rintro rfl
  exact h.not_under hp .refl

theorem Acyclic.antisymm (h : a.Acyclic) (u : a.Under x y) (u' : a.Under y x) : x = y := by
  rcases u.cases_parent with rfl | ⟨p, hp, u⟩
  · rfl
  · exact absurd (u'.trans u) (h.not_under hp)

theorem Acyclic.mono (h : a.Acyclic) (hl : ∀ c p, b.parent? c = some p → a.parent? c = some p) :
    b.Acyclic :=
  Subrelation.wf (fun hp => hl _ _ hp) h

/-- New links to one parent make no cycle if the children are not above it. -/
theorem acyclic_of_link (h : a.Acyclic)
    (hl : ∀ x q, b.parent? x = some q → a.parent? x = some q ∨ q = p ∧ ¬ a.Under x p) :
    b.Acyclic := by
  have base (y : NodeId) : a.Under y p → Acc (fun q x => b.parent? x = some q) y := by
    induction y using h.induction with
    | _ y ih =>
      refine fun hy => ⟨y, fun q hq => ?_⟩
      rcases hl y q hq with hq | ⟨-, hu⟩
      · exact ih q hq ((Under.of_parent hq).trans hy)
      · exact absurd hy hu
  constructor
  intro y
  induction y using h.induction with
  | _ y ih =>
    refine ⟨y, ?_⟩
    intro q hq
    rcases hl y q hq with hq | ⟨rfl, -⟩
    · exact ih q hq
    · exact base q .refl

/-- The test for ancestors finds them. -/
theorem Acyclic.isAncestorOrSelf_iff (h : a.Acyclic) :
    a.isAncestorOrSelf x y = true ↔ a.Under x y := by
  induction y using h.induction with
  | _ y ih =>
    rw [isAncestorOrSelf]
    split
    · next e => exact iff_of_true rfl (e ▸ .refl)
    · next e =>
      split
      · next p hp =>
        rw [ih p hp]
        refine ⟨.step hp, ?_⟩
        intro u
        rcases u.cases_parent with e' | ⟨q, hq, u⟩
        · exact absurd e' e
        · cases hp.symm.trans hq; exact u
      · next hp =>
        refine iff_of_false (by simp) fun u => ?_
        rcases u.cases_parent with e' | ⟨q, hq, -⟩
        · exact e e'
        · simp [hp] at hq

/-- The nodes above a node form a chain with an end, in which no node is twice. -/
theorem Acyclic.lineage?_spec (h : a.Acyclic) (id : NodeId) :
    ∃ path, a.lineage? id = some path ∧
      (id :: path).IsChain (fun c p => a.parent? c = some p) ∧ (id :: path).Nodup ∧
      (∀ x, x ∈ id :: path ↔ a.Under x id) ∧
      a.root id = (id :: path).getLast (List.cons_ne_nil id path) ∧
      a.parent? (a.root id) = none := by
  induction id using h.induction with
  | _ id ih =>
    rw [lineage?, root]
    split
    · next p hp =>
      obtain ⟨path, hl, hc, hnd, hm, hr, hn⟩ := ih p hp
      refine ⟨p :: path, by simp [hl], .cons_cons hp hc, List.nodup_cons.2 ⟨?_, hnd⟩, ?_,
        by simpa using hr, hn⟩
      · intro hi
        exact h.not_under hp ((hm id).1 hi)
      · intro x
        rw [List.mem_cons, hm]
        constructor
        · rintro (rfl | u)
          · exact .refl
          · exact .step hp u
        · intro u
          rcases u.cases_parent with e | ⟨q, hq, u⟩
          · exact .inl e.symm
          · cases hp.symm.trans hq; exact .inr u
    · next hp =>
      refine ⟨[], rfl, .singleton id, List.nodup_singleton id, ?_, rfl, hp⟩
      intro x
      rw [List.mem_singleton]
      refine ⟨fun e => e ▸ .refl, ?_⟩
      intro u
      rcases u.cases_parent with e | ⟨q, hq, -⟩
      · exact e.symm
      · simp [hp] at hq

/-! ## The two records -/

/-- The slots and the parents of an arena agree, and nothing is where it must not
    be. -/
structure Wf (a : Arena) : Prop where
  /-- what a node owns has the node as its parent, and is in one slot of it -/
  count : ∀ {p n}, a.node? p = some n → ∀ c,
    n.owned.count c = if a.parent? c = some p then 1 else 0
  live : ∀ {c p}, a.parent? c = some p → ∃ n, a.node? p = some n
  acyclic : a.Acyclic
  /-- heads are symbols, and bound variables are variables -/
  fits : ∀ {p n}, a.node? p = some n → ∀ s ∈ n.slots, ∀ k, a.kind? s.content = some k →
    s.role.admits k = true
  keyed : ∀ {p n}, a.node? p = some n → n.Keyed

theorem wf_empty : empty.Wf where
  count h := by simp at h
  live h := by simp [parent?] at h
  acyclic := ⟨fun y => ⟨y, fun p h => by simp [parent?] at h⟩⟩
  fits h := by simp at h
  keyed h := by simp at h

namespace Wf

theorem parent?_of_mem (w : a.Wf) (h : a.node? p = some n) (hc : c ∈ n.owned) :
    a.parent? c = some p := by
  have hp : 0 < n.owned.count c := List.count_pos_iff.2 hc
  rw [w.count h] at hp
  by_contra he
  simp [he] at hp

theorem count_eq_one (w : a.Wf) (h : a.parent? c = some p) :
    ∃ n, a.node? p = some n ∧ n.owned.count c = 1 := by
  obtain ⟨n, hn⟩ := w.live h
  exact ⟨n, hn, by rw [w.count hn, if_pos h]⟩

theorem owned_nodup (w : a.Wf) (h : a.node? p = some n) : n.owned.Nodup :=
  List.nodup_iff_count_le_one.2 fun c => by
    rw [w.count h]
    split <;> omega

end Wf

theorem node?_of_parent? (h : a.parent? c = some p) : ∃ n, a.node? c = some n ∧ n.parent = some p := by
  simpa [parent?, Option.bind_eq_some_iff] using h

theorem Wf.node?_of_mem (w : a.Wf) (h : a.node? p = some n) (hc : c ∈ n.owned) :
    ∃ m, a.node? c = some m ∧ m.parent = some p :=
  node?_of_parent? (w.parent?_of_mem h hc)

theorem kind?_eq_some {k : Kind} : a.kind? x = some k ↔ ∃ n, a.node? x = some n ∧ n.kind = k := by
  simp [kind?]

theorem Wf.isVar_of_mem (w : a.Wf) (h : a.node? p = some n) (hc : c ∈ n.content.bound) :
    a.isVar c = true := by
  have hs : (⟨.bound, c⟩ : Slot NodeId) ∈ n.slots := by
    simp [Node.slots, Content.allSlots, Content.slots, Content.placed, hc]
  have ho : c ∈ n.owned := by
    rw [← Node.contents_slots]
    exact List.mem_map.2 ⟨_, hs, rfl⟩
  obtain ⟨m, hm, -⟩ := w.node?_of_mem h ho
  have := w.fits h _ hs m.kind (kind?_eq_some.2 ⟨m, hm, rfl⟩)
  simpa [isVar, kind?, hm, Role.admits] using this

/-- An attached node is found in the slot of its parent in which it is. -/
theorem Wf.locationIn?_spec (w : a.Wf) (h : a.parent? c = some p) :
    ∃ n l, a.node? p = some n ∧ a.locationIn? p c = some l ∧ n.Sits c l := by
  obtain ⟨n, hn, hc⟩ := w.count_eq_one h
  obtain ⟨l, hl, hs⟩ := Node.location?_spec hc (w.keyed hn) (w.isVar_of_mem hn)
  exact ⟨n, l, hn, by simp [locationIn?, hn, hl], hs⟩

/-! ## Nodes that change in their places -/

/-- `b` has the nodes of `a` in their places, each changed by `F`. -/
def Remapped (F : NodeId → Node → Node) (a b : Arena) : Prop :=
  ∀ x, b.node? x = (a.node? x).map (F x)

variable {F : NodeId → Node → Node}

theorem Remapped.kind? (h : Remapped F a b) (hk : ∀ x n, (F x n).kind = n.kind) :
    b.kind? x = a.kind? x := by
  simp [Arena.kind?, h x, Function.comp_def, hk]

theorem Remapped.contains (h : Remapped F a b) : b.contains x = a.contains x := by
  simp [Arena.contains, h x]

/-- What remains to be shown of nodes that change in their places. -/
theorem Wf.remap (w : a.Wf) (h : Remapped F a b) (hk : ∀ x n, (F x n).kind = n.kind)
    (count : ∀ {p n}, a.node? p = some n → ∀ c,
      (F p n).owned.count c = if b.parent? c = some p then 1 else 0)
    (live : ∀ {c p}, b.parent? c = some p → ∃ n, a.node? p = some n)
    (acyclic : b.Acyclic)
    (fits : ∀ {p n}, a.node? p = some n → ∀ s ∈ (F p n).slots, s ∈ n.slots ∨
      ∀ k, a.kind? s.content = some k → s.role.admits k = true)
    (keyed : ∀ {p n}, a.node? p = some n → (F p n).Keyed) : b.Wf where
  count {p n'} hn := by
    rw [h p, Option.map_eq_some_iff] at hn
    obtain ⟨n, hn, rfl⟩ := hn
    exact count hn
  live {c p} hp := by
    obtain ⟨n, hn⟩ := live hp
    exact ⟨F p n, by rw [h p, hn]; rfl⟩
  acyclic := acyclic
  fits {p n'} hn s hs k hk' := by
    rw [h p, Option.map_eq_some_iff] at hn
    obtain ⟨n, hn, rfl⟩ := hn
    rw [h.kind? hk] at hk'
    rcases fits hn s hs with hs | hs
    · exact w.fits hn s hs k hk'
    · exact hs k hk'
  keyed {p n'} hn := by
    rw [h p, Option.map_eq_some_iff] at hn
    obtain ⟨n, hn, rfl⟩ := hn
    exact keyed hn

end OpenMath.Arena
