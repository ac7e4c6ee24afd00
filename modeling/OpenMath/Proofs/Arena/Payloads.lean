/-
  The payloads in an arena.

  A node is made with a payload that the shape of a node may have, and keeps it for
  as long as it is there.

  * `Arena.All`: a property holds of the kinds of all nodes;
  * `Planted.all`, `Rewritten.all`, `All.remapped`: what happens to the nodes of an
    arena brings in no kinds but those of the trees that are added;
  * `Change.acceptable`, `Reachable.acceptable`: every payload is one that a shape
    may have.
-/
import OpenMath.Proofs.Arena.Commands
import OpenMath.Proofs.Wire.Payloads

namespace OpenMath

open Arena

/-! ## Arenas and their trees -/

/-- A property holds of the kinds of all nodes. -/
def Arena.All (P : Kind → Prop) (a : Arena) : Prop := ∀ x k, a.kind? x = some k → P k

namespace Arena

variable {P : Kind → Prop} {a b : Arena} {id x : NodeId} {k : Kind} {t t' : Tree NodeId}
  {us : List (Tree NodeId)} {σ : Substitution NodeId} {above : List String}

theorem All.tree (h : a.All P) (ht : a.tree? id = some t) : t.All P :=
  tree?_induction (P := fun _ t => t.All P) (fun id n _ hn _ _ ih =>
    Tree.all_node.2 ⟨h id n.kind (kind?_eq_some.2 ⟨n, hn, rfl⟩), ih⟩) ht

theorem kind_of_mem_labels (ht : a.tree? id = some t) (h : t.All P) (hx : x ∈ t.labels)
    (hk : a.kind? x = some k) : P k := by
  refine tree?_induction (P := fun _ t => t.All P → x ∈ t.labels → P k) ?_ ht h hx
  intro id n ss hn _ _ ih h hx
  obtain ⟨hn', hss⟩ := Tree.all_node.1 h
  rw [Tree.labels_node, List.mem_cons, List.mem_flatMap] at hx
  rcases hx with rfl | ⟨s, hs, hx⟩
  · obtain ⟨m, hm, rfl⟩ := kind?_eq_some.1 hk
    cases hn.symm.trans hm
    exact hn'
  · exact ih s hs (hss s hs) hx

theorem All.of_kind? (h : a.All P) (hk : ∀ x k, b.kind? x = some k → a.kind? x = some k) :
    b.All P := fun x k hx => h x k (hk x k hx)

theorem All.remapped {F : NodeId → Node → Node} (h : a.All P) (hr : Remapped F a b)
    (hF : ∀ x n, (F x n).kind = n.kind) : b.All P :=
  h.of_kind? fun _ _ hx => hr.kind? hF ▸ hx

/-- Trees are added. -/
theorem Planted.all (h : Planted a b us) (ha : a.All P) (hu : ∀ u ∈ us, u.All P) : b.All P := by
  intro x k hx
  by_cases hlt : x < a.next
  · exact ha x k (by rwa [kind?, ← h.old x hlt])
  · obtain ⟨n, hn, rfl⟩ := kind?_eq_some.1 hx
    obtain ⟨u, hm, hxu⟩ := h.covered x n (not_lt.1 hlt) hn
    exact kind_of_mem_labels (h.tree u hm) (hu u hm) hxu hx

/-- A tree gives way to another one. -/
theorem Rewritten.all (h : Rewritten t t' a b) (ha : a.All P) (ht : t'.All P) : b.All P := by
  intro x k hx
  by_cases hxt : x ∈ t'.labels
  · exact kind_of_mem_labels h.tree ht hxt hx
  · obtain ⟨n, hn, rfl⟩ := kind?_eq_some.1 hx
    have hlt : x < a.next := lt_of_not_ge fun hle => hxt (h.covered x n hle hn)
    have hout : x ∉ t.labels := fun hm => by
      rw [h.freed x hm hxt] at hn
      cases hn
    by_cases hp : a.parent? t.label = some x
    · rw [h.owner x hp] at hn
      obtain ⟨m, hm, rfl⟩ := Option.map_eq_some_iff.1 hn
      exact ha x _ (kind?_eq_some.2 ⟨m, hm, (Node.kind_mapOwned ..).symm⟩)
    · exact ha x _ (kind?_eq_some.2 ⟨n, h.frame x hlt hout hp ▸ hn, rfl⟩)

theorem Outcome.all (h : Outcome σ above t t' a b) (ha : a.All P) (ht : t'.All P) : b.All P := by
  unfold Outcome at h
  split_ifs at h
  · exact h.all ha (by simpa using ht)
  · exact h.all ha ht

/-! ## Changes -/

theorem acceptable_of_ofValid {t : Tree NodeId} (h : Term.OfValid t.toTerm) :
    t.All Kind.Acceptable := by
  obtain ⟨v, hv, hb⟩ := h
  exact (Tree.all_mapLabels _).1 (Wire.acceptable_build hv hb)

/-- No change brings in a payload that no shape may have. -/
theorem Change.acceptable (h : Change a b) (ha : a.All Kind.Acceptable) :
    b.All Kind.Acceptable := by
  induction h with
  | planted h shapes => exact h.all ha fun u hu => acceptable_of_ofValid (shapes u hu)
  | freed h =>
    refine ha.of_kind? fun x k hx => ?_
    rw [kind?, h x] at hx
    split_ifs at hx
    · cases hx
    · exact hx
  | remapped h kind => exact ha.remapped h kind
  | @substituted a b σ names above t t' role h tree shape term =>
    obtain ⟨v, hv, hb⟩ := shape
    have hnew : (t'.mapLabels (older a.next)).All Kind.Acceptable :=
      term ▸ Substitution.all_apply (ha.tree tree) (Wire.acceptable_build hv hb) above role
    exact h.all ha ((Tree.all_mapLabels _).1 hnew)
  | trans _ _ ih ih' => exact ih' (ih ha)

end Arena

/-- In the arenas that come about every payload is one that a shape may have. -/
theorem Arena.Reachable.acceptable {a : Arena} (h : a.Reachable) : a.All Kind.Acceptable := by
  induction h with
  | empty => exact fun x k hx => by simp [kind?] at hx
  | @step a b c r ha hc ih =>
    obtain ⟨r', b', hr, hb, -⟩ := c.changes a ha.wf
    cases hc.symm.trans hr
    exact hb.acceptable ih

end OpenMath
