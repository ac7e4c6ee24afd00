/-
  What holds of all payloads of a tree.

  * `Tree.All`: a property of kinds holds of every node of a tree, those in the
    values of attributes included;
  * `all_rooted`: its equation by the content of a node;
  * `all_apply`: a substitution brings in no payloads but those of the replacement.
-/
import OpenMath.Proofs.Tree.Substitution

namespace OpenMath

theorem Content.forall_allSlots {α : Type} {c : Content α} {as : List (Symbol × α)} {Q : α → Prop} :
    (∀ s ∈ c.allSlots as, Q s.content) ↔ (∀ x ∈ c.structural, Q x) ∧ ∀ e ∈ as, Q e.2 := by
  have hcontents : (∀ s ∈ c.allSlots as, Q s.content) ↔ ∀ x ∈ (c.allSlots as).contents, Q x := by
    rw [Slots.contents, List.forall_mem_map]
  rw [hcontents, contents_allSlots, List.forall_mem_append, List.forall_mem_map]

namespace Tree

variable {ι κ : Type} {P : Kind → Prop}

/-- A property holds of the kinds of all nodes. -/
def All (P : Kind → Prop) : Tree ι → Prop := fold fun _ k ss => P k ∧ ∀ s ∈ ss, s.content

theorem all_node {l : ι} {k : Kind} {ss : Slots (Tree ι)} :
    (node l k ss).All P ↔ P k ∧ ∀ s ∈ ss, s.content.All P := by
  rw [All, fold_node, Slots.mapContent, List.forall_mem_map]
  rfl

theorem all_rooted {l : ι} {c : Content (Tree ι)} {as : List (Symbol × Tree ι)} :
    (rooted l c as).All P ↔
      P c.kind ∧ (∀ u ∈ c.structural, u.All P) ∧ ∀ e ∈ as, e.2.All P := by
  rw [rooted, all_node, Content.forall_allSlots]

theorem all_mapLabels (f : ι → κ) {t : Tree ι} : (t.mapLabels f).All P ↔ t.All P := by
  induction t using Tree.induction with
  | node l k ss ih =>
    rw [mapLabels_node, all_node, all_node, Slots.mapContent, List.forall_mem_map]
    exact and_congr_right fun _ => forall_congr' fun s => imp_congr_right fun hs => ih s hs

theorem All.kind {t : Tree ι} (h : t.All P) : P t.kind := by
  cases t
  exact (all_node.1 h).1

theorem All.slots {t : Tree ι} (h : t.All P) : ∀ s ∈ t.slots, s.content.All P := by
  cases t
  exact (all_node.1 h).2

end Tree

namespace Substitution

variable {ι : Type} [DecidableEq ι] {P : Kind → Prop} {σ : Substitution ι}

theorem content_rewriteSlot (names : List String) (s : Slot (Tree ι)) :
    (rewriteSlot names (s.map fun u => (u, σ.apply u))).content = s.content.mapLabels some ∨
      ∃ role, (rewriteSlot names (s.map fun u => (u, σ.apply u))).content =
        σ.apply s.content names role := by
  obtain ⟨role, u⟩ := s
  cases role with
  | attr key => exact .inl rfl
  | _ => exact .inr ⟨_, rfl⟩

/-- What holds of all payloads of a tree and of a replacement holds of all payloads
    after the substitution. -/
theorem all_apply {t : Tree ι} (ht : t.All P) (hr : σ.replacement.All P) (above : List String)
    (role : Option Role) : (σ.apply t above role).All P := by
  induction t using Tree.induction generalizing above role with
  | node l k ss ih =>
    rw [apply_eq]
    split_ifs
    · exact (Tree.all_mapLabels _).2 hr
    · exact (Tree.all_mapLabels _).2 ht
    · refine Tree.all_node.2 ⟨ht.kind, List.forall_mem_map.2 fun s hs => ?_⟩
      have hs' : s.content.All P := ht.slots s hs
      rcases content_rewriteSlot (σ := σ) _ s with h | ⟨role, h⟩
      · rw [h]
        exact (Tree.all_mapLabels _).2 hs'
      · rw [h]
        exact ih s hs hs' _ role

end Substitution

end OpenMath
