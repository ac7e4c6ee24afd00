/-
  Substitution captures no variable.

  Bindings count up to the top of a tree here, so that a bound variable is always
  bound: it is never replaced, and every binding binds after a substitution what
  it bound before.

  * `apply_eq_unbounded`: scopes that end at the top of a tree are scopes that end
    nowhere;
  * `mem_freeNames_apply`: names that are free afterwards were free in the tree,
    or are free in the replacement;
  * `mem_freeNames_of_kept`: names that were free in the tree, and are not free in
    the target, are free afterwards;
  * `mem_freeNames_of_new`: if there is a new node, then all names that are free
    in the replacement are free.
-/
import OpenMath.Proofs.Tree.Substitution

namespace OpenMath.Substitution

open OpenMath.Tree

variable {ι : Type} [DecidableEq ι] {σ : Substitution ι} {t u : Tree ι} {names : List String}
  {role : Option Role} {name : String}

/-! ## Where scopes end -/

/-- The same substitution, but bindings count all the way up. -/
def unbounded (σ : Substitution ι) : Substitution ι := { σ with upto := none }

/-- Whether bindings count up to a node plays a part inside its tree only at the
    node itself. -/
theorem apply_eq_unbounded (h : ∀ s ∈ t.slots, ∀ x ∈ s.content.labels, σ.upto ≠ some x)
    (above : List String) (role : Option Role) :
    σ.apply t above role = σ.unbounded.apply t (σ.scope t above) role := by
  induction t using Tree.induction generalizing above role with
  | node l k ss ih =>
    have hs (names : List String) : σ.unbounded.scope (.node l k ss) names = names := by
      simp [scope, unbounded]
    have hslots (s : Slot (Tree ι)) (hm : s ∈ ss) (names : List String) :
        rewriteSlot names (s.map fun u => (u, σ.apply u)) =
          rewriteSlot names (s.map fun u => (u, σ.unbounded.apply u)) := by
      have hout := h s hm
      have hu (role : Option Role) :
          σ.apply s.content names role = σ.unbounded.apply s.content names role := by
        have hsub (s' : Slot (Tree ι)) (hs' : s' ∈ s.content.slots) (x : ι)
            (hx : x ∈ s'.content.labels) : σ.upto ≠ some x := hout x (mem_labels_of_slot hs' hx)
        rw [ih s hm hsub, scope, if_neg (hout _ s.content.label_mem_labels)]
      obtain ⟨r, v⟩ := s
      cases r <;> simp [rewriteSlot, Slot.map, hu]
    rw [apply_eq, apply_eq, hs]
    have hparts := List.map_congr_left fun s hm =>
      hslots s hm ((Tree.node l k ss).boundNames ++ σ.scope (.node l k ss) above)
    rw [slots_node, hparts]
    rfl

/-! ## What is not replaced -/

theorem scope_eq_of_none (hσ : σ.upto = none) (t : Tree ι) (above : List String) :
    σ.scope t above = above := by
  simp [scope, hσ]

theorem apply_bound (hσ : σ.upto = none) (ht : t.Shaped) (hk : t.kind = .var name)
    (hn : name ∈ names) (role : Option Role) : σ.apply t names role = t.mapLabels some := by
  obtain ⟨l, c, as, -, -, -, -⟩ := ht
  obtain rfl : c = .var name := by
    cases c <;> cases hk
    rfl
  rw [apply_rooted (by rw [scope_eq_of_none hσ]; exact hits_var hn), mapLabels_rooted]
  rfl

theorem apply_of_mem_bound {c : Content (Tree ι)} (hσ : σ.upto = none)
    (parts : ∀ u ∈ c.structural, u.Shaped)
    (fits : ∀ s ∈ c.slots, s.role.admits s.content.kind = true) (hu : u ∈ c.bound)
    (above : List String) (role : Option Role) :
    σ.apply u (namesOf c.bound ++ above) role = u.mapLabels some := by
  obtain ⟨name, hk⟩ := exists_var_of_type ((Tree.fits_iff.1 fits).2 u hu)
  refine apply_bound hσ (parts u (Content.mem_structural_of_bound hu)) hk
    (List.mem_append_left _ (List.mem_filterMap.2 ⟨u, hu, ?_⟩)) role
  rw [hk]
  rfl

theorem namesOf_bound_apply {c : Content (Tree ι)} (hσ : σ.upto = none)
    (parts : ∀ u ∈ c.structural, u.Shaped)
    (fits : ∀ s ∈ c.slots, s.role.admits s.content.kind = true) (above : List String) :
    namesOf (c.mapRoles fun r u => σ.apply u (namesOf c.bound ++ above) (some r)).bound =
      namesOf c.bound := by
  rw [Content.bound_mapRoles]
  refine namesOf_map fun u hu => ?_
  rw [apply_of_mem_bound hσ parts fits hu, kind_mapLabels]

/-- The free names after a substitution that goes on in the parts of a node. -/
theorem mem_freeNames_apply_rooted {l : ι} {c : Content (Tree ι)} {as : List (Symbol × Tree ι)}
    (hσ : σ.upto = none) (parts : ∀ u ∈ c.structural, u.Shaped)
    (fits : ∀ s ∈ c.slots, s.role.admits s.content.kind = true)
    (hh : σ.hits (rooted l c as) names = false) :
    name ∈ (σ.apply (rooted l c as) names role).freeNames ↔ c.kind.varName? = some name ∨
      (∃ u ∈ c.children, name ∈ (σ.apply u (namesOf c.bound ++ names) (some .child)).freeNames) ∨
      ∃ u, c.body? = some u ∧ name ∈ (σ.apply u (namesOf c.bound ++ names) (some .body)).freeNames ∧
        name ∉ namesOf c.bound := by
  rw [apply_rooted (by rwa [scope_eq_of_none hσ]), scope_eq_of_none hσ, mem_freeNames_rooted,
    namesOf_bound_apply hσ parts fits, Content.kind_mapRoles, Content.children_mapRoles,
    Content.body?_mapRoles]
  simp

/-! ## Free names -/

/-- What is free after a substitution was free before, or is free in the
    replacement. -/
theorem mem_freeNames_apply (hσ : σ.upto = none) (hr : σ.replacement.Shaped) (ht : t.Shaped)
    (h : name ∈ (σ.apply t names role).freeNames) :
    name ∈ t.freeNames ∨ name ∈ σ.replacement.freeNames := by
  induction ht generalizing names role with
  | rooted l c as parts values fits keyed ih _ =>
    by_cases hh : σ.hits (rooted l c as) names = true
    · rw [apply_eq, scope_eq_of_none hσ, if_pos hh] at h
      split_ifs at h
      · rw [hr.freeNames_rearranged (rearranges_mapLabels _)] at h
        exact .inr h
      · rw [(Shaped.rooted l c as parts values fits keyed).freeNames_rearranged
          (rearranges_mapLabels _)] at h
        exact .inl h
    · rw [mem_freeNames_apply_rooted hσ parts fits (Bool.not_eq_true _ ▸ hh)] at h
      rw [mem_freeNames_rooted]
      rcases h with hk | ⟨u, hu, h⟩ | ⟨u, hu, h, hb⟩
      · exact .inl (.inl hk)
      · exact (ih u (Content.mem_structural_of_child hu) h).imp_left fun h => .inr (.inl ⟨u, hu, h⟩)
      · exact (ih u (Content.mem_structural_of_body hu) h).imp_left
          fun h => .inr (.inr ⟨u, hu, h, hb⟩)

/-- What was free, and is not free in the target, is free after a substitution. -/
theorem mem_freeNames_of_kept (hσ : σ.upto = none) (htarget : σ.target.Shaped) (ht : t.Shaped)
    (h : name ∈ t.freeNames) (hn : name ∉ σ.target.freeNames) :
    name ∈ (σ.apply t names role).freeNames := by
  induction ht generalizing names role with
  | rooted l c as parts values fits keyed ih _ =>
    by_cases hh : σ.hits (rooted l c as) names = true
    · have he := (hits_iff.1 hh).1
      rw [(Shaped.rooted l c as parts values fits keyed).freeNames_of_equals htarget he] at h
      exact absurd h hn
    · rw [mem_freeNames_apply_rooted hσ parts fits (Bool.not_eq_true _ ▸ hh)]
      rw [mem_freeNames_rooted] at h
      rcases h with hk | ⟨u, hu, h⟩ | ⟨u, hu, h, hb⟩
      · exact .inl hk
      · exact .inr (.inl ⟨u, hu, ih u (Content.mem_structural_of_child hu) h⟩)
      · exact .inr (.inr ⟨u, hu, ih u (Content.mem_structural_of_body hu) h, hb⟩)

/-! ## New nodes -/

/-- Where a substitution goes on in the parts of a node, new nodes are in its
    parts. -/
theorem exists_new_part {l : ι} {c : Content (Tree ι)} {as : List (Symbol × Tree ι)}
    (hσ : σ.upto = none) (hh : σ.hits (rooted l c as) names = false)
    (h : none ∈ (σ.apply (rooted l c as) names role).labels) :
    ∃ s ∈ c.slots,
      none ∈ (σ.apply s.content (namesOf c.bound ++ names) (some s.role)).labels := by
  rw [apply_rooted (by rwa [scope_eq_of_none hσ]), scope_eq_of_none hσ, mem_labels_rooted] at h
  rcases h with h | ⟨v, hv, h⟩
  · cases h
  · rcases List.mem_append.1 hv with hv | hv
    · rw [← Content.contents_slots, Content.slots_mapRoles] at hv
      obtain ⟨_, hm, rfl⟩ := List.mem_map.1 hv
      obtain ⟨s, hs, rfl⟩ := List.mem_map.1 hm
      exact ⟨s, hs, h⟩
    · obtain ⟨e, he, rfl⟩ := List.mem_map.1 hv
      obtain ⟨d, -, rfl⟩ := List.mem_map.1 he
      exact absurd h (none_not_mem_labels d.2)

/-- A head is replaced by a symbol only, in which no name is free. -/
theorem freeNames_of_new_head (hσ : σ.upto = none) (ht : t.Shaped)
    (hk : Role.head.admits t.kind = true)
    (h : none ∈ (σ.apply t names (some .head)).labels) : σ.replacement.freeNames = [] := by
  obtain ⟨l, c, as, -, -, -, -⟩ := ht
  by_cases hh : σ.hits (rooted l c as) names = true
  · rw [apply_eq, scope_eq_of_none hσ, if_pos hh] at h
    split_ifs at h with hf
    · exact freeNames_of_symbol (beq_iff_eq.1 ((fits_iff.1 hf).1 .head rfl))
    · exact absurd h (none_not_mem_labels _)
  · obtain ⟨s, hs, -⟩ := exists_new_part hσ (Bool.not_eq_true _ ▸ hh) h
    cases c <;> simp [Content.kind, Role.admits, Kind.type] at hk
    cases hs

/-- If there is a new node after a substitution, then no name that is free in the
    replacement is bound, neither above the tree nor in it. -/
theorem mem_freeNames_of_new (hσ : σ.upto = none) (hr : σ.replacement.Shaped) (ht : t.Shaped)
    (h : none ∈ (σ.apply t names role).labels) (hn : name ∈ σ.replacement.freeNames) :
    name ∉ names ∧ name ∈ (σ.apply t names role).freeNames := by
  induction ht generalizing names role with
  | rooted l c as parts values fits keyed ih _ =>
    by_cases hh : σ.hits (rooted l c as) names = true
    · rw [apply_eq, scope_eq_of_none hσ, if_pos hh] at h ⊢
      split_ifs at h ⊢ with hf
      · refine ⟨(fits_iff.1 hf).2 name hn, ?_⟩
        rwa [hr.freeNames_rearranged (rearranges_mapLabels _)]
      · exact absurd h (none_not_mem_labels _)
    · obtain ⟨s, hs, h⟩ := exists_new_part hσ (Bool.not_eq_true _ ▸ hh) h
      rw [mem_freeNames_apply_rooted hσ parts fits (Bool.not_eq_true _ ▸ hh)]
      have hpart {u : Tree ι} (hu : u ∈ c.structural) {r : Role}
          (h : none ∈ (σ.apply u (namesOf c.bound ++ names) (some r)).labels) :
          name ∉ namesOf c.bound ∧ name ∉ names ∧
            name ∈ (σ.apply u (namesOf c.bound ++ names) (some r)).freeNames := by
        obtain ⟨hb, hm⟩ := ih u hu h
        rw [List.mem_append, not_or] at hb
        exact ⟨hb.1, hb.2, hm⟩
      refine (Content.forall_slots (P := fun r u =>
        none ∈ (σ.apply u (namesOf c.bound ++ names) (some r)).labels → name ∉ names ∧ _)).2
        ⟨?_, ?_, ?_, ?_⟩ s hs h
      · intro u hu h
        obtain ⟨-, hb, hm⟩ := hpart (Content.mem_structural_of_child hu) h
        exact ⟨hb, .inr (.inl ⟨u, hu, hm⟩)⟩
      · intro u hu h
        have hfit := (Content.forall_slots (P := fun r (u : Tree ι) => r.admits u.kind = true)).1 fits
        rw [freeNames_of_new_head hσ (parts u (Content.mem_structural_of_head hu))
          (hfit.2.1 u hu) h] at hn
        cases hn
      · -- bound variables are kept, so that none of them is new
        intro u hu h
        rw [apply_of_mem_bound hσ parts fits hu] at h
        exact absurd h (none_not_mem_labels u)
      · intro u hu h
        obtain ⟨hv, hb, hm⟩ := hpart (Content.mem_structural_of_body hu) h
        exact ⟨hb, .inr (.inr ⟨u, hu, hm, hv⟩)⟩

end OpenMath.Substitution
