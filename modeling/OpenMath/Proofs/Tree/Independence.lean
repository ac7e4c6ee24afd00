/-
  Substitutions for different variables.

  Where a variable is to be replaced the labels of nodes play no part, so that the
  substitution is one of terms.  It stops at nothing but the free occurrences of the
  variable; so it changes nothing where the name is not free, and two of them do not see
  each other if neither brings in the other's variable: it does not matter which of them
  comes first, also where one of them is kept from capturing a variable.

  * `Tree.replaceVar`: substitution for a variable without attributes;
  * `ForVar.toTerm_apply`: substitution on trees with labels;
  * `Shaped.replaceVar_eq_self`: a name that is not free is not replaced;
  * `Shaped.replaceVar_comm`: two substitutions, in both orders;
  * `Shaped.replaceVar_replaceVar`, `ForVar.apply_eq_self`: one substitution twice;
  * `whole_apply`: nothing goes missing.
-/
import OpenMath.Proofs.Tree.Capture
import OpenMath.Proofs.Wire.RoundTrip

namespace OpenMath

open OpenMath.Tree

/-! ## Labels -/

namespace Tree

variable {ι κ : Type}

theorem mapLabels_self (t : Tree ι) : t.mapLabels (fun x => x) = t := by
  induction t using Tree.induction with
  | node l k ss ih =>
    rw [mapLabels_node]
    refine congrArg _ ((List.map_congr_left fun s hs => ?_).trans (List.map_id' _))
    rw [Slot.map, ih s hs]

theorem toTerm_mapLabels (f : ι → κ) (t : Tree ι) : (t.mapLabels f).toTerm = t.toTerm :=
  mapLabels_mapLabels ..

theorem toTerm_term (t : Term) : t.toTerm = t := mapLabels_self t

end Tree

/-! ## Substitution for a variable -/

/-- A variable without attributes. -/
def Term.var (x : String) : Term := .rooted () (.var x) []

/-- A term after the substitution for a variable without attributes, given the names that
    are bound above it and its role. -/
def Tree.replaceVar (t : Term) (x : String) (r : Term) (names : List String)
    (role : Option Role) : Term :=
  (Substitution.apply ⟨Term.var x, r, none⟩ t names role).toTerm

namespace Substitution

variable {ι : Type} {σ : Substitution ι} {x : String} {l : ι} {c : Content (Tree ι)}
  {as : List (Symbol × Tree ι)} {names : List String} {role : Option Role}

/-- A variable without attributes is to be replaced, and all bindings count. -/
structure ForVar (σ : Substitution ι) (x : String) : Prop where
  target : ∃ l, σ.target = rooted l (.var x) []
  upto : σ.upto = none

theorem forVar_var (x : String) (r : Term) : ForVar ⟨Term.var x, r, none⟩ x where
  target := ⟨(), rfl⟩
  upto := rfl

theorem equals_var_iff {κ : Type} {l' : κ} :
    (rooted l c as).equals true (rooted l' (.var x) []) = true ↔ c = .var x ∧ as = [] := by
  rw [equals_rooted_iff true l c as l' (.var x) [] .nil]
  constructor
  · rintro ⟨hk, -, -, -, -, has⟩
    obtain rfl : c = .var x := by
      cases c <;> simp_all [Kind.agrees, Content.kind]
    exact ⟨rfl, List.length_eq_zero_iff.1 (has rfl).1⟩
  · rintro ⟨rfl, rfl⟩
    exact ⟨by simp [Kind.agrees, Content.kind], .nil, .nil, .nil, .nil, by simp⟩

theorem ForVar.hits_iff (h : σ.ForVar x) : σ.hits (rooted l c as) names = true ↔
    (c = .var x ∧ as = []) ∧ x ∉ names := by
  obtain ⟨l', ht⟩ := h.target
  rw [Substitution.hits_iff, ht, equals_var_iff]
  refine and_congr_right ?_
  rintro ⟨rfl, rfl⟩
  rw [freeNames_rooted]
  simp [freeNamesOf]

variable [DecidableEq ι]

theorem ForVar.apply_rooted (h : σ.ForVar x) (hno : ¬ ((c = .var x ∧ as = []) ∧ x ∉ names)) :
    σ.apply (rooted l c as) names role = rooted (some l)
      (c.mapRoles fun r u => σ.apply u (namesOf c.bound ++ names) (some r))
      (as.map fun e => (e.1, e.2.mapLabels some)) := by
  have hs := scope_eq_of_none h.upto (rooted l c as) names
  rw [Substitution.apply_rooted, hs]
  rw [hs, ← Bool.not_eq_true, h.hits_iff]
  exact hno

theorem ForVar.apply_found (h : σ.ForVar x) (hx : x ∉ names) :
    σ.apply (rooted l (.var x) []) names role = if σ.fits names role
      then σ.replacement.mapLabels fun _ => none else (rooted l (.var x) []).mapLabels some := by
  rw [apply_eq, scope_eq_of_none h.upto, if_pos (h.hits_iff.2 ⟨⟨rfl, rfl⟩, hx⟩)]

end Substitution

namespace Tree

variable {x y : String} {r s : Term} {c : Content Term} {as : List (Symbol × Term)}
  {names : List String} {role : Option Role}

theorem replaceVar_found (hx : x ∉ names) : (Term.var x).replaceVar x r names role =
    if Substitution.fits ⟨Term.var x, r, none⟩ names role then r else Term.var x := by
  refine (congrArg toTerm ((Substitution.forVar_var x r).apply_found hx)).trans ?_
  split_ifs
  · rw [toTerm_mapLabels, toTerm_term]
  · rw [toTerm_mapLabels, toTerm_term, Term.var]

theorem replaceVar_rooted (hno : ¬ ((c = .var x ∧ as = []) ∧ x ∉ names)) :
    (rooted () c as).replaceVar x r names role =
      rooted () (c.mapRoles fun p u => u.replaceVar x r (namesOf c.bound ++ names) (some p)) as := by
  have has : (as.map fun e => (e.1, e.2.mapLabels some)).map (fun e => (e.1, e.2.toTerm)) = as := by
    rw [List.map_map]
    refine (List.map_congr_left fun e _ => ?_).trans (List.map_id _)
    exact Prod.ext rfl ((toTerm_mapLabels some e.2).trans (toTerm_term e.2))
  rw [replaceVar, (Substitution.forVar_var x r).apply_rooted hno, toTerm_rooted, has,
    Content.map_eq_mapRoles, Content.mapRoles_mapRoles]
  rfl

end Tree

namespace Substitution

variable {ι : Type} [DecidableEq ι] {σ : Substitution ι} {x : String} {t : Tree ι}
  {names : List String} {role : Option Role}

/-- The labels of nodes play no part. -/
theorem ForVar.toTerm_apply (h : σ.ForVar x) (ht : t.Shaped) :
    (σ.apply t names role).toTerm = t.toTerm.replaceVar x σ.replacement names role := by
  induction ht generalizing names role with
  | rooted l c as _ _ _ _ ih _ =>
    by_cases hfound : (c = .var x ∧ as = []) ∧ x ∉ names
    · obtain ⟨⟨rfl, rfl⟩, hx⟩ := hfound
      have hterm : (rooted l (.var x) []).toTerm = Term.var x := toTerm_rooted ..
      rw [h.apply_found hx, hterm, replaceVar_found hx, apply_ite toTerm, toTerm_mapLabels,
        toTerm_mapLabels, toTerm_term, hterm]
      rfl
    · have hno : ¬ ((c.map toTerm = .var x ∧ (as.map fun e => (e.1, e.2.toTerm)) = []) ∧
          x ∉ names) := by
        rintro ⟨⟨hc, has⟩, hx⟩
        refine hfound ⟨⟨?_, List.map_eq_nil_iff.1 has⟩, hx⟩
        cases c <;> simp_all [Content.map]
      have hnames : namesOf (c.map toTerm).bound = namesOf c.bound := by
        rw [Content.bound_map]
        exact namesOf_map fun u _ => kind_mapLabels _ u
      rw [h.apply_rooted hfound, toTerm_rooted, toTerm_rooted, replaceVar_rooted hno, hnames,
        Content.map_eq_mapRoles, Content.map_eq_mapRoles, Content.mapRoles_mapRoles,
        Content.mapRoles_mapRoles, List.map_map]
      congr 1
      · refine Content.mapRoles_congr fun s hs => ih s.content ?_
        exact c.contents_slots ▸ List.mem_map_of_mem hs
      · exact List.map_congr_left fun e _ => Prod.ext rfl (toTerm_mapLabels some e.2)

end Substitution

namespace Tree

variable {x y : String} {r s t : Term} {names : List String} {role : Option Role}

/-! ## Names that are not free -/

theorem replaceVar_of_mem_bound {c : Content Term} (parts : ∀ u ∈ c.structural, u.Shaped)
    (fits : ∀ s ∈ c.slots, s.role.admits s.content.kind = true) {u : Term} (hu : u ∈ c.bound) :
    u.replaceVar x r (namesOf c.bound ++ names) role = u := by
  rw [replaceVar, Substitution.apply_of_mem_bound rfl parts fits hu, toTerm_mapLabels, toTerm_term]

/-- A variable that is not free, or that is bound above, is not replaced. -/
theorem Shaped.replaceVar_eq_self (ht : t.Shaped) (h : x ∉ t.freeNames ∨ x ∈ names) :
    t.replaceVar x r names role = t := by
  induction ht generalizing names role with
  | rooted l c as parts values fits keyed ih _ =>
    have hno : ¬ ((c = .var x ∧ as = []) ∧ x ∉ names) := by
      rintro ⟨⟨rfl, rfl⟩, hx⟩
      rw [freeNames_rooted] at h
      exact h.elim (fun h => h (List.mem_singleton_self x)) hx
    rw [mem_freeNames_rooted] at h
    simp only [not_or, not_exists, not_and] at h
    have hparts : ∀ s ∈ c.slots,
        s.content.replaceVar x r (namesOf c.bound ++ names) (some s.role) = s.content := by
      refine (Content.forall_slots (P := fun p (u : Term) =>
        u.replaceVar x r (namesOf c.bound ++ names) (some p) = u)).2 ⟨?_, ?_, ?_, ?_⟩
      · intro u hu
        exact ih u (Content.mem_structural_of_child hu)
          (h.imp (fun h => h.2.1 u hu) (List.mem_append_right _))
      · intro u hu
        have hnone := freeNames_of_symbol ((Tree.fits_iff.1 fits).1 u hu)
        exact ih u (Content.mem_structural_of_head hu) (.inl (hnone ▸ List.not_mem_nil))
      · intro u hu
        exact replaceVar_of_mem_bound parts fits hu
      · intro u hu
        refine ih u (Content.mem_structural_of_body hu) ?_
        by_cases hb : x ∈ namesOf c.bound
        · exact .inr (List.mem_append_left _ hb)
        · exact h.imp (fun h hm => h.2.2 u hu hm hb) (List.mem_append_right _)
    rw [replaceVar_rooted hno, Content.mapRoles_congr (g := fun _ u => u) hparts,
      ← Content.map_eq_mapRoles, Content.map_self]

/-! ## Two variables -/

theorem shaped_var {ι : Type} (l : ι) (x : String) : (rooted l (.var x) []).Shaped := by
  refine .rooted l (.var x) [] ?_ ?_ ?_ .nil
  · intro u hu
    cases hu
  · intro e he
    cases he
  · intro s hs
    cases hs

/-- A variable that is found gives way to its replacement, whichever substitution comes
    first. -/
theorem replaceVar_comm_found (hr : r.Shaped) (hxy : x ≠ y) (hy : y ∉ r.freeNames)
    (hx : x ∉ names) :
    ((Term.var x).replaceVar x r names role).replaceVar y s names role =
      ((Term.var x).replaceVar y s names role).replaceVar x r names role := by
  have hself : (Term.var x).replaceVar y s names role = Term.var x := by
    refine (shaped_var () x).replaceVar_eq_self (.inl ?_)
    rw [freeNames_rooted]
    exact fun h => hxy (List.mem_singleton.1 h).symm
  rw [hself, replaceVar_found hx]
  split_ifs
  · exact hr.replaceVar_eq_self (.inl hy)
  · exact hself

/-- Where neither variable is found, both substitutions go on in the parts. -/
theorem replaceVar_replaceVar_rooted {c : Content Term} {as : List (Symbol × Term)}
    (parts : ∀ u ∈ c.structural, u.Shaped)
    (fits : ∀ s ∈ c.slots, s.role.admits s.content.kind = true)
    (hx : ¬ ((c = .var x ∧ as = []) ∧ x ∉ names)) (hy : ¬ ((c = .var y ∧ as = []) ∧ y ∉ names)) :
    ((rooted () c as).replaceVar x r names role).replaceVar y s names role =
      rooted () (c.mapRoles fun p u => (u.replaceVar x r (namesOf c.bound ++ names)
        (some p)).replaceVar y s (namesOf c.bound ++ names) (some p)) as := by
  rw [replaceVar_rooted hx]
  set c' := c.mapRoles fun p u => u.replaceVar x r (namesOf c.bound ++ names) (some p) with hc'
  have hbound : namesOf c'.bound = namesOf c.bound := by
    rw [hc', Content.bound_mapRoles]
    exact namesOf_map fun u hu => congrArg kind (replaceVar_of_mem_bound parts fits hu)
  have hy' : ¬ ((c' = .var y ∧ as = []) ∧ y ∉ names) := by
    rintro ⟨⟨hcy, has⟩, hn⟩
    exact hy ⟨⟨Content.mapRoles_eq_var.1 hcy, has⟩, hn⟩
  rw [replaceVar_rooted hy', hbound, hc', Content.mapRoles_mapRoles]

/-- Two substitutions for different variables, neither of which brings in the variable of
    the other one, come to the same in both orders. -/
theorem Shaped.replaceVar_comm (ht : t.Shaped) (hr : r.Shaped) (hs : s.Shaped) (hxy : x ≠ y)
    (hx : x ∉ s.freeNames) (hy : y ∉ r.freeNames) :
    (t.replaceVar x r names role).replaceVar y s names role =
      (t.replaceVar y s names role).replaceVar x r names role := by
  induction ht generalizing names role with
  | rooted l c as parts values fits keyed ih _ =>
    by_cases hfx : (c = .var x ∧ as = []) ∧ x ∉ names
    · obtain ⟨⟨rfl, rfl⟩, hn⟩ := hfx
      exact replaceVar_comm_found hr hxy hy hn
    by_cases hfy : (c = .var y ∧ as = []) ∧ y ∉ names
    · obtain ⟨⟨rfl, rfl⟩, hn⟩ := hfy
      exact (replaceVar_comm_found hs hxy.symm hx hn).symm
    rw [replaceVar_replaceVar_rooted parts fits hfx hfy,
      replaceVar_replaceVar_rooted parts fits hfy hfx]
    congr 1
    refine Content.mapRoles_congr fun p hp => ih p.content ?_
    exact c.contents_slots ▸ List.mem_map_of_mem hp

/-! ## One variable twice -/

/-- A substitution that does not bring in its own variable has nothing left to do after it
    was done: what was refused is refused again. -/
theorem Shaped.replaceVar_replaceVar (ht : t.Shaped) (hr : r.Shaped) (hx : x ∉ r.freeNames) :
    (t.replaceVar x r names role).replaceVar x r names role = t.replaceVar x r names role := by
  induction ht generalizing names role with
  | rooted l c as parts values fits keyed ih _ =>
    by_cases hfound : (c = .var x ∧ as = []) ∧ x ∉ names
    · obtain ⟨⟨rfl, rfl⟩, hn⟩ := hfound
      have hvar : Tree.rooted l (.var x) [] = Term.var x := rfl
      rw [hvar, replaceVar_found hn]
      split_ifs with hf
      · exact hr.replaceVar_eq_self (.inl hx)
      · rw [replaceVar_found hn, if_neg hf]
    · rw [replaceVar_replaceVar_rooted parts fits hfound hfound, replaceVar_rooted hfound]
      congr 1
      refine Content.mapRoles_congr fun p hp => ih p.content ?_
      exact c.contents_slots ▸ List.mem_map_of_mem hp

end Tree

namespace Substitution

variable {ι : Type} [DecidableEq ι] {σ : Substitution ι} {x : String} {t : Tree ι}
  {names : List String} {role : Option Role}

/-- If a substitution for a variable, which does not bring that in, leaves the term of a tree
    as it is, then it leaves the nodes in their places. -/
theorem ForVar.apply_eq_self (h : σ.ForVar x) (ht : t.Shaped) (hx : x ∉ σ.replacement.freeNames)
    (he : t.toTerm.replaceVar x σ.replacement names role = t.toTerm) :
    σ.apply t names role = t.mapLabels some := by
  rw [← h.toTerm_apply ht] at he
  induction ht generalizing names role with
  | rooted l c as _ _ _ _ ih _ =>
    by_cases hfound : (c = .var x ∧ as = []) ∧ x ∉ names
    · obtain ⟨⟨rfl, rfl⟩, hn⟩ := hfound
      rw [h.apply_found hn] at he ⊢
      split_ifs at he ⊢
      · rw [toTerm_mapLabels, toTerm_term] at he
        rw [he, toTerm_rooted, freeNames_rooted] at hx
        exact absurd (List.mem_singleton_self x) hx
      · rfl
    · rw [h.apply_rooted hfound] at he ⊢
      rw [toTerm_rooted, toTerm_rooted] at he
      have hc := congrArg Content.slots (rooted_injective he).1
      rw [Content.slots_map, Content.slots_map, Content.slots_mapRoles, Slots.mapContent,
        Slots.mapContent, List.map_map, List.map_inj_left] at hc
      rw [mapLabels_rooted, Content.map_eq_mapRoles (mapLabels some)]
      congr 1
      refine Content.mapRoles_congr fun s hs => ih s.content ?_ ?_
      · exact c.contents_slots ▸ List.mem_map_of_mem hs
      · exact congrArg Slot.content (hc s hs)

end Substitution

/-! ## Nothing goes missing -/

namespace Tree

variable {ι κ : Type}

theorem whole_mapLabels (f : ι → κ) {t : Tree ι} : (t.mapLabels f).Whole ↔ t.Whole := by
  induction t using Tree.induction with
  | node l k ss ih =>
    rw [mapLabels_node, whole_node, whole_node, Slots.mapContent, List.forall_mem_map]
    simp only [List.mem_map, exists_exists_and_eq_and]
    exact and_congr_right fun _ => forall_congr' fun s => imp_congr_right fun hs => ih s hs

end Tree

namespace Substitution

variable {ι : Type} [DecidableEq ι] {σ : Substitution ι}

omit [DecidableEq ι] in
theorem role_rewriteSlot (names : List String)
    (s : Slot (Tree ι × (List String → Option Role → Tree (Option ι)))) :
    (rewriteSlot names s).role = s.role := by
  obtain ⟨role, u⟩ := s
  cases role <;> rfl

/-- A substitution empties no slot. -/
theorem whole_apply {t : Tree ι} (ht : t.Whole) (hr : σ.replacement.Whole) (above : List String)
    (role : Option Role) : (σ.apply t above role).Whole := by
  induction t using Tree.induction generalizing above role with
  | node l k ss ih =>
    rw [apply_eq]
    split_ifs
    · exact (whole_mapLabels _).2 hr
    · exact (whole_mapLabels _).2 ht
    · obtain ⟨hroles, hparts⟩ := whole_node.1 ht
      refine whole_node.2 ⟨?_, List.forall_mem_map.2 ?_⟩
      · intro r hr
        obtain ⟨s, hs, rfl⟩ := hroles r hr
        exact ⟨_, List.mem_map_of_mem hs, role_rewriteSlot ..⟩
      · intro s hs
        rcases content_rewriteSlot (σ := σ) _ s with h | ⟨p, h⟩
        · rw [h]
          exact (whole_mapLabels _).2 (hparts s hs)
        · rw [h]
          exact ih s hs (hparts s hs) _ p

end Substitution

namespace Tree

variable {t r : Term} {x : String} {names : List String} {role : Option Role}

theorem whole_replaceVar (ht : t.Whole) (hr : r.Whole) : (t.replaceVar x r names role).Whole := by
  rw [replaceVar, toTerm, whole_mapLabels]
  exact Substitution.whole_apply ht hr names role

theorem all_replaceVar {P : Kind → Prop} (ht : t.All P) (hr : r.All P) :
    (t.replaceVar x r names role).All P := by
  rw [replaceVar, toTerm, all_mapLabels]
  exact Substitution.all_apply ht hr names role

end Tree

end OpenMath
