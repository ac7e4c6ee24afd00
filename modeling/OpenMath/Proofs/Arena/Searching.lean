/-
  The search for free occurrences.

  The search goes down from a node, and judges what equals the target by climbing from it,
  with respect to the whole tree.  This is the search on the tree of the node, in which the
  bound names are carried along.  A target that is not found is not replaced, and a variable
  that was replaced everywhere is not found.

  * `Wf.occursFree_iff`: the search, on trees;
  * `occursFree_stale`: what is not there is not found;
  * `Exchanged.isVariable_or_freed`: a variable stays one, or is given up;
  * `Reachable.occursFree_agrees`: the search and the substitution.
-/
import OpenMath.Proofs.Arena.Displacing
import OpenMath.Proofs.Arena.Independence
import OpenMath.Proofs.Tree.Searching

namespace OpenMath.Arena

open OpenMath.Tree

variable {a b : Arena} {id x target replacement : NodeId} {n : Node} {t t' o : Tree NodeId}
  {cs : Content (Tree NodeId)} {as : List (Symbol × Tree NodeId)} {names : List String}
  {name : String}

/-! ## The search on trees -/

/-- The search at a node. -/
theorem occursFree_rooted (hn : a.node? id = some n) (hr : a.Roots n cs as) :
    a.occursFree id target = true ↔
      (a.equals id target true = true ∧ a.isFree id none = true) ∨
        (∃ u, cs.head? = some u ∧ a.equals u.label target true = true) ∨
        (∃ u ∈ cs.children, a.occursFree u.label target = true) ∨
        ∃ u, cs.body? = some u ∧ a.occursFree u.label target = true := by
  obtain ⟨step, hstep, hocc⟩ : ∃ step : Tree NodeId → Slots (Tree NodeId × Bool) → Bool,
      (∀ t ss, step t ss = searchStep (fun u => a.equals u.label target true && a.isFree u.label none)
        (fun u => a.equals u.label target true) t ss) ∧
      ∀ id t, a.tree? id = some t → a.occursFree id target = t.recurse step :=
    ⟨_, fun _ _ => rfl, fun id t h => by rw [occursFree, h]⟩
  have hpart {u : Tree NodeId} (hu : u ∈ cs.structural) : a.occursFree u.label target = u.recurse step :=
    hocc _ _ (hr.part u hu)
  rw [hocc _ _ (tree?_rooted hn hr), recurse_eq, slots_rooted, Content.mapContent_allSlots, hstep,
    searchStep]
  simp only [label_rooted, Content.head?_allSlots, Content.body?_allSlots, Content.children_allSlots,
    Content.head?_map, Content.body?_map, Content.children_map, Bool.or_eq_true, Bool.and_eq_true,
    Option.any_map, List.any_map, Option.any_eq_true, List.any_eq_true, Function.comp_apply]
  have hchildren : (∃ u ∈ cs.children, u.recurse step = true) ↔
      ∃ u ∈ cs.children, a.occursFree u.label target = true :=
    exists_congr fun u => and_congr_right fun hu => by
      rw [hpart (Content.mem_structural_of_child hu)]
  have hbody : (∃ u, cs.body? = some u ∧ u.recurse step = true) ↔
      ∃ u, cs.body? = some u ∧ a.occursFree u.label target = true :=
    exists_congr fun u => and_congr_right fun hu => by
      rw [hpart (Content.mem_structural_of_body hu)]
  rw [hchildren, hbody, or_assoc, or_assoc, or_comm (b := ∃ u ∈ cs.children, _)]

/-- What is not there is not found. -/
theorem occursFree_stale (h : a.node? id = none ∨ a.node? target = none) :
    a.occursFree id target = false := by
  rcases h with h | h
  · have ht : a.tree? id = none := by rw [tree?, h]; rfl
    rw [occursFree, ht]
  · have hequals (x : NodeId) : a.equals x target true = false := by
      have ht : a.tree? target = none := by rw [tree?, h]; rfl
      rw [equals, ht]
      split <;> simp_all
    cases ht : a.tree? id with
    | none => rw [occursFree, ht]
    | some t =>
      refine tree?_induction_rooted (P := fun id _ => a.occursFree id target = false) ?_ ht
      intro id n cs as hn hr ih _
      rw [← Bool.not_eq_true, occursFree_rooted hn hr]
      simp only [hequals, Bool.false_eq_true, false_and, and_false, exists_false, false_or]
      rintro (⟨u, hu, h⟩ | ⟨u, hu, h⟩)
      · simp [ih u (Content.mem_structural_of_child hu)] at h
      · simp [ih u (Content.mem_structural_of_body hu)] at h

/-- The search from a node is the one on the tree of it, where the names count that are
    bound above the node. -/
theorem Wf.occursFree_iff (w : a.Wf) (ht : a.tree? id = some t) (ho : a.tree? target = some o)
    (hs : a.scope? none id = some names) :
    a.occursFree id target = true ↔ o.Occurs names t := by
  refine tree?_induction_rooted (P := fun id t => ∀ names, a.scope? none id = some names →
    (a.occursFree id target = true ↔ o.Occurs names t)) ?_ ht names hs
  intro id n cs as hn hr ih _ names hs
  have hequals {x : NodeId} {u : Tree NodeId} (hu : a.tree? x = some u) :
      a.equals x target true = u.equals true o := by
    rw [equals, hu, ho]
  have hpart {u : Tree NodeId} (hu : u ∈ cs.structural) :
      a.occursFree u.label target = true ↔ o.Occurs (namesOf cs.bound ++ names) u := by
    refine ih u hu _ ?_
    rw [scope?_of_parent ((hr.parent w hn).1 u hu) hs, boundNames_roots hn hr]
    simp
  have ht := tree?_rooted hn hr
  rw [occursFree_rooted hn hr, occurs_rooted, w.isFree_iff ht hs, hequals ht]
  refine or_congr_right (or_congr ?_ (or_congr ?_ ?_))
  · refine exists_congr fun u => and_congr_right fun hu => ?_
    rw [hequals (hr.part u (Content.mem_structural_of_head hu))]
  · exact exists_congr fun u => and_congr_right fun hu => hpart (Content.mem_structural_of_child hu)
  · exact exists_congr fun u => and_congr_right fun hu => hpart (Content.mem_structural_of_body hu)

theorem Wf.clear (w : a.Wf) (ht : a.tree? id = some t) {free : List String}
    (h : ∀ y, a.Under id y → ∀ name ∈ free, name ∉ a.boundNames y none) : t.Clear free := by
  refine tree?_induction_rooted (P := fun id t =>
    (∀ y, a.Under id y → ∀ name ∈ free, name ∉ a.boundNames y none) → t.Clear free) ?_ ht h
  intro id n cs as hn hr ih _ h
  refine .rooted id cs as (boundNames_roots hn hr ▸ h id .refl) fun u hu => ih u hu fun y hy => ?_
  exact h y ((Under.of_parent ((hr.parent w hn).1 u hu)).trans hy)

/-! ## The search and the substitution -/

theorem Wf.freeVariables_of_occursFree (w : a.Wf) (ht : a.tree? id = some t)
    (ho : a.tree? target = some o) (h : a.occursFree id target = true) :
    ∀ name ∈ a.freeVariables target, name ∈ a.freeVariables id := by
  intro name hm
  obtain ⟨names, hs⟩ := w.acyclic.exists_scope none id
  rw [freeVariables_eq ho, mem_freeVariables] at hm
  rw [freeVariables_eq ht, mem_freeVariables]
  exact (((w.occursFree_iff ht ho hs).1 h).freeNames (w.shaped ht) (w.shaped ho) hm).1

/-- A variable without attributes that does not give way stays as it is. -/
theorem Exchanged.isVariable_or_freed {found : NodeId → Prop} {copyOf : NodeId → NodeId}
    (h : a.Exchanged b found replacement copyOf) (hx : a.IsVariable x name) :
    b.IsVariable x name ∨ b.node? x = none := by
  obtain ⟨n, hn, hcontent, hattributes⟩ := hx
  by_cases hd : a.Displaced found x
  · refine .inr (Option.eq_none_iff_forall_ne_some.2 fun m hm => ?_)
    rcases (h.live x).1 (contains_iff.2 ⟨m, hm⟩) with ⟨-, hno⟩ | ⟨z, hz, hu⟩
    · exact hno hd
    · exact absurd (h.fresh z hz x hu) (not_le.2 (node?_lt hn))
  · refine .inl ⟨_, h.kept x n hn hd, ?_, ?_⟩
    · rw [Node.mapOwned, hcontent, Content.map]
    · rw [Node.mapOwned, hattributes, List.map_nil]

/-- After a substitution for a variable in a root, the variable does not occur free in what
    was made, if nothing was captured. -/
theorem Outcome.occursFree_eq_false {σ τ : Substitution NodeId} (h : Outcome σ names t t' a b)
    (hs : t.Shaped) (hroot : a.parent? t.label = none) (hx : b.IsVariable x name)
    (hτ : τ.ForVar name) (hterm : t'.mapLabels (older a.next) = τ.apply t [] none)
    (hr : τ.replacement.Shaped) (hname : name ∉ τ.replacement.freeNames)
    (hclear : t.Clear τ.replacement.freeNames) : b.occursFree t'.label x = false := by
  have w := h.wf
  rw [← Bool.not_eq_true, w.occursFree_iff h.tree (tree?_of_isVariable w hx)
    (scope?_root (h.parent.trans hroot))]
  intro hocc
  have hocc := hocc.mapLabels (w.shaped h.tree) (shaped_var x name) (older a.next)
  rw [hterm] at hocc
  refine hτ.not_occurs_apply hs hr hname hclear (fun _ _ => List.not_mem_nil) ?_ hocc
  rintro _ ⟨⟩

/-- Where a target does not occur free in a root, nothing is replaced and nothing changes;
    where it does, its free variables are free in the root; and when a variable without
    attributes was replaced it does not occur free in the result, if it is not free in the
    replacement, and if nothing that is free there is bound inside the root. -/
theorem Reachable.occursFree_agrees (h : a.Reachable) (hroot : a.parent? id = none)
    (ho : a.Copyable target) (hr : a.Copyable replacement) :
    (a.occursFree id target = true →
      ∀ name ∈ a.freeVariables target, name ∈ a.freeVariables id) ∧
    ∃ x b, replaceFree id target replacement a = some (.ok x, b) ∧
      (a.occursFree id target = false → x = id ∧ ∀ y, b.node? y = a.node? y) ∧
      ∀ name, a.IsVariable target name → name ∉ a.freeVariables replacement →
        (∀ y, a.isAncestorOrSelf id y = true → ∀ m ∈ a.freeVariables replacement,
          m ∉ a.boundNames y none) → b.occursFree x target = false := by
  have w := h.wf
  obtain ⟨o, co, ho, hco⟩ := w.copyable_iff.1 ho
  obtain ⟨r, cr, hr, hcr⟩ := w.copyable_iff.1 hr
  cases hid : a.node? id with
  | none =>
    have hfound : a.occursFree id target = false := occursFree_stale (.inl hid)
    obtain ⟨b, hrun, hb⟩ := w.replaceFreeWithin_nothing hid ho hr hco hcr (some id)
    refine ⟨by simp [hfound], id, b, hrun, fun _ => ⟨rfl, hb.node?_eq⟩, fun _ _ _ _ => ?_⟩
    exact occursFree_stale (.inl ((hb.node?_eq id).trans hid))
  | some n =>
    obtain ⟨t, ht⟩ := w.exists_tree hid
    obtain rfl := tree?_label ht
    refine ⟨w.freeVariables_of_occursFree ht ho, ?_⟩
    obtain ⟨names, b, t', copyOf, hrun, hout, hterm, -, hexchanged⟩ :=
      w.replaceFreeWithin_exchanged ht ho hr hco hcr (some t.label)
    have hrole : (a.location? t.label).map Location.role = none := by
      rw [location?, hroot]
      rfl
    rw [w.apply_eq_unbounded ht rfl, hrole] at hterm
    refine ⟨t'.label, b, hrun, fun hno => ?_, fun name hx hname hclear => ?_⟩
    · rw [← Bool.not_eq_true, w.occursFree_iff ht ho (scope?_root hroot)] at hno
      rw [Substitution.apply_of_not_occurs rfl (w.shaped ht) hno] at hterm
      obtain rfl := eq_of_mapLabels_older hterm
      exact ⟨rfl, hout.unchanged w ht⟩
    · rcases hexchanged.isVariable_or_freed hx with hx' | hx'
      · cases ho.symm.trans (tree?_of_isVariable w hx)
        obtain ⟨hscr, -, hfree⟩ := (w.shaped hr).of_copy hcr
        simp only [freeVariables_eq hr, mem_freeVariables, ← hfree,
          w.acyclic.isAncestorOrSelf_iff] at hname hclear
        exact hout.occursFree_eq_false (w.shaped ht) hroot hx'
          (forVar_forVariable target name cr t.label) hterm hscr hname (w.clear ht hclear)
      · exact occursFree_stale (.inr hx')

/-- An operand is found and gives way; a bound variable is not found, and stays. -/
theorem occursFree_agrees_applied :
    applied.occursFree 2 1 = true ∧ "x" ∈ applied.freeVariables 2 ∧
      (∃ b, replaceFree 2 1 0 applied = some (.ok 2, b) ∧ b.occursFree 2 1 = false) ∧
      identity.occursFree 3 2 = false ∧
      ∃ b, replaceFree 3 2 0 identity = some (.ok 3, b) ∧ ∀ y, b.node? y = identity.node? y := by
  have hfound : applied.occursFree 2 1 = true := by cbv
  have hbound : identity.occursFree 3 2 = false := by cbv
  have hx : applied.freeVariables 1 = ["x"] := by cbv
  have hf : applied.freeVariables 0 = ["f"] := by cbv
  have hnone (y : NodeId) : applied.boundNames y none = [] := by
    rcases y with _ | _ | _ | y
    · rfl
    · rfl
    · rfl
    · simp [boundNames, node?, applied]
  have hbody : identity.Copyable 2 := ⟨4, ⟨identity.places.push (some ⟨.var "x", [], none⟩)⟩, by cbv⟩
  have hhead : identity.Copyable 0 :=
    ⟨4, ⟨identity.places.push (some ⟨.symbol binder, [], none⟩)⟩, by cbv⟩
  obtain ⟨hfree, x, b, hrun, -, hgone⟩ := reachable_applied.occursFree_agrees
    (rfl : applied.parent? 2 = none) copyable_applied.2 copyable_applied.1
  obtain ⟨-, y, c, hrun', hkept, -⟩ := reachable_identity.occursFree_agrees
    (rfl : identity.parent? 3 = none) hbody hhead
  have h : replaceFree 2 1 0 applied = some (.ok 2, ⟨#[some ⟨.var "f", [], some 2⟩, none,
      some ⟨.application [0, 5], [], none⟩, none, none, some ⟨.var "f", [], some 2⟩]⟩) := by cbv
  cases hrun.symm.trans h
  obtain ⟨rfl, hsame⟩ := hkept hbound
  refine ⟨hfound, hfree hfound "x" (hx ▸ List.mem_singleton_self "x"), ⟨_, hrun, ?_⟩, hbound, c,
    hrun', hsame⟩
  refine hgone "x" ⟨⟨.var "x", [], some 2⟩, rfl, rfl, rfl⟩ (by rw [hf]; decide) fun y _ m _ => ?_
  rw [hnone y]
  exact List.not_mem_nil

end OpenMath.Arena
