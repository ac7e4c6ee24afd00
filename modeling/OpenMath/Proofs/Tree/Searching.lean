/-
  Free occurrences in a tree.

  A search for what equals a target goes down through children and bodies, looks at heads
  on the way, and leaves bound variables out; a substitution goes down through all of them.
  Both stop at what is free there, and find the same: what a substitution changes is found
  by the search.  If it is a variable that is replaced, then nothing is found afterwards,
  unless an occurrence was refused since a variable of the replacement would be captured.

  * `Tree.Occurs`: what the search finds;
  * `Occurs.freeNames`: the free names of the target are free where it occurs;
  * `apply_of_not_occurs`: where the target does not occur, nothing is replaced;
  * `Tree.Clear`: no binding of a tree binds one of several names;
  * `ForVar.not_occurs_apply`: where nothing is captured, all occurrences are replaced.
-/
import OpenMath.Proofs.Tree.Equality
import OpenMath.Proofs.Tree.Independence

namespace OpenMath

open OpenMath.Tree

variable {ι κ : Type}

/-! ## The search -/

namespace Tree

variable {o : Tree κ} {t u : Tree ι} {l : ι} {c : Content (Tree ι)} {as : List (Symbol × Tree ι)}
  {names : List String} {name : String}

/-- A target occurs free in a tree, given the names that are bound above it.  An equal head
    counts without further ado. -/
inductive Occurs (o : Tree κ) : List String → Tree ι → Prop
  | here {names : List String} {t : Tree ι} (h : t.equals true o = true)
    (hfree : ∀ name ∈ t.freeNames, name ∉ names) : Occurs o names t
  | head {names : List String} {l : ι} {c : Content (Tree ι)} {as : List (Symbol × Tree ι)}
    {u : Tree ι} (hu : c.head? = some u) (h : u.equals true o = true) :
    Occurs o names (.rooted l c as)
  | child {names : List String} {l : ι} {c : Content (Tree ι)} {as : List (Symbol × Tree ι)}
    {u : Tree ι} (hu : u ∈ c.children) (h : Occurs o (namesOf c.bound ++ names) u) :
    Occurs o names (.rooted l c as)
  | body {names : List String} {l : ι} {c : Content (Tree ι)} {as : List (Symbol × Tree ι)}
    {u : Tree ι} (hu : c.body? = some u) (h : Occurs o (namesOf c.bound ++ names) u) :
    Occurs o names (.rooted l c as)

/-- The search at a node. -/
theorem occurs_rooted : o.Occurs names (rooted l c as) ↔
    ((rooted l c as).equals true o = true ∧ ∀ name ∈ (rooted l c as).freeNames, name ∉ names) ∨
      (∃ u, c.head? = some u ∧ u.equals true o = true) ∨
      (∃ u ∈ c.children, o.Occurs (namesOf c.bound ++ names) u) ∨
      ∃ u, c.body? = some u ∧ o.Occurs (namesOf c.bound ++ names) u := by
  constructor
  · intro h
    generalize ht : rooted l c as = t at h
    cases h with
    | here h hfree => exact .inl ⟨h, hfree⟩
    | head hu h =>
      obtain ⟨rfl, rfl⟩ := rooted_injective ht
      exact .inr (.inl ⟨_, hu, h⟩)
    | child hu h =>
      obtain ⟨rfl, rfl⟩ := rooted_injective ht
      exact .inr (.inr (.inl ⟨_, hu, h⟩))
    | body hu h =>
      obtain ⟨rfl, rfl⟩ := rooted_injective ht
      exact .inr (.inr (.inr ⟨_, hu, h⟩))
  · rintro (⟨h, hfree⟩ | ⟨u, hu, h⟩ | ⟨u, hu, h⟩ | ⟨u, hu, h⟩)
    · exact .here h hfree
    · exact .head hu h
    · exact .child hu h
    · exact .body hu h

theorem exists_symbol_of_type {k : Kind} (h : k.type = .symbol) : ∃ s, k = .symbol s := by
  cases k <;> simp only [Kind.type, reduceCtorEq] at h
  exact ⟨_, rfl⟩

theorem Shaped.equals_of_occurs (ht : t.Shaped) (hk : t.kind.type = .symbol)
    (h : o.Occurs names t) : t.equals true o = true := by
  obtain ⟨l, c, as, -, -, -, -⟩ := ht
  obtain ⟨s, hs⟩ := exists_symbol_of_type hk
  obtain rfl : c = .symbol s := by
    cases c <;> cases hs
    rfl
  rcases occurs_rooted.1 h with ⟨h, -⟩ | ⟨u, hu, -⟩ | ⟨u, hu, -⟩ | ⟨u, hu, -⟩
  · exact h
  all_goals cases hu

/-- The free names of the target are free where it occurs, and are not bound above. -/
theorem Occurs.freeNames (h : o.Occurs names t) (ht : t.Shaped) (ho : o.Shaped)
    (hname : name ∈ o.freeNames) : name ∈ t.freeNames ∧ name ∉ names := by
  induction h with
  | here h hfree =>
    rw [← ht.freeNames_of_equals ho h] at hname
    exact ⟨hname, hfree name hname⟩
  | head hu h =>
    -- no name is free in a symbol
    obtain ⟨parts, fits⟩ := ht.of_rooted
    have hs := (parts _ (Content.mem_structural_of_head hu)).freeNames_of_equals ho h
    rw [← hs, freeNames_of_symbol ((fits_iff.1 fits).1 _ hu)] at hname
    cases hname
  | child hu _ ih =>
    obtain ⟨hm, hn⟩ := ih (ht.of_rooted.1 _ (Content.mem_structural_of_child hu))
    rw [List.mem_append, not_or] at hn
    exact ⟨mem_freeNames_rooted.2 (.inr (.inl ⟨_, hu, hm⟩)), hn.2⟩
  | body hu _ ih =>
    obtain ⟨hm, hn⟩ := ih (ht.of_rooted.1 _ (Content.mem_structural_of_body hu))
    rw [List.mem_append, not_or] at hn
    exact ⟨mem_freeNames_rooted.2 (.inr (.inr ⟨_, hu, hm, hn.1⟩)), hn.2⟩

theorem Shaped.equals_mapLabels {μ : Type} (ht : t.Shaped) (ho : o.Shaped) (f : ι → μ) (w : Bool) :
    (t.mapLabels f).equals w o = t.equals w o := by
  rw [(ht.rearranged (rearranges_mapLabels f)).equals_comm ho,
    ho.equals_rearranged ht (rearranges_mapLabels f), ho.equals_comm ht]

theorem Occurs.mapLabels {μ : Type} (h : o.Occurs names t) (ht : t.Shaped) (ho : o.Shaped)
    (f : ι → μ) : o.Occurs names (t.mapLabels f) := by
  have hbound (c : Content (Tree ι)) : namesOf (c.map (Tree.mapLabels f)).bound = namesOf c.bound := by
    rw [Content.bound_map]
    exact namesOf_map fun u _ => kind_mapLabels f u
  induction h with
  | here h hfree =>
    refine .here (by rwa [ht.equals_mapLabels ho]) ?_
    rwa [ht.freeNames_rearranged (rearranges_mapLabels f)]
  | head hu h =>
    rw [mapLabels_rooted]
    refine .head (by rw [Content.head?_map, hu]; rfl) ?_
    rwa [(ht.of_rooted.1 _ (Content.mem_structural_of_head hu)).equals_mapLabels ho]
  | child hu _ ih =>
    rw [mapLabels_rooted]
    refine .child (by rw [Content.children_map]; exact List.mem_map_of_mem hu) ?_
    rw [hbound]
    exact ih (ht.of_rooted.1 _ (Content.mem_structural_of_child hu))
  | body hu _ ih =>
    rw [mapLabels_rooted]
    refine .body (by rw [Content.body?_map, hu]; rfl) ?_
    rw [hbound]
    exact ih (ht.of_rooted.1 _ (Content.mem_structural_of_body hu))

/-- No binding inside a tree, attributes left out, binds one of several names. -/
inductive Clear (free : List String) : Tree ι → Prop
  | rooted (l : ι) (c : Content (Tree ι)) (as : List (Symbol × Tree ι))
    (own : ∀ name ∈ free, name ∉ namesOf c.bound) (parts : ∀ u ∈ c.structural, Clear free u) :
    Clear free (.rooted l c as)

theorem Clear.of_rooted {free : List String} (h : (Tree.rooted l c as).Clear free) :
    (∀ name ∈ free, name ∉ namesOf c.bound) ∧ ∀ u ∈ c.structural, u.Clear free := by
  generalize ht : Tree.rooted l c as = t at h
  obtain ⟨l', c', as', own, parts⟩ := h
  obtain ⟨rfl, rfl⟩ := rooted_injective ht
  exact ⟨own, parts⟩

end Tree

/-! ## The search and the substitution -/

namespace Substitution

variable [DecidableEq ι] {σ : Substitution ι} {t : Tree ι} {names : List String}
  {role : Option Role} {x : String}

/-- Where the target does not occur free, a substitution leaves the nodes in their places. -/
theorem apply_of_not_occurs (hσ : σ.upto = none) (ht : t.Shaped)
    (h : ¬ σ.target.Occurs names t) : σ.apply t names role = t.mapLabels some := by
  induction ht generalizing names role with
  | rooted l c as parts values fits keyed ih _ =>
    have hh : σ.hits (rooted l c as) names = false := by
      rw [← Bool.not_eq_true, hits_iff]
      exact fun hh => h (.here hh.1 hh.2)
    rw [apply_rooted (by rwa [scope_eq_of_none hσ]), scope_eq_of_none hσ, mapLabels_rooted,
      Content.map_eq_mapRoles (mapLabels some)]
    congr 1
    refine Content.mapRoles_congr (Content.forall_slots (P := fun r u =>
      σ.apply u (namesOf c.bound ++ names) (some r) = u.mapLabels some) |>.2 ⟨?_, ?_, ?_, ?_⟩)
    · intro u hu
      exact ih u (Content.mem_structural_of_child hu) fun ho => h (.child hu ho)
    · intro u hu
      have hm := Content.mem_structural_of_head hu
      exact ih u hm fun ho =>
        h (.head hu ((parts u hm).equals_of_occurs ((Tree.fits_iff.1 fits).1 u hu) ho))
    · intro u hu
      exact apply_of_mem_bound hσ parts fits hu names _
    · intro u hu
      exact ih u (Content.mem_structural_of_body hu) fun ho => h (.body hu ho)

omit [DecidableEq ι] in
theorem not_equals_var {l : κ} (hk : t.kind.type = .symbol) :
    ¬ t.equals true (rooted l (.var x) []) = true := by
  intro h
  have ha := agrees_of_equals h
  obtain ⟨s, hs⟩ := exists_symbol_of_type hk
  rw [hs] at ha
  cases ha

theorem ForVar.apply_head (h : σ.ForVar x) (ht : t.Shaped) (hk : t.kind.type = .symbol) :
    σ.apply t names role = t.mapLabels some := by
  obtain ⟨l, hl⟩ := h.target
  exact apply_of_not_occurs h.upto ht fun ho => not_equals_var hk (hl ▸ ht.equals_of_occurs hk ho)

/-- After a substitution for a variable the variable does not occur free, if no free name of
    the replacement is bound in the tree or above it, and the variable is not one of them. -/
theorem ForVar.not_occurs_apply {l' : κ} (h : σ.ForVar x) (ht : t.Shaped)
    (hr : σ.replacement.Shaped) (hx : x ∉ σ.replacement.freeNames)
    (hclear : t.Clear σ.replacement.freeNames)
    (hnames : ∀ name ∈ σ.replacement.freeNames, name ∉ names)
    (hrole : ∀ r, role = some r → r = .child ∨ r = .body) :
    ¬ (rooted l' (.var x) []).Occurs names (σ.apply t names role) := by
  induction ht generalizing names role with
  | rooted l c as parts values fits keyed ih _ =>
    by_cases hfound : (c = .var x ∧ as = []) ∧ x ∉ names
    · obtain ⟨⟨rfl, rfl⟩, hn⟩ := hfound
      have hfits : σ.fits names role = true := by
        refine fits_iff.2 ⟨fun r hr => ?_, hnames⟩
        rcases hrole r hr with rfl | rfl <;> rfl
      rw [h.apply_found hn, if_pos hfits]
      intro ho
      have hself : x ∈ (rooted l' (.var x) []).freeNames := by
        rw [freeNames_rooted]
        exact List.mem_singleton_self x
      have hfree := (ho.freeNames (hr.rearranged (rearranges_mapLabels _)) (shaped_var l' x) hself).1
      rw [hr.freeNames_rearranged (rearranges_mapLabels _)] at hfree
      exact hx hfree
    · obtain ⟨own, clear⟩ := hclear.of_rooted
      have hin : ∀ name ∈ σ.replacement.freeNames, name ∉ namesOf c.bound ++ names :=
        fun name hm => List.not_mem_append (own name hm) (hnames name hm)
      rw [h.apply_rooted hfound, occurs_rooted, namesOf_bound_apply h.upto parts fits,
        Content.head?_mapRoles, Content.children_mapRoles, Content.body?_mapRoles]
      rintro (⟨he, hfree⟩ | ⟨u, hu, he⟩ | ⟨u, hu, ho⟩ | ⟨u, hu, ho⟩)
      · obtain ⟨hc, has⟩ := equals_var_iff.1 he
        rw [freeNames_rooted, hc] at hfree
        exact hfound ⟨⟨Content.mapRoles_eq_var.1 hc, List.map_eq_nil_iff.1 has⟩,
          hfree x (List.mem_singleton_self x)⟩
      · obtain ⟨v, hv, rfl⟩ := Option.map_eq_some_iff.1 hu
        have hs := (Tree.fits_iff.1 fits).1 v hv
        rw [h.apply_head (parts v (Content.mem_structural_of_head hv)) hs] at he
        exact not_equals_var (by rwa [kind_mapLabels]) he
      · obtain ⟨v, hv, rfl⟩ := List.mem_map.1 hu
        have hm := Content.mem_structural_of_child hv
        exact ih v hm (clear v hm) hin (by rintro r ⟨⟩; exact .inl rfl) ho
      · obtain ⟨v, hv, rfl⟩ := Option.map_eq_some_iff.1 hu
        have hm := Content.mem_structural_of_body hv
        exact ih v hm (clear v hm) hin (by rintro r ⟨⟩; exact .inr rfl) ho

end Substitution

end OpenMath
