/-
  Structural equality is an equivalence.

  That attributes agree is asked of one side only: each attribute on the left has to be
  found on the right, and there have to be as many on both sides.  Since no two keys of
  a node agree, no attribute on the right is found twice, so that all are found.

  * `Content.Related`: contents whose parts are related one by one;
  * `Keyed.exists_of_found`: if all attributes on the left are found on the right, all
    on the right are on the left;
  * `Shaped.equals_symm`, `Shaped.equals_trans`: the laws that `Shaped.equals_self`
    leaves open;
  * `Tree.Variant`, `Variant.equals`: trees that differ in the order of attributes, in
    the uris of their keys, and in labels, are equal.
-/
import OpenMath.Proofs.Wire.RoundTrip

namespace OpenMath

/-! ## Payloads -/

theorem Double.numericEq_comm (x y : Double) : x.numericEq y = y.numericEq x := by
  simp only [numericEq, BEq.comm (a := x.bits), Bool.and_comm x.isZero]
  rw [Bool.and_comm (!x.isNaN)]

/-- Only the zeros are equal as numbers and not the same. -/
theorem Double.numericEq_trans {x y z : Double} (h : x.numericEq y = true)
    (h' : y.numericEq z = true) : x.numericEq z = true := by
  simp only [numericEq, Bool.and_eq_true, Bool.or_eq_true, beq_iff_eq] at h h' ⊢
  refine ⟨⟨h.1.1, h'.1.2⟩, ?_⟩
  rcases h.2 with e | ⟨hx, hy⟩
  · have : x = y := by cases x; cases y; cases e; rfl
    subst this
    exact h'.2
  · rcases h'.2 with e | ⟨-, hz⟩
    · have : y = z := by cases y; cases z; cases e; rfl
      subst this
      exact .inr ⟨hx, hy⟩
    · exact .inr ⟨hx, hz⟩

theorem Kind.agrees_comm (k k' : Kind) : k.agrees k' = k'.agrees k := by
  cases k <;> cases k' <;> first | exact Double.numericEq_comm .. | exact BEq.comm

theorem Kind.agrees_cases {k k' : Kind} (h : k.agrees k' = true) :
    k = k' ∨ ∃ x y, k = .float x ∧ k' = .float y ∧ x.numericEq y = true := by
  cases k <;> cases k' <;> simp_all [agrees]

theorem Kind.agrees_trans {k k' k'' : Kind} (h : k.agrees k' = true) (h' : k'.agrees k'' = true) :
    k.agrees k'' = true := by
  rcases agrees_cases h with rfl | ⟨x, y, rfl, rfl, hxy⟩
  · exact h'
  · rcases agrees_cases h' with rfl | ⟨_, z, ⟨⟩, rfl, hyz⟩
    · exact h
    · exact Double.numericEq_trans hxy hyz

/-! ## Related lists and contents -/

section
variable {α β γ : Type} {R : α → β → Prop} {S : β → γ → Prop}

theorem forall₂_mem {xs : List α} {ys : List β} (h : List.Forall₂ R xs ys) :
    List.Forall₂ (fun x y => x ∈ xs ∧ y ∈ ys ∧ R x y) xs ys := by
  induction h with
  | nil => exact .nil
  | cons hxy _ ih =>
    refine .cons ⟨List.mem_cons_self .., List.mem_cons_self .., hxy⟩ (ih.imp ?_)
    rintro x y ⟨hx, hy, h⟩
    exact ⟨List.mem_cons_of_mem _ hx, List.mem_cons_of_mem _ hy, h⟩

theorem forall₂_comp {xs : List α} {ys : List β} {zs : List γ} (h : List.Forall₂ R xs ys)
    (h' : List.Forall₂ S ys zs) : List.Forall₂ (fun x z => ∃ y, R x y ∧ S y z) xs zs := by
  induction h generalizing zs with
  | nil =>
    cases h'
    exact .nil
  | cons hxy _ ih =>
    obtain _ | ⟨hyz, h'⟩ := h'
    exact .cons ⟨_, hxy, hyz⟩ (ih h')

/-- Contents with the same slots filled, in which what is in a slot is related to what is
    in the same slot of the other. -/
structure Content.Related (R : α → β → Prop) (c : Content α) (c' : Content β) : Prop where
  children : List.Forall₂ R c.children c'.children
  head : List.Forall₂ R c.head?.toList c'.head?.toList
  bound : List.Forall₂ R c.bound c'.bound
  body : List.Forall₂ R c.body?.toList c'.body?.toList

namespace Content.Related

variable {c : Content α} {c' : Content β} {c'' : Content γ}

theorem mono {R' : α → β → Prop} (h : c.Related R c')
    (hR : ∀ x ∈ c.structural, ∀ y ∈ c'.structural, R x y → R' x y) : c.Related R' c' := by
  have key {xs : List α} {ys : List β} (h : List.Forall₂ R xs ys) (hx : ∀ x ∈ xs, x ∈ c.structural)
      (hy : ∀ y ∈ ys, y ∈ c'.structural) : List.Forall₂ R' xs ys :=
    (forall₂_mem h).imp fun x y h => hR x (hx x h.1) y (hy y h.2.1) h.2.2
  exact ⟨key h.children (fun _ => mem_structural_of_child) fun _ => mem_structural_of_child,
    key h.head (fun _ hx => mem_structural_of_head (Option.mem_toList.1 hx))
      fun _ hx => mem_structural_of_head (Option.mem_toList.1 hx),
    key h.bound (fun _ => mem_structural_of_bound) fun _ => mem_structural_of_bound,
    key h.body (fun _ hx => mem_structural_of_body (Option.mem_toList.1 hx))
      fun _ hx => mem_structural_of_body (Option.mem_toList.1 hx)⟩

theorem flip (h : c.Related R c') : c'.Related (fun y x => R x y) c :=
  ⟨h.children.flip, h.head.flip, h.bound.flip, h.body.flip⟩

theorem comp (h : c.Related R c') (h' : c'.Related S c'') :
    c.Related (fun x z => ∃ y, R x y ∧ S y z) c'' :=
  ⟨forall₂_comp h.children h'.children, forall₂_comp h.head h'.head, forall₂_comp h.bound h'.bound,
    forall₂_comp h.body h'.body⟩

end Content.Related

/-- Two changes of the parts of one content. -/
theorem Content.related_map {f : γ → α} {g : γ → β} {c : Content γ}
    (h : ∀ x ∈ c.structural, R (f x) (g x)) : (c.map f).Related R (c.map g) := by
  have key {xs : List γ} (hx : ∀ x ∈ xs, x ∈ c.structural) :
      List.Forall₂ R (xs.map f) (xs.map g) := by
    rw [List.forall₂_map_left_iff, List.forall₂_map_right_iff]
    exact List.forall₂_same.2 fun x hm => h x (hx x hm)
  constructor
  · rw [children_map, children_map]
    exact key fun _ => mem_structural_of_child
  · rw [head?_map, head?_map, Option.toList_map, Option.toList_map]
    exact key fun _ hx => mem_structural_of_head (Option.mem_toList.1 hx)
  · rw [bound_map, bound_map]
    exact key fun _ => mem_structural_of_bound
  · rw [body?_map, body?_map, Option.toList_map, Option.toList_map]
    exact key fun _ hx => mem_structural_of_body (Option.mem_toList.1 hx)

/-- If each attribute on the left is found on the right, and there are as many on both
    sides, each on the right is on the left: no two on the left are found in one place. -/
theorem Keyed.exists_of_found {as : List (Symbol × α)} {bs : List (Symbol × β)} (hk : Keyed as)
    (hl : as.length = bs.length)
    (h : ∀ d ∈ as, ∃ e ∈ bs, d.1.sameKey e.1 = true ∧ R d.2 e.2) :
    ∀ e ∈ bs, ∃ d ∈ as, d.1.sameKey e.1 = true ∧ R d.2 e.2 := by
  induction as generalizing bs with
  | nil =>
    cases bs with
    | nil => nofun
    | cons => cases hl
  | cons d as ih =>
    obtain ⟨hd, hk⟩ := List.pairwise_cons.1 hk
    obtain ⟨⟨f, hf, hdf, hr⟩, h⟩ := List.forall_mem_cons.1 h
    obtain ⟨bs₁, bs₂, rfl⟩ := List.append_of_mem hf
    have hrest : ∀ d' ∈ as, ∃ e ∈ bs₁ ++ bs₂, d'.1.sameKey e.1 = true ∧ R d'.2 e.2 := by
      intro d' hd'
      obtain ⟨e, he, hde, hre⟩ := h d' hd'
      have hne : e ≠ f := by
        rintro rfl
        have := hd d' hd'
        rw [Symbol.sameKey_trans hdf (Symbol.sameKey_comm .. ▸ hde)] at this
        cases this
      refine ⟨e, ?_, hde, hre⟩
      simpa [hne] using he
    have hlen : as.length = (bs₁ ++ bs₂).length := by
      simp only [List.length_append, List.length_cons] at hl ⊢
      omega
    intro e he
    by_cases hm : e ∈ bs₁ ++ bs₂
    · obtain ⟨d', hd', h'⟩ := ih hk hlen hrest e hm
      exact ⟨d', List.mem_cons_of_mem _ hd', h'⟩
    · have hef : e = f := by
        by_contra hne
        exact hm (by simpa [hne] using he)
      exact ⟨d, List.mem_cons_self .., hef ▸ hdf, hef ▸ hr⟩

end

namespace Tree

variable {ι κ μ : Type}

/-! ## Equality -/

/-- What the contents and the attributes of two nodes have to be if the nodes are
    equal. -/
theorem equals_rooted_iff_related (w : Bool) (l : ι) (c : Content (Tree ι))
    (as : List (Symbol × Tree ι)) (l' : κ) (c' : Content (Tree κ)) (as' : List (Symbol × Tree κ))
    (hk : Keyed as') :
    equals w (rooted l c as) (rooted l' c' as') = true ↔
      c.kind.agrees c'.kind = true ∧ c.Related (fun t u => equals w t u = true) c' ∧
      (w = true → as.length = as'.length ∧
        ∀ d ∈ as, ∃ e ∈ as', d.1.sameKey e.1 = true ∧ equals w d.2 e.2 = true) := by
  rw [equals_rooted_iff w l c as l' c' as' hk]
  constructor
  · rintro ⟨h, hc, hh, hv, hb, ha⟩
    exact ⟨h, ⟨hc, hh, hv, hb⟩, ha⟩
  · rintro ⟨h, ⟨hc, hh, hv, hb⟩, ha⟩
    exact ⟨h, hc, hh, hv, hb, ha⟩

theorem Shaped.equals_symm {t : Tree ι} (ht : t.Shaped) {u : Tree κ} (hu : u.Shaped) {w : Bool}
    (h : t.equals w u = true) : u.equals w t = true := by
  induction ht generalizing u with
  | rooted l c as _ _ _ keyed ihp ihv =>
    obtain ⟨l', c', as', parts, values, -, keyed'⟩ := hu
    obtain ⟨hk, hc, ha⟩ := (equals_rooted_iff_related w l c as l' c' as' keyed').1 h
    refine (equals_rooted_iff_related w l' c' as' l c as keyed).2
      ⟨Kind.agrees_comm .. ▸ hk, ?_, fun hw => ?_⟩
    · exact (hc.mono fun x hx y hy => ihp x hx (parts y hy)).flip
    · obtain ⟨hlen, hfound⟩ := ha hw
      refine ⟨hlen.symm, fun e he => ?_⟩
      obtain ⟨d, hd, hde, heq⟩ :=
        keyed.exists_of_found (R := fun t u => equals w t u = true) hlen hfound e he
      exact ⟨d, hd, Symbol.sameKey_comm .. ▸ hde, ihv d hd (values e he) heq⟩

theorem Shaped.equals_comm {t : Tree ι} (ht : t.Shaped) {u : Tree κ} (hu : u.Shaped) {w : Bool} :
    t.equals w u = u.equals w t :=
  Bool.eq_iff_iff.2 ⟨ht.equals_symm hu, hu.equals_symm ht⟩

theorem Shaped.equals_trans {t : Tree ι} (ht : t.Shaped) {u : Tree κ} (hu : u.Shaped) {v : Tree μ}
    (hv : v.Shaped) {w : Bool} (h : t.equals w u = true) (h' : u.equals w v = true) :
    t.equals w v = true := by
  induction ht generalizing u v with
  | rooted l c as _ _ _ _ ihp ihv =>
    obtain ⟨l', c', as', parts', values', -, keyed'⟩ := hu
    obtain ⟨l'', c'', as'', parts'', values'', -, keyed''⟩ := hv
    obtain ⟨hk, hc, ha⟩ := (equals_rooted_iff_related w l c as l' c' as' keyed').1 h
    obtain ⟨hk', hc', ha'⟩ := (equals_rooted_iff_related w l' c' as' l'' c'' as'' keyed'').1 h'
    refine (equals_rooted_iff_related w l c as l'' c'' as'' keyed'').2
      ⟨Kind.agrees_trans hk hk', ?_, fun hw => ?_⟩
    · have hc : c.Related (fun t u => u.Shaped ∧ t.equals w u = true) c' :=
        hc.mono fun _ _ y hy h => ⟨parts' y hy, h⟩
      refine (hc.comp hc').mono ?_
      rintro x hx z hz ⟨y, ⟨hy, hxy⟩, hyz⟩
      exact ihp x hx hy (parts'' z hz) hxy hyz
    · obtain ⟨hlen, hfound⟩ := ha hw
      obtain ⟨hlen', hfound'⟩ := ha' hw
      refine ⟨hlen.trans hlen', fun d hd => ?_⟩
      obtain ⟨e, he, hde, heq⟩ := hfound d hd
      obtain ⟨f, hf, hef, heq'⟩ := hfound' e he
      exact ⟨f, hf, Symbol.sameKey_trans hde hef, ihv d hd (values' e he) (values'' f hf) heq heq'⟩

theorem Shaped.equals_without {t : Tree ι} (ht : t.Shaped) {u : Tree κ} (hu : u.Shaped)
    (h : t.equals true u = true) : t.equals false u = true := by
  induction ht generalizing u with
  | rooted l c as _ _ _ _ ihp _ =>
    obtain ⟨l', c', as', parts, _, -, keyed⟩ := hu
    obtain ⟨hk, hc, -⟩ := (equals_rooted_iff_related true l c as l' c' as' keyed).1 h
    exact (equals_rooted_iff_related false l c as l' c' as' keyed).2
      ⟨hk, hc.mono fun x hx y hy => ihp x hx (parts y hy), nofun⟩

/-! ## Variants -/

/-- Trees that are the same but for labels, for the order of the attributes of a node, and
    for the uris of their keys, at any depth.  The parts of both are given in pairs, and so
    are the attributes, which the second tree may have in another order. -/
inductive Variant : Tree ι → Tree κ → Prop
  | rooted (l : ι) (l' : κ) (c : Content (Tree ι × Tree κ))
    (as : List ((Symbol × Symbol) × (Tree ι × Tree κ))) (as' : List (Symbol × Tree κ))
    (parts : ∀ p ∈ c.structural, Variant p.1 p.2)
    (keys : ∀ e ∈ as, e.1.1.name = e.1.2.name ∧ e.1.1.cd = e.1.2.cd)
    (values : ∀ e ∈ as, Variant e.2.1 e.2.2)
    (perm : as'.Perm (as.map fun e => (e.1.2, e.2.2))) :
    Variant (.rooted l (c.map Prod.fst) (as.map fun e => (e.1.1, e.2.1)))
      (.rooted l' (c.map Prod.snd) as')

theorem Shaped.variant_self {t : Tree ι} (h : t.Shaped) : t.Variant t := by
  induction h with
  | rooted l c as _ _ _ _ ihp ihv =>
    have hv := Variant.rooted l l (c.map fun u => (u, u)) (as.map fun e => ((e.1, e.1), (e.2, e.2)))
      as (by simpa [Content.structural_map] using ihp) (List.forall_mem_map.2 fun _ _ => ⟨rfl, rfl⟩)
      (List.forall_mem_map.2 ihv) (by simp [Function.comp_def])
    simpa [Content.map_map, Content.map_self, Function.comp_def] using hv

/-- A tree equals its variants, with attributes or without. -/
theorem Variant.equals {t : Tree ι} {u : Tree κ} (h : t.Variant u) (ht : t.Shaped) (hu : u.Shaped)
    (ha : t.All Kind.Acceptable) (w : Bool) : t.equals w u = true := by
  induction h with
  | rooted l l' c as as' _ keys _ perm ihp ihv =>
    simp only [shaped_rooted_iff, Content.structural_map, List.forall_mem_map] at ht hu
    obtain ⟨htp, htv, -, -⟩ := ht
    obtain ⟨hup, huv, -, keyed⟩ := hu
    obtain ⟨hk, hap, hav⟩ := all_rooted.1 ha
    simp only [Content.structural_map, List.forall_mem_map] at hap hav
    have hmem {e : (Symbol × Symbol) × (Tree ι × Tree κ)} (he : e ∈ as) :
        (e.1.2, e.2.2) ∈ as' := perm.mem_iff.2 (List.mem_map.2 ⟨e, he, rfl⟩)
    refine (equals_rooted_iff_related w _ _ _ _ _ _ keyed).2 ⟨?_, ?_, fun _ => ⟨?_, ?_⟩⟩
    · rw [Content.kind_map] at hk ⊢
      rw [Content.kind_map]
      exact agrees_self hk
    · exact Content.related_map fun p hp => ihp p hp (htp p hp) (hup p hp) (hap p hp)
    · rw [perm.length_eq, List.length_map, List.length_map]
    · intro d hd
      obtain ⟨e, he, rfl⟩ := List.mem_map.1 hd
      exact ⟨_, hmem he, Symbol.sameKey_iff.2 (keys e he),
        ihv e he (htv e he) (huv _ (hmem he)) (hav e he)⟩

end Tree

end OpenMath
