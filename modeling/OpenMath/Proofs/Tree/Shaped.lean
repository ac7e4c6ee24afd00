/-
  Trees whose nodes have what their kinds provide for.

  * `Tree.Shaped`: heads are symbols, bound variables are variables, and no two
    keys of a node agree;
  * `freeNames_rooted`, `equals_rooted_iff`: free names and equality by the contents
    of nodes;
  * `Shaped.freeNames_rearranged`, `Shaped.equals_rearranged`: labels, and the
    order of attributes, play no part in either.
-/
import OpenMath.Tree.Content
import OpenMath.Tree.Equality
import OpenMath.Tree.Variables
import Mathlib.Data.List.Forall2

namespace OpenMath.Tree

variable {ι κ μ : Type}

/-- Every node is one with a content and attributes, whose parts play their
    roles, and whose keys are told apart. -/
inductive Shaped : Tree ι → Prop
  | rooted (l : ι) (c : Content (Tree ι)) (as : List (Symbol × Tree ι))
    (parts : ∀ u ∈ c.structural, Shaped u) (values : ∀ e ∈ as, Shaped e.2)
    (fits : ∀ s ∈ c.slots, s.role.admits s.content.kind = true) (keyed : Keyed as) :
    Shaped (.rooted l c as)

theorem rooted_injective {l l' : ι} {c c' : Content (Tree ι)} {as as' : List (Symbol × Tree ι)}
    (h : rooted l c as = rooted l' c' as') : c = c' ∧ as = as' := by
  have hkind : c.kind = c'.kind := congrArg kind h
  have hchildren : c.children = c'.children := by simpa using congrArg children h
  have hhead : c.head? = c'.head? := by simpa using congrArg head? h
  have hbound : c.bound = c'.bound := by simpa using congrArg bound h
  have hbody : c.body? = c'.body? := by simpa using congrArg body? h
  refine ⟨?_, by simpa using congrArg attributes h⟩
  cases c <;> cases c' <;>
    simp_all [Content.kind, Content.children, Content.head?, Content.bound, Content.body?]

theorem shaped_rooted_iff {l : ι} {c : Content (Tree ι)} {as : List (Symbol × Tree ι)} :
    (Tree.rooted l c as).Shaped ↔ (∀ u ∈ c.structural, u.Shaped) ∧ (∀ e ∈ as, e.2.Shaped) ∧
      (∀ s ∈ c.slots, s.role.admits s.content.kind = true) ∧ Keyed as := by
  constructor
  · intro h
    generalize ht : Tree.rooted l c as = t at h
    obtain ⟨l', c', as', parts, values, fits, keyed⟩ := h
    obtain ⟨rfl, rfl⟩ := rooted_injective ht
    exact ⟨parts, values, fits, keyed⟩
  · rintro ⟨parts, values, fits, keyed⟩
    exact .rooted l c as parts values fits keyed

theorem Shaped.of_rooted {l : ι} {c : Content (Tree ι)} {as : List (Symbol × Tree ι)}
    (h : (Tree.rooted l c as).Shaped) : (∀ u ∈ c.structural, u.Shaped) ∧
      ∀ s ∈ c.slots, s.role.admits s.content.kind = true := by
  obtain ⟨parts, -, fits, -⟩ := shaped_rooted_iff.1 h
  exact ⟨parts, fits⟩

theorem fits_iff {c : Content (Tree ι)} :
    (∀ s ∈ c.slots, s.role.admits s.content.kind = true) ↔
      (∀ u, c.head? = some u → u.kind.type = .symbol) ∧ ∀ u ∈ c.bound, u.kind.type = .var := by
  refine (Content.forall_slots (P := fun r (u : Tree ι) => r.admits u.kind = true)).trans ?_
  simp [Role.admits]

theorem exists_var_of_type {k : Kind} (h : k.type = .var) : ∃ name, k = .var name := by
  cases k <;> simp only [Kind.type, reduceCtorEq] at h
  exact ⟨_, rfl⟩

/-! ## Free names -/

theorem freeNames_of_symbol {t : Tree ι} (h : t.kind.type = .symbol) : t.freeNames = [] := by
  rw [freeNames_eq]
  cases hk : t.kind <;> simp only [hk, Kind.type, reduceCtorEq] at h
  rfl

/-- The free names of a content, given those of its parts. -/
def freeNamesOf (f : Tree ι → List String) : Content (Tree ι) → List String
  | .var name => [name]
  | .application cs | .error _ cs => cs.flatMap f
  | .binding _ vs b => ((b.map f).getD []).filter fun name => !(namesOf vs).contains name
  | _ => []

theorem freeNames_rooted (l : ι) (c : Content (Tree ι)) (as : List (Symbol × Tree ι)) :
    (rooted l c as).freeNames = freeNamesOf freeNames c := by
  rw [freeNames_eq, slots_rooted, Content.mapContent_allSlots, kind_rooted, freeNamesStep.eq_def]
  cases c <;>
    simp [freeNamesOf, Content.map, Content.kind, Content.children, Content.bound, Content.body?,
      List.flatMap, Function.comp_def]

/-- A free name is that of a variable, is free in a child, or is free in the body
    and not bound. -/
theorem freeNamesOf_eq (f : Tree ι → List String) (c : Content (Tree ι)) :
    freeNamesOf f c = c.kind.varName?.toList ++ (c.children.map f).flatten ++
      ((c.body?.map f).getD []).filter fun name => !(namesOf c.bound).contains name := by
  cases c <;> simp [freeNamesOf, Content.kind, Kind.varName?, Content.children, Content.body?,
    Content.bound, List.flatMap]

theorem mem_freeNames_rooted {l : ι} {c : Content (Tree ι)} {as : List (Symbol × Tree ι)}
    {name : String} :
    name ∈ (rooted l c as).freeNames ↔ c.kind.varName? = some name ∨
      (∃ u ∈ c.children, name ∈ u.freeNames) ∨
      ∃ u, c.body? = some u ∧ name ∈ u.freeNames ∧ name ∉ namesOf c.bound := by
  rw [freeNames_rooted, freeNamesOf_eq]
  cases c.body? <;> simp

theorem boundNames_rooted (l : ι) (c : Content (Tree ι)) (as : List (Symbol × Tree ι)) :
    (rooted l c as).boundNames = namesOf c.bound := by
  rw [boundNames, bound_rooted]

theorem namesOf_map {f : Tree ι → Tree κ} {vs : List (Tree ι)}
    (h : ∀ t ∈ vs, (f t).kind = t.kind) : namesOf (vs.map f) = namesOf vs := by
  rw [namesOf, namesOf, List.filterMap_map]
  exact List.filterMap_congr fun t ht => congrArg Kind.varName? (h t ht)

/-- Free names of a content do not depend on what else changes in its parts. -/
theorem freeNamesOf_map {f : Tree ι → Tree κ} (hk : ∀ t, (f t).kind = t.kind)
    {g : Tree κ → List String} {g' : Tree ι → List String} {c : Content (Tree ι)}
    (h : ∀ u ∈ c.structural, g (f u) = g' u) : freeNamesOf g (c.map f) = freeNamesOf g' c := by
  cases c with
  | application cs =>
    simp only [freeNamesOf, Content.map, List.flatMap, List.map_map]
    exact congrArg _ (List.map_congr_left fun u hu => h u (Content.mem_structural_of_child hu))
  | error hd cs =>
    simp only [freeNamesOf, Content.map, List.flatMap, List.map_map]
    exact congrArg _ (List.map_congr_left fun u hu => h u (Content.mem_structural_of_child hu))
  | binding hd vs b =>
    simp only [freeNamesOf, Content.map, namesOf_map fun t (_ : t ∈ vs) => hk t, Option.map_map]
    cases b with
    | none => rfl
    | some u =>
      simp [h u (Content.mem_structural_of_body rfl)]
  | _ => rfl

theorem kind_mapLabels (f : ι → κ) (t : Tree ι) : (t.mapLabels f).kind = t.kind := by
  cases t; rw [mapLabels_node]; rfl

/-! ## Labels -/

theorem mapLabels_congr {f g : ι → κ} {t : Tree ι} (h : ∀ x ∈ t.labels, f x = g x) :
    t.mapLabels f = t.mapLabels g := by
  induction t using Tree.induction with
  | node l k ss ih =>
    simp only [labels_node, List.mem_cons, List.mem_flatMap] at h
    rw [mapLabels_node, mapLabels_node, h l (.inl rfl)]
    refine congrArg _ (List.map_congr_left fun s hs => ?_)
    rw [Slot.map, Slot.map, ih s hs fun x hx => h x (.inr ⟨s, hs, hx⟩)]

theorem labels_mapLabels (f : ι → κ) (t : Tree ι) : (t.mapLabels f).labels = t.labels.map f := by
  induction t using Tree.induction with
  | node l k ss ih =>
    rw [mapLabels_node, labels_node, labels_node, List.map_cons, List.map_flatMap, Slots.mapContent,
      List.flatMap_map]
    exact congrArg _ (List.flatMap_congr fun s hs => ih s hs)

theorem none_not_mem_labels (t : Tree ι) : none ∉ (t.mapLabels some).labels := by
  simp [labels_mapLabels]

theorem mem_labels_of_slot {t : Tree ι} {s : Slot (Tree ι)} {x : ι} (hs : s ∈ t.slots)
    (hx : x ∈ s.content.labels) : x ∈ t.labels := by
  cases t
  exact labels_node .. ▸ List.mem_cons_of_mem _ (List.mem_flatMap.2 ⟨s, hs, hx⟩)

theorem mapLabels_mapLabels (f : ι → κ) (g : κ → μ) (t : Tree ι) :
    (t.mapLabels f).mapLabels g = t.mapLabels fun x => g (f x) := by
  induction t using Tree.induction with
  | node l k ss ih =>
    rw [mapLabels_node, mapLabels_node, mapLabels_node, Slots.mapContent_mapContent]
    refine congrArg _ (List.map_congr_left fun s hs => ?_)
    rw [Slot.map, Slot.map, ih s hs]

/-! ## Rearrangements -/

/-- A change of trees that keeps kinds and parts, and the attributes but for their
    order. -/
structure Rearranges (g : Tree ι → Tree κ) : Prop where
  kind : ∀ t, (g t).kind = t.kind
  rooted : ∀ l c as, ∃ l' as', g (.rooted l c as) = .rooted l' (c.map g) as' ∧
    as'.Perm (as.map fun e => (e.1, g e.2))

theorem rearranges_mapLabels (f : ι → κ) : Rearranges (mapLabels f) where
  kind := kind_mapLabels f
  rooted l _ _ := ⟨f l, _, mapLabels_rooted .., .rfl⟩

variable {g : Tree ι → Tree κ}

theorem Shaped.rearranged {t : Tree ι} (h : t.Shaped) (hg : Rearranges g) : (g t).Shaped := by
  induction h with
  | rooted l c as _ _ fits keyed ihp ihv =>
    obtain ⟨l', as', he, hp⟩ := hg.rooted l c as
    rw [he]
    refine .rooted l' _ as' ?_ ?_ ?_ (((keyed_map g).2 keyed).perm hp.symm)
    · intro u hu
      rw [Content.structural_map, List.mem_map] at hu
      obtain ⟨u, hu, rfl⟩ := hu
      exact ihp u hu
    · intro e he
      obtain ⟨e, hm, rfl⟩ := List.mem_map.1 (hp.mem_iff.1 he)
      exact ihv e hm
    · intro s hs
      rw [Content.slots_map] at hs
      obtain ⟨s, hm, rfl⟩ := List.mem_map.1 hs
      simpa [Slot.map, hg.kind] using fits s hm

/-- Free names do not depend on labels, or on the order of attributes. -/
theorem Shaped.freeNames_rearranged {t : Tree ι} (h : t.Shaped) (hg : Rearranges g) :
    (g t).freeNames = t.freeNames := by
  induction h with
  | rooted l c as _ _ _ _ ih _ =>
    obtain ⟨l', as', he, -⟩ := hg.rooted l c as
    rw [he, freeNames_rooted, freeNames_rooted]
    exact freeNamesOf_map hg.kind ih

/-! ## Equality -/

theorem passAll_map_iff {α β : Type} {F : α → β → Bool} {xs : List α} {ys : List β} :
    passAll (xs.map F) ys = true ↔ List.Forall₂ (fun x y => F x y = true) xs ys := by
  simp only [passAll, Bool.and_eq_true, beq_iff_eq, List.length_map]
  induction xs generalizing ys with
  | nil => cases ys <;> simp
  | cons x xs ih =>
    cases ys with
    | nil => simp
    | cons y ys => simp [← ih, and_left_comm]

theorem passOptional_map_iff {α β : Type} {F : α → β → Bool} {x : Option α} {y : Option β} :
    passOptional (x.map F) y = true ↔
      List.Forall₂ (fun x y => F x y = true) x.toList y.toList := by
  cases x <;> cases y <;> simp [passOptional]

theorem passKeyed_map_iff {α β : Type} {F : α → β → Bool} {as : List (Symbol × α)}
    {bs : List (Symbol × β)} (hb : Keyed bs) :
    passKeyed (as.map fun e => (e.1, F e.2)) bs = true ↔
      as.length = bs.length ∧ ∀ d ∈ as, ∃ e ∈ bs, d.1.sameKey e.1 = true ∧ F d.2 e.2 = true := by
  simp only [passKeyed, Bool.and_eq_true, beq_iff_eq, List.length_map, List.all_map,
    List.all_eq_true, Function.comp_apply]
  refine and_congr_right fun _ => forall_congr' fun d => imp_congr_right fun _ => ?_
  cases hf : bs.find? fun e => d.1.sameKey e.1 with
  | none =>
    simp only [Bool.false_eq_true, false_iff]
    rintro ⟨e, he, hde, -⟩
    simp [List.find?_eq_none.1 hf e he] at hde
  | some e =>
    have hde : d.1.sameKey e.1 = true := by simpa using List.find?_some hf
    have he := List.mem_of_find?_eq_some hf
    refine ⟨fun h => ⟨e, he, hde, h⟩, ?_⟩
    rintro ⟨e', he', hde', h⟩
    rwa [hb.eq_of_sameKey he he' (Symbol.sameKey_trans (Symbol.sameKey_comm .. ▸ hde) hde')]

/-- What the contents and the attributes of two nodes have to be if the nodes are
    equal. -/
theorem equals_rooted_iff (w : Bool) (l : ι) (c : Content (Tree ι)) (as : List (Symbol × Tree ι))
    (l' : κ) (c' : Content (Tree κ)) (as' : List (Symbol × Tree κ)) (hk : Keyed as') :
    equals w (rooted l c as) (rooted l' c' as') = true ↔
      c.kind.agrees c'.kind = true ∧
      List.Forall₂ (fun u v => equals w u v = true) c.children c'.children ∧
      List.Forall₂ (fun u v => equals w u v = true) c.head?.toList c'.head?.toList ∧
      List.Forall₂ (fun u v => equals w u v = true) c.bound c'.bound ∧
      List.Forall₂ (fun u v => equals w u v = true) c.body?.toList c'.body?.toList ∧
      (w = true → as.length = as'.length ∧
        ∀ d ∈ as, ∃ e ∈ as', d.1.sameKey e.1 = true ∧ equals w d.2 e.2 = true) := by
  rw [rooted, equals_node, Content.mapContent_allSlots, equalsStep]
  have hkeys : (!w || passKeyed (as.map fun e => (e.1, equals w e.2)) as') = true ↔
      (w = true → as.length = as'.length ∧
        ∀ d ∈ as, ∃ e ∈ as', d.1.sameKey e.1 = true ∧ equals w d.2 e.2 = true) := by
    rw [← passKeyed_map_iff (F := equals w) hk]
    cases w <;> simp
  simp only [Bool.and_eq_true, and_assoc, Content.children_allSlots, Content.head?_allSlots,
    Content.bound_allSlots, Content.body?_allSlots, Content.attributes_allSlots, children_rooted,
    head?_rooted, bound_rooted, body?_rooted, attributes_rooted, kind_rooted, hkeys, Content.children_map,
    Content.head?_map, Content.bound_map, Content.body?_map, passAll_map_iff,
    passOptional_map_iff]

theorem forall₂_congr {α β : Type} {R S : α → β → Prop} {xs : List α} {ys : List β}
    (h : ∀ x ∈ xs, ∀ y ∈ ys, R x y ↔ S x y) : List.Forall₂ R xs ys ↔ List.Forall₂ S xs ys := by
  induction xs generalizing ys with
  | nil => cases ys <;> simp
  | cons x xs ih =>
    cases ys with
    | nil => simp
    | cons y ys =>
      rw [List.forall₂_cons, List.forall₂_cons, h x (List.mem_cons_self ..) y (List.mem_cons_self ..),
        ih fun x hx y hy => h x (List.mem_cons_of_mem _ hx) y (List.mem_cons_of_mem _ hy)]

theorem agrees_varName? {k k' : Kind} (h : k.agrees k' = true) : k.varName? = k'.varName? := by
  cases k <;> cases k' <;> simp_all [Kind.agrees, Kind.varName?]

theorem map_eq_of_forall₂ {α β γ : Type} {R : α → β → Prop} {f : α → γ} {g : β → γ} {xs : List α}
    {ys : List β} (h : List.Forall₂ R xs ys) (hR : ∀ x ∈ xs, ∀ y ∈ ys, R x y → f x = g y) :
    xs.map f = ys.map g := by
  induction h with
  | nil => rfl
  | cons hxy _ ih =>
    rw [List.map_cons, List.map_cons, hR _ (List.mem_cons_self ..) _ (List.mem_cons_self ..) hxy,
      ih fun x hx y hy => hR x (List.mem_cons_of_mem _ hx) y (List.mem_cons_of_mem _ hy)]

theorem agrees_of_equals {w : Bool} {t : Tree ι} {u : Tree κ} (h : equals w t u = true) :
    t.kind.agrees u.kind = true := by
  cases t
  simp only [equals_node, equalsStep, Bool.and_eq_true] at h
  exact h.1.1.1.1.1

/-- Equal trees have the same free names. -/
theorem Shaped.freeNames_of_equals {t : Tree ι} (ht : t.Shaped) {u : Tree κ} (hu : u.Shaped)
    {w : Bool} (h : equals w t u = true) : t.freeNames = u.freeNames := by
  induction ht generalizing u with
  | rooted l c as _ _ _ _ ih _ =>
    obtain ⟨l', c', as', parts, _, _, keyed⟩ := hu
    obtain ⟨hk, hc, -, hv, hb, -⟩ := (equals_rooted_iff w l c as l' c' as' keyed).1 h
    have hchildren : c.children.map freeNames = c'.children.map freeNames :=
      map_eq_of_forall₂ hc fun x hx y hy h => ih x (Content.mem_structural_of_child hx)
        (parts y (Content.mem_structural_of_child hy)) h
    have hbody : c.body?.toList.map freeNames = c'.body?.toList.map freeNames :=
      map_eq_of_forall₂ hb fun x hx y hy h =>
        ih x (Content.mem_structural_of_body (Option.mem_toList.1 hx))
          (parts y (Content.mem_structural_of_body (Option.mem_toList.1 hy))) h
    have hbound : namesOf c.bound = namesOf c'.bound := by
      have hnames : c.bound.map (·.kind.varName?) = c'.bound.map (·.kind.varName?) :=
        map_eq_of_forall₂ hv fun x _ y _ h => agrees_varName? (agrees_of_equals h)
      have := congrArg (List.filterMap id) hnames
      rwa [List.filterMap_map, List.filterMap_map] at this
    rw [freeNames_rooted, freeNames_rooted, freeNamesOf_eq, freeNamesOf_eq, agrees_varName? hk,
      hchildren, hbound]
    cases hx : c.body? <;> cases hy : c'.body? <;> simp_all

/-- Equality does not see a rearrangement. -/
theorem Shaped.equals_rearranged {t : Tree μ} (ht : t.Shaped) {u : Tree ι} (hu : u.Shaped)
    (hg : Rearranges g) (w : Bool) :
    equals w t (g u) = equals w t u := by
  induction ht generalizing u with
  | rooted l c as _ _ _ _ ihp ihv =>
    obtain ⟨l', c', as', parts, values, -, keyed⟩ := hu
    obtain ⟨l'', as'', he, hp⟩ := hg.rooted l' c' as'
    have keyed' : Keyed as'' := ((keyed_map g).2 keyed).perm hp.symm
    have hpart {xs : List (Tree μ)} {ys : List (Tree ι)} (hx : ∀ x ∈ xs, x ∈ c.structural)
        (hy : ∀ y ∈ ys, y ∈ c'.structural) :
        List.Forall₂ (fun u v => equals w u v = true) xs (ys.map g) ↔
          List.Forall₂ (fun u v => equals w u v = true) xs ys := by
      rw [List.forall₂_map_right_iff]
      exact forall₂_congr fun x hxm y hym => by rw [ihp x (hx x hxm) (parts y (hy y hym))]
    rw [he, Bool.eq_iff_iff, equals_rooted_iff w _ _ _ _ _ _ keyed',
      equals_rooted_iff w _ _ _ _ _ _ keyed,
      Content.kind_map, Content.children_map, Content.head?_map, Content.bound_map,
      Content.body?_map, Option.toList_map, Option.toList_map,
      hpart (fun x hx => Content.mem_structural_of_child hx)
        fun x hx => Content.mem_structural_of_child hx,
      hpart (fun x hx => Content.mem_structural_of_head (by simpa using hx))
        fun x hx => Content.mem_structural_of_head (by simpa using hx),
      hpart (fun x hx => Content.mem_structural_of_bound hx)
        fun x hx => Content.mem_structural_of_bound hx,
      hpart (fun x hx => Content.mem_structural_of_body (by simpa using hx))
        fun x hx => Content.mem_structural_of_body (by simpa using hx),
      hp.length_eq, List.length_map]
    have hvalue : (∀ d ∈ as, ∃ e ∈ as'', d.1.sameKey e.1 = true ∧ equals w d.2 e.2 = true) ↔
        ∀ d ∈ as, ∃ e ∈ as', d.1.sameKey e.1 = true ∧ equals w d.2 e.2 = true := by
      refine forall_congr' fun d => imp_congr_right fun hd => ?_
      simp only [hp.mem_iff, List.mem_map]
      constructor
      · rintro ⟨_, ⟨e, hem, rfl⟩, hde, h⟩
        exact ⟨e, hem, hde, by rwa [ihv d hd (values e hem)] at h⟩
      · rintro ⟨e, hem, hde, h⟩
        exact ⟨_, ⟨e, hem, rfl⟩, hde, by rwa [ihv d hd (values e hem)]⟩
    rw [hvalue]

end OpenMath.Tree
