/-
  What equality does not see.

  Two trees are equal, attributes included, if they become the same when labels are left
  aside, when attributes are put in order, when the keys of attributes lose their uris, and
  when the negative zero is taken for the positive one.

  * `Double.mergeZeros`, `Symbol.withoutUri`: a number, and a key, as equality sees them;
  * `Content.coarse`, `Tree.coarse`: a node, and a tree, of such numbers and keys;
  * `sortKeys_eq_iff`: attributes in order are the same if they are found in each other;
  * `Shaped.equals_iff_coarse`: equality of trees is that of their coarse forms.
-/
import OpenMath.Proofs.Tree.Equality

namespace OpenMath

variable {ι κ α β : Type}

/-! ## Numbers and keys -/

/-- A number, the negative zero being taken for the positive one. -/
def Double.mergeZeros (x : Double) : Double := if x.isZero then .zero false else x

theorem Double.isZero_mergeZeros (x : Double) : x.mergeZeros.isZero = x.isZero := by
  unfold mergeZeros
  split_ifs with h
  · rw [h]
    decide
  · rfl

/-- Numbers are equal if they differ in the sign of a zero at most. -/
theorem Double.numericEq_iff {x y : Double} (hx : x.isNaN = false) (hy : y.isNaN = false) :
    x.numericEq y = true ↔ x.mergeZeros = y.mergeZeros := by
  have hbits : x.bits = y.bits ↔ x = y := by
    cases x
    cases y
    simp
  simp only [numericEq, hx, hy, Bool.not_false, Bool.true_and, Bool.or_eq_true, beq_iff_eq,
    Bool.and_eq_true, hbits]
  constructor
  · rintro (rfl | ⟨hx, hy⟩)
    · rfl
    · rw [mergeZeros, mergeZeros, if_pos hx, if_pos hy]
  · intro h
    by_cases hz : x.isZero = true
    · have hy : y.isZero = true := by rw [← isZero_mergeZeros, ← h, isZero_mergeZeros, hz]
      exact .inr ⟨hz, hy⟩
    · have hy : ¬ y.isZero = true := by rwa [← isZero_mergeZeros, ← h, isZero_mergeZeros]
      rw [mergeZeros, mergeZeros, if_neg hz, if_neg hy] at h
      exact .inl h

/-- A key without its uri. -/
def Symbol.withoutUri (s : Symbol) : Symbol := { s with uri := none }

theorem Symbol.withoutUri_eq_iff {s t : Symbol} : s.withoutUri = t.withoutUri ↔ s.sameKey t = true := by
  rw [sameKey_iff]
  simp [withoutUri]

/-! ## Nodes -/

/-- A payload as equality sees it. -/
def Kind.coarse : Kind → Kind
  | .float x => .float x.mergeZeros
  | k => k

/-- A node with a payload as equality sees it. -/
def Content.coarse : Content α → Content α
  | .float x => .float x.mergeZeros
  | c => c

section
variable (c : Content α)

@[simp] theorem Content.kind_coarse : c.coarse.kind = c.kind.coarse := by cases c <;> rfl

@[simp] theorem Content.slots_coarse : c.coarse.slots = c.slots := by cases c <;> rfl

@[simp] theorem Content.structural_coarse : c.coarse.structural = c.structural := by
  cases c <;> rfl

theorem Content.map_coarse (f : α → β) : c.coarse.map f = (c.map f).coarse := by cases c <;> rfl

theorem Content.complete_coarse : c.coarse.Complete ↔ c.Complete := by cases c <;> exact Iff.rfl

end

theorem Kind.type_coarse (k : Kind) : k.coarse.type = k.type := by cases k <;> rfl

theorem Kind.acceptable_coarse {k : Kind} (h : k.Acceptable) : k.coarse.Acceptable := by
  cases k with
  | float x =>
    show x.mergeZeros.isFinite = true
    unfold Double.mergeZeros
    split_ifs
    · decide
    · exact h
  | _ => exact h

theorem Kind.agrees_iff_coarse {k k' : Kind} (h : k.Acceptable) (h' : k'.Acceptable) :
    k.agrees k' = true ↔ k.coarse = k'.coarse := by
  cases k <;> cases k' <;> simp only [agrees, coarse, beq_iff_eq, reduceCtorEq]
  case float.float x y =>
    rw [Double.numericEq_iff (Double.not_isNaN_of_isFinite h) (Double.not_isNaN_of_isFinite h'),
      Kind.float.injEq]

theorem forall₂_eq_iff_map {γ : Type} {f : α → γ} {g : β → γ} {xs : List α} {ys : List β} :
    List.Forall₂ (fun x y => f x = g y) xs ys ↔ xs.map f = ys.map g := by
  rw [← List.forall₂_eq_eq_eq, List.forall₂_map_left_iff, List.forall₂_map_right_iff]

theorem forall₂_toList_eq_iff_map {γ : Type} {f : α → γ} {g : β → γ} {x : Option α} {y : Option β} :
    List.Forall₂ (fun x y => f x = g y) x.toList y.toList ↔ x.map f = y.map g := by
  cases x <;> cases y <;> simp

theorem Content.related_eq_iff {γ : Type} {f : α → γ} {g : β → γ} {c : Content α} {c' : Content β} :
    c.Related (fun x y => f x = g y) c' ↔
      c.children.map f = c'.children.map g ∧ c.head?.map f = c'.head?.map g ∧
        c.bound.map f = c'.bound.map g ∧ c.body?.map f = c'.body?.map g := by
  simp only [← forall₂_toList_eq_iff_map, ← forall₂_eq_iff_map]
  exact ⟨fun h => ⟨h.children, h.head, h.bound, h.body⟩, fun ⟨hc, hh, hv, hb⟩ => ⟨hc, hh, hv, hb⟩⟩

theorem Content.coarse_map_eq_iff {γ : Type} {f : α → γ} {g : β → γ} {c : Content α}
    {c' : Content β} : (c.map f).coarse = (c'.map g).coarse ↔
      c.kind.coarse = c'.kind.coarse ∧ c.Related (fun x y => f x = g y) c' := by
  rw [related_eq_iff]
  cases c <;> cases c' <;>
    simp [coarse, map, Kind.coarse, kind, children, head?, bound, body?, and_comm]

/-! ## Attributes -/

namespace Wire

/-- Attributes in order are the same if they are the same in any order. -/
theorem sortKeys_eq_iff {as bs : List (Symbol × α)} (h : Keyed as) :
    sortKeys as = sortKeys bs ↔ as.Perm bs := by
  refine ⟨fun he => (sortKeys_perm as).symm.trans (he ▸ sortKeys_perm bs), fun hp => ?_⟩
  have hsorted : (sortKeys as).Perm (sortKeys bs) :=
    (sortKeys_perm as).trans (hp.trans (sortKeys_perm bs).symm)
  refine hsorted.eq_of_pairwise (fun d e hd he hle hge => ?_) (sortKeys_pairwise as)
    (sortKeys_pairwise bs)
  have hkey : d.1 = e.1 := Symbol.encode_injective (le_antisymm hle hge)
  refine h.eq_of_sameKey ((sortKeys_perm as).mem_iff.1 hd)
    ((hp.trans (sortKeys_perm bs).symm).mem_iff.2 he) ?_
  rw [hkey, Symbol.sameKey_refl]

/-- Attributes with keys that are told apart are the same, the uris of their keys and their
    order left aside, if there are as many, and those of the one are found in the other. -/
theorem sortKeys_withoutUri_eq_iff {γ : Type} {f : α → γ} {g : β → γ} {as : List (Symbol × α)}
    {bs : List (Symbol × β)} (h : Keyed as) :
    sortKeys (as.map fun e => (e.1.withoutUri, f e.2)) =
        sortKeys (bs.map fun e => (e.1.withoutUri, g e.2)) ↔
      as.length = bs.length ∧ ∀ d ∈ as, ∃ e ∈ bs, d.1.sameKey e.1 = true ∧ f d.2 = g e.2 := by
  have hkeyed : Keyed (as.map fun e => (e.1.withoutUri, f e.2)) := by
    rw [Keyed, List.pairwise_map]
    exact h
  rw [sortKeys_eq_iff hkeyed]
  constructor
  · intro hp
    refine ⟨by simpa using hp.length_eq, fun d hd => ?_⟩
    obtain ⟨e, he, heq⟩ := List.mem_map.1 (hp.mem_iff.1 (List.mem_map_of_mem hd))
    rw [Prod.mk.injEq] at heq
    exact ⟨e, he, Symbol.withoutUri_eq_iff.1 heq.1.symm, heq.2.symm⟩
  · rintro ⟨hlen, hfound⟩
    have hnodup : (as.map fun e => (e.1.withoutUri, f e.2)).Nodup :=
      hkeyed.imp fun hk he => by
        rw [he, Symbol.sameKey_refl] at hk
        cases hk
    refine (List.subperm_of_subset hnodup fun p hp => ?_).perm_of_length_le (by simp [hlen])
    obtain ⟨d, hd, rfl⟩ := List.mem_map.1 hp
    obtain ⟨e, he, hde, heq⟩ := hfound d hd
    exact List.mem_map.2 ⟨e, he, by rw [Symbol.withoutUri_eq_iff.2 hde, heq]⟩

end Wire

/-! ## Trees -/

namespace Tree

open Wire

/-- A tree of payloads and keys as equality sees them. -/
def coarse : Tree ι → Tree ι := fold fun l k ss =>
  .node l k.coarse (ss.dropAttributes ++
    Content.attributeSlots (ss.attributes.map fun e => (e.1.withoutUri, e.2)))

theorem coarse_rooted (l : ι) (c : Content (Tree ι)) (as : List (Symbol × Tree ι)) :
    (rooted l c as).coarse =
      rooted l (c.map coarse).coarse (as.map fun e => (e.1.withoutUri, e.2.coarse)) := by
  rw [rooted, coarse, fold_node, Content.mapContent_allSlots, Content.dropAttributes_allSlots,
    Content.attributes_allSlots, List.map_map, rooted, Content.kind_coarse, Content.kind_map,
    Content.allSlots, Content.slots_coarse]
  rfl

theorem kind_coarse (t : Tree ι) : t.coarse.kind = t.kind.coarse := by
  rw [coarse, fold_eq]
  rfl

theorem Shaped.coarse {t : Tree ι} (h : t.Shaped) : t.coarse.Shaped := by
  induction h with
  | rooted l c as _ _ fits keyed ihp ihv =>
    rw [coarse_rooted]
    refine .rooted l _ _ ?_ ?_ ?_ ?_
    · rw [Content.structural_coarse, Content.structural_map]
      exact List.forall_mem_map.2 ihp
    · exact List.forall_mem_map.2 ihv
    · obtain ⟨hh, hv⟩ := fits_iff.1 fits
      rw [Content.slots_coarse]
      refine fits_iff.2 ⟨fun w hw => ?_, fun w hw => ?_⟩
      · rw [Content.head?_map, Option.map_eq_some_iff] at hw
        obtain ⟨u, hu, rfl⟩ := hw
        rw [kind_coarse, Kind.type_coarse, hh u hu]
      · rw [Content.bound_map] at hw
        obtain ⟨u, hu, rfl⟩ := List.mem_map.1 hw
        rw [kind_coarse, Kind.type_coarse, hv u hu]
    · rw [Keyed, List.pairwise_map]
      exact keyed

theorem arranged_coarse_rooted (l : ι) (c : Content (Tree ι)) (as : List (Symbol × Tree ι)) :
    (rooted l c as).coarse.arranged =
      rooted () (c.map fun u => u.coarse.arranged).coarse
        (sortKeys (as.map fun e => (e.1.withoutUri, e.2.coarse.arranged))) := by
  rw [coarse_rooted, arranged_rooted, Content.map_coarse, Content.map_map, List.map_map]
  rfl

/-- Trees are equal, attributes included, if and only if their coarse forms are the same,
    labels and the order of attributes left aside. -/
theorem Shaped.equals_iff_coarse {t : Tree ι} (ht : t.Shaped) {u : Tree κ} (hu : u.Shaped)
    (hta : t.All Kind.Acceptable) (hua : u.All Kind.Acceptable) :
    t.equals true u = true ↔ t.coarse.arranged = u.coarse.arranged := by
  induction ht generalizing u with
  | rooted l c as _ _ _ keyed ihp ihv =>
    obtain ⟨l', c', as', parts, values, -, keyed'⟩ := hu
    obtain ⟨hk, hp, hv⟩ := all_rooted.1 hta
    obtain ⟨hk', hp', hv'⟩ := all_rooted.1 hua
    have hcontent : c.Related (fun t u => t.equals true u = true) c' ↔
        c.Related (fun t u => t.coarse.arranged = u.coarse.arranged) c' := by
      have hpart (x : Tree ι) (hx : x ∈ c.structural) (y : Tree κ) (hy : y ∈ c'.structural) :=
        ihp x hx (parts y hy) (hp x hx) (hp' y hy)
      exact ⟨fun h => h.mono fun x hx y hy => (hpart x hx y hy).1,
        fun h => h.mono fun x hx y hy => (hpart x hx y hy).2⟩
    have hattributes : (∀ d ∈ as, ∃ e ∈ as', d.1.sameKey e.1 = true ∧ d.2.equals true e.2 = true) ↔
        ∀ d ∈ as, ∃ e ∈ as', d.1.sameKey e.1 = true ∧ d.2.coarse.arranged = e.2.coarse.arranged := by
      refine forall_congr' fun d => imp_congr_right fun hd => exists_congr fun e =>
        and_congr_right fun he => and_congr_right fun _ => ?_
      rw [ihv d hd (values e he) (hv d hd) (hv' e he)]
    rw [equals_rooted_iff_related true l c as l' c' as' keyed', arranged_coarse_rooted,
      arranged_coarse_rooted, Kind.agrees_iff_coarse hk hk', hcontent, hattributes,
      imp_iff_right rfl, ← and_assoc, ← Content.coarse_map_eq_iff,
      ← sortKeys_withoutUri_eq_iff (f := fun u : Tree ι => u.coarse.arranged)
        (g := fun u : Tree κ => u.coarse.arranged) keyed]
    exact ⟨fun ⟨hc, ha⟩ => by rw [hc, ha], rooted_injective⟩

end Tree

end OpenMath
