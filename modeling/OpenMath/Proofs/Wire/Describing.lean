/-
  Trees that a valid shape describes.

  The term of a valid shape is whole, and whatever equals a whole tree is whole.  So a
  tree in which something is missing is described by no valid shape, whichever shape
  is tried; any other tree with payloads that a shape may have is described by its own.

  * `Tree.Described`: a valid shape has a term that equals the tree;
  * `whole_build`, `Shaped.whole_of_equals`: nothing is missing in such a tree;
  * `Shaped.described_of_copy`, `Shaped.described_of_written`: a tree is described by
    the shape by way of which it is copied, which is the one it is written as.
-/
import OpenMath.Proofs.Wire.Payloads
import OpenMath.Proofs.Wire.RoundTrip

namespace OpenMath

open Wire

variable {ι κ : Type}

/-! ## Equal contents -/

theorem isSome_of_forall₂ {α β : Type} {R : α → β → Prop} {x : Option α} {y : Option β}
    (h : List.Forall₂ R x.toList y.toList) (hy : y.isSome) : x.isSome := by
  cases x with
  | some _ => rfl
  | none =>
    obtain ⟨w, rfl⟩ := Option.isSome_iff_exists.1 hy
    cases h

theorem type_eq_of_agrees {k k' : Kind} (h : k.agrees k' = true) : k.type = k'.type := by
  cases k <;> cases k' <;> simp_all [Kind.agrees, Kind.type]

namespace Tree

/-! ## What is missing -/

/-- The term of a valid shape is whole. -/
theorem whole_build {v : Json} (hv : Valid v) {u : Term} (hu : build v = .ok u) : u.Whole :=
  build_induction (P := Whole)
    (fun _ _ _ hc hne hp ha => whole_rooted.2 ⟨⟨hc, hne⟩, hp, ha⟩) hv hu

/-- A node that equals one from which nothing is missing lacks nothing. -/
theorem complete_of_equals {l : ι} {c : Content (Tree ι)} {as : List (Symbol × Tree ι)} {l' : κ}
    {c' : Content (Tree κ)} {as' : List (Symbol × Tree κ)} (keyed : Keyed as') {w : Bool}
    (h : equals w (rooted l c as) (rooted l' c' as') = true)
    (hc : c'.Complete ∧ (c'.kind = .application → c'.children ≠ [])) :
    c.Complete ∧ (c.kind = .application → c.children ≠ []) := by
  obtain ⟨hk, hchildren, hhead, -, hbody, -⟩ := (equals_rooted_iff w l c as l' c' as' keyed).1 h
  have htype := type_eq_of_agrees hk
  cases c <;> cases c' <;> simp only [Content.kind, Kind.type, reduceCtorEq] at htype
  case application.application =>
    exact ⟨trivial, fun _ => ne_nil_of_forall₂ hchildren (hc.2 rfl)⟩
  all_goals refine ⟨?_, fun h => Kind.noConfusion h⟩
  case binding.binding =>
    exact ⟨isSome_of_forall₂ hhead hc.1.1, isSome_of_forall₂ hbody hc.1.2⟩
  case error.error => exact isSome_of_forall₂ hhead hc.1
  all_goals trivial

/-- Whatever equals a whole tree, attributes included, is whole. -/
theorem Shaped.whole_of_equals {t : Tree ι} (ht : t.Shaped) {u : Tree κ} (hu : u.Shaped)
    (h : equals true t u = true) (hw : u.Whole) : t.Whole := by
  induction ht generalizing u with
  | rooted l c as _ _ _ _ ihp ihv =>
    obtain ⟨l', c', as', parts, values, -, keyed⟩ := hu
    obtain ⟨hc, hwp, hwv⟩ := whole_rooted.1 hw
    refine whole_rooted.2 ⟨complete_of_equals keyed h hc, ?_, ?_⟩
    · obtain ⟨-, hchildren, hhead, hbound, hbody, -⟩ :=
        (equals_rooted_iff true l c as l' c' as' keyed).1 h
      have hpart {xs : List (Tree ι)} {ys : List (Tree κ)}
          (hxy : List.Forall₂ (fun x y => equals true x y = true) xs ys)
          (hx : ∀ x ∈ xs, x ∈ c.structural) (hy : ∀ y ∈ ys, y ∈ c'.structural) :
          ∀ x ∈ xs, x.Whole := fun x hm => by
        obtain ⟨y, hym, he⟩ := exists_of_forall₂ hxy hm
        exact ihp x (hx x hm) (parts y (hy y hym)) he (hwp y (hy y hym))
      intro x hx
      rcases Content.mem_structural.1 hx with hx | hx | hx | hx
      · exact hpart hchildren (fun _ => Content.mem_structural_of_child)
          (fun _ => Content.mem_structural_of_child) x hx
      · exact hpart hhead (fun _ hm => Content.mem_structural_of_head (Option.mem_toList.1 hm))
          (fun _ hm => Content.mem_structural_of_head (Option.mem_toList.1 hm)) x
          (Option.mem_toList.2 hx)
      · exact hpart hbound (fun _ => Content.mem_structural_of_bound)
          (fun _ => Content.mem_structural_of_bound) x hx
      · exact hpart hbody (fun _ hm => Content.mem_structural_of_body (Option.mem_toList.1 hm))
          (fun _ hm => Content.mem_structural_of_body (Option.mem_toList.1 hm)) x
          (Option.mem_toList.2 hx)
    · intro d hd
      obtain ⟨-, -, -, -, -, hattributes⟩ := (equals_rooted_iff true l c as l' c' as' keyed).1 h
      obtain ⟨e, he, -, hde⟩ := (hattributes rfl).2 d hd
      exact ihv d hd (values e he) hde (hwv e he)

/-! ## Descriptions -/

theorem Shaped.copy_of_written {t : Tree ι} (ht : t.Shaped) (h : t.Written) :
    t.copy = .ok t.arranged :=
  Except.bind_eq_ok.2 ⟨t.shape, h.toShape,
    Except.bind_eq_ok.2 ⟨(), h.valid, ht.build_toShape h.toShape⟩⟩

/-- A tree is described by a valid shape: the term of the shape equals it, attributes
    included. -/
def Described (t : Tree ι) : Prop :=
  ∃ v u, Valid v ∧ build v = .ok u ∧ t.equals true u = true

theorem Shaped.equals_copied {t : Tree ι} (ht : t.Shaped) (ha : t.All Kind.Acceptable)
    {u : Tree κ} (hu : u.Shaped) (h : u.toTerm = t.arranged) (w : Bool) : t.equals w u = true := by
  rw [← ht.equals_rearranged hu (rearranges_mapLabels fun _ => ()), ← toTerm, h,
    ht.equals_rearranged ht rearranges_arranged]
  exact ht.equals_self ha w

/-- A tree that has a copy is described by the shape by way of which it is copied. -/
theorem Shaped.described_of_copy {t : Tree ι} (ht : t.Shaped) (ha : t.All Kind.Acceptable)
    {c : Term} (h : t.copy = .ok c) : t.Described := by
  obtain ⟨v, -, hd⟩ := Except.bind_eq_ok.1 h
  obtain ⟨_, hv, hb⟩ := Except.bind_eq_ok.1 hd
  refine ⟨v, c, hv, hb, ?_⟩
  rw [ht.copy_eq h, ht.equals_rearranged ht rearranges_arranged]
  exact ht.equals_self ha true

/-- The shape that a tree is written as describes it. -/
theorem Shaped.described_of_written {t : Tree ι} (ht : t.Shaped) (ha : t.All Kind.Acceptable)
    (h : t.Written) : t.Described :=
  ht.described_of_copy ha (ht.copy_of_written h)

end Tree

end OpenMath
