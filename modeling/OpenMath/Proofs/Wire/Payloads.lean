/-
  The terms of valid shapes.

  What is read off a valid shape keeps the rules for payloads, no part of it is
  missing, and the shapes inside are valid in their turn.  So a property of terms
  that passes from the parts of such a node to the node holds of the term of every
  valid shape.

  * `exists_buildContent`: a content is read off a valid shape;
  * `acceptable_buildLeaf`, `forall_buildContent`, `forall_merge_entries`: the parts of
    a node;
  * `build_induction`: the induction;
  * `acceptable_build`: all payloads of the term.
-/
import OpenMath.Proofs.Integer
import OpenMath.Proofs.Tree.Payloads
import OpenMath.Proofs.Wire.Acceptance
import OpenMath.Proofs.Wire.Merging

namespace OpenMath.Wire

open OpenMath.Tree

variable {fs : Json.Fields} {type : NodeType} {α β : Type}

/-! ## Leaves -/

theorem acceptable_ofInt (n : Int) : (Kind.integer (Integer.ofInt n)).Acceptable := by
  unfold Integer.ofInt Integer.native?
  split_ifs
  · trivial
  · exact Integer.isIntegerText_ofInt n

/-- The integer that is read off a valid field. -/
theorem acceptable_integer? {v : Json} {n : Integer} (h : isInteger (some v) = true)
    (hn : integer? v = some n) : (Kind.integer n).Acceptable := by
  cases v with
  | number x =>
    cases x with
    | integer k =>
      cases hn
      exact acceptable_ofInt k
    | real x =>
      rw [integer?, Integer.ofNumber?, Integer.ofDouble?_eq] at hn
      obtain ⟨k, -, rfl⟩ := Option.map_eq_some_iff.1 hn
      exact acceptable_ofInt k
  | str s =>
    cases hn
    exact h
  | _ => cases hn

/-- The payload of a node without parts. -/
theorem acceptable_buildLeaf (h : FieldsOk Valid fs type) {c : Content α}
    (hc : buildLeaf fs type = .ok c) : c.kind.Acceptable ∧ c.structural = [] := by
  cases type with
  | integer =>
    obtain ⟨v, n, hv, hn⟩ := integer?_ok h
    rw [buildLeaf, payload_ok hv hn] at hc
    cases hc
    exact ⟨acceptable_integer? (hv ▸ h) hn, rfl⟩
  | float =>
    obtain ⟨v, x, hv, hx, -, hf⟩ := h
    rw [buildLeaf, payload_ok hv hx] at hc
    cases hc
    exact ⟨hf, rfl⟩
  | string =>
    obtain ⟨s, hv⟩ := h
    rw [buildLeaf, payload_ok (p := s) hv rfl] at hc
    cases hc
    exact ⟨trivial, rfl⟩
  | byteArray =>
    obtain ⟨v, bs, hv, hb⟩ := h
    rw [buildLeaf, payload_ok hv hb] at hc
    cases hc
    exact ⟨trivial, rfl⟩
  | symbol =>
    obtain ⟨s, -, hc⟩ := Except.bind_eq_ok.1 hc
    cases hc
    exact ⟨trivial, rfl⟩
  | var =>
    obtain ⟨name, hv, hn⟩ := h
    rw [buildLeaf, payload_ok (p := name) hv rfl] at hc
    cases hc
    exact ⟨hn, rfl⟩
  | _ => cases hc

theorem complete_buildLeaf {c : Content α} (hc : buildLeaf fs type = .ok c) :
    c.Complete ∧ (c.kind = .application → c.children ≠ []) := by
  cases type with
  | application | binding | error => cases hc
  | _ =>
    obtain ⟨p, -, hc⟩ := Except.bind_eq_ok.1 hc
    cases hc
    exact ⟨trivial, nofun⟩

/-! ## Parts -/

theorem exists_mapEach {f : α → Except Error β} {xs : List α} (h : ∀ x ∈ xs, ∃ y, f x = .ok y) :
    ∃ ys, mapEach xs (fun x _ => f x) = .ok ys := by
  induction xs with
  | nil => exact ⟨[], rfl⟩
  | cons x xs ih =>
    obtain ⟨y, hy⟩ := h x (List.mem_cons_self ..)
    obtain ⟨ys, hys⟩ := ih fun z hz => h z (List.mem_cons_of_mem x hz)
    exact ⟨y :: ys, Except.bind_eq_ok.2 ⟨y, hy, Except.bind_eq_ok.2 ⟨ys, hys, rfl⟩⟩⟩

section
variable {f : Json → Except Error α} {P : α → Prop}
  (hin : ∀ v, v.weight < (Json.obj fs).weight → Valid v → ∀ t, f v = .ok t → P t)
include hin

theorem forall_buildList {field : String} {xs : List Json} (hx : fs.get? field = some (.arr xs))
    (hv : ∀ x ∈ xs, Valid x) {ts : List α}
    (h : buildList fs field (fun v _ => f v) = .ok ts) : ∀ t ∈ ts, P t := by
  rw [buildList_eq _ hx, mapEach_eq_ok] at h
  intro t ht
  obtain ⟨x, hm, hf⟩ := exists_of_forall₂ h.flip ht
  exact hin x (weight_lt_of_mem_get? hx hm) (hv x hm) t hf

theorem forall_buildField {field : String} {v : Json} (hx : fs.get? field = some v)
    (hv : Valid v) {t : α} (h : buildField fs field (fun v _ => f v) = .ok t) : P t := by
  rw [buildField_eq _ hx] at h
  exact hin v (weight_lt_of_get? hx) hv t h

/-- The content of a node has an acceptable payload, no part of it is missing, and an
    application has children. -/
theorem forall_buildContent (h : FieldsOk Valid fs type) {c : Content α}
    (hc : buildContent fs type (fun v _ => f v) = .ok c) :
    c.kind.Acceptable ∧ c.Complete ∧ (c.kind = .application → c.children ≠ []) ∧
      ∀ u ∈ c.structural, P u := by
  have leaf (hb : buildLeaf fs type = .ok c) : c.kind.Acceptable ∧ c.Complete ∧
      (c.kind = .application → c.children ≠ []) ∧ ∀ u ∈ c.structural, P u := by
    obtain ⟨hk, hs⟩ := acceptable_buildLeaf h hb
    obtain ⟨hc, hne⟩ := complete_buildLeaf hb
    exact ⟨hk, hc, hne, by simp [hs]⟩
  simp only [Content.mem_structural] at leaf ⊢
  cases type with
  | application =>
    obtain ⟨xs, hx, hne, hv⟩ := h
    obtain ⟨ts, hts, hc⟩ := Except.bind_eq_ok.1 hc
    cases hc
    refine ⟨trivial, trivial, fun _ => ?_, ?_⟩
    · rw [buildList_eq _ hx, mapEach_eq_ok] at hts
      exact ne_nil_of_forall₂ hts.flip hne
    · rintro u (hu | hu | hu | hu)
      · exact forall_buildList hin hx hv hts u hu
      all_goals cases hu
  | binding =>
    obtain ⟨⟨v, hs, vs, -⟩, ⟨xs, hx, hxs⟩, b, hb, vb⟩ := h
    obtain ⟨hd, hhd, hc⟩ := Except.bind_eq_ok.1 hc
    obtain ⟨ts, hts, hc⟩ := Except.bind_eq_ok.1 hc
    obtain ⟨body, hbody, hc⟩ := Except.bind_eq_ok.1 hc
    cases hc
    refine ⟨trivial, ⟨rfl, rfl⟩, nofun, ?_⟩
    rintro u (hu | hu | hu | hu)
    · cases hu
    · cases hu
      exact forall_buildField hin hs vs hhd
    · exact forall_buildList hin hx (fun x hm => (hxs x hm).1) hts u hu
    · cases hu
      exact forall_buildField hin hb vb hbody
  | error =>
    obtain ⟨⟨v, hs, vs, -⟩, hcs⟩ := h
    obtain ⟨hd, hhd, hc⟩ := Except.bind_eq_ok.1 hc
    obtain ⟨ts, hts, hc⟩ := Except.bind_eq_ok.1 hc
    cases hc
    refine ⟨trivial, rfl, nofun, ?_⟩
    rintro u (hu | hu | hu | hu)
    · unfold buildErrorChildren at hts
      rcases hcs with hn | ⟨xs, hx, hxs⟩
      · rw [hn] at hts
        cases hts
        cases hu
      · rw [hx, if_neg (by simp)] at hts
        exact forall_buildList hin hx hxs hts u hu
    · cases hu
      exact forall_buildField hin hs vs hhd
    all_goals cases hu
  | _ => exact leaf ((liftExcept_except _).symm.trans hc)

end

/-- A content is read off a valid shape if something is read off its parts. -/
theorem exists_buildContent {f : Json → Except Error α} (ht : (Json.obj fs).nodeType? = some type)
    (h : FieldsOk Valid fs type) (hy : ∀ v, ∃ y, f v = .ok y) :
    ∃ c, buildContent fs type (fun v _ => f v) = .ok c := by
  have list {k : String} {xs : List Json} (hx : fs.get? k = some (.arr xs)) :
      ∃ ys, buildList fs k (fun v _ => f v) = .ok ys := by
    rw [buildList_eq _ hx]
    exact exists_mapEach fun x _ => hy x
  have field {k : String} {v : Json} (hv : fs.get? k = some v) :
      ∃ y, buildField fs k (fun v _ => f v) = .ok y := by
    rw [buildField_eq _ hv]
    exact hy v
  have leaf (hl : IsLeaf type) :
      ∃ c, (liftExcept (buildLeaf fs type) : Except Error (Content α)) = .ok c := by
    obtain ⟨c, -, hc⟩ := buildLeaf_ok ht h hl
    exact ⟨_, (liftExcept_except _).trans (hc α)⟩
  cases type with
  | application =>
    obtain ⟨xs, hx, -⟩ := h
    obtain ⟨ys, hys⟩ := list hx
    exact ⟨_, Except.bind_eq_ok.2 ⟨ys, hys, rfl⟩⟩
  | binding =>
    obtain ⟨⟨hd, hs, -⟩, ⟨xs, hx, -⟩, b, hb, -⟩ := h
    obtain ⟨y, hy⟩ := field hs
    obtain ⟨ys, hys⟩ := list hx
    obtain ⟨z, hz⟩ := field hb
    exact ⟨_, Except.bind_eq_ok.2 ⟨y, hy, Except.bind_eq_ok.2 ⟨ys, hys,
      Except.bind_eq_ok.2 ⟨z, hz, rfl⟩⟩⟩⟩
  | error =>
    obtain ⟨⟨hd, hs, -⟩, hcs⟩ := h
    obtain ⟨y, hy⟩ := field hs
    obtain ⟨ys, hys⟩ : ∃ ys, buildErrorChildren fs (fun v _ => f v) = .ok ys := by
      unfold buildErrorChildren
      rcases hcs with hc | ⟨xs, hx, -⟩
      · exact ⟨[], by rw [hc]; rfl⟩
      · rw [hx, if_neg (by simp)]
        exact list hx
    exact ⟨_, Except.bind_eq_ok.2 ⟨y, hy, Except.bind_eq_ok.2 ⟨ys, hys, rfl⟩⟩⟩
  | _ => exact leaf (by simp [IsLeaf])

/-- The heads and the bound variables of what is read off a valid shape. -/
theorem nodeType?_buildContent {f : Json → Except Error Json} (h : FieldsOk Valid fs type)
    (hy : ∀ v y, f v = .ok y → y.nodeType? = v.nodeType?) {c : Content Json}
    (hc : buildContent fs type (fun v _ => f v) = .ok c) :
    (∀ v, c.head? = some v → v.nodeType? = some .symbol) ∧
      ∀ v ∈ c.bound, v.nodeType? = some .var := by
  have head (hd : HeadOk Valid fs) {y : Json}
      (hf : buildField fs "s" (fun v _ => f v) = .ok y) : y.nodeType? = some .symbol := by
    obtain ⟨v, hv, -, ht⟩ := hd
    rw [buildField_eq _ hv] at hf
    rw [hy v y hf, ht]
  have leaf (hb : buildLeaf fs type = .ok c) :
      (∀ v, c.head? = some v → v.nodeType? = some .symbol) ∧
        ∀ v ∈ c.bound, v.nodeType? = some .var := by
    obtain ⟨-, hs⟩ := acceptable_buildLeaf h hb
    refine ⟨fun v hv => ?_, fun v hv => ?_⟩
    · exact absurd (Content.mem_structural_of_head hv) (by simp [hs])
    · exact absurd (Content.mem_structural_of_bound hv) (by simp [hs])
  cases type with
  | application =>
    obtain ⟨ys, -, hc⟩ := Except.bind_eq_ok.1 hc
    cases hc
    exact ⟨nofun, nofun⟩
  | binding =>
    obtain ⟨hd, ⟨xs, hx, hxs⟩, -⟩ := h
    obtain ⟨y, hy', hc⟩ := Except.bind_eq_ok.1 hc
    obtain ⟨ys, hys, hc⟩ := Except.bind_eq_ok.1 hc
    obtain ⟨z, -, hc⟩ := Except.bind_eq_ok.1 hc
    cases hc
    rw [buildList_eq _ hx, mapEach_eq_ok] at hys
    refine ⟨?_, fun v hv => ?_⟩
    · rintro v ⟨⟩
      exact head hd hy'
    · obtain ⟨x, hm, hf⟩ := exists_of_forall₂ hys.flip hv
      rw [hy x v hf, (hxs x hm).2]
  | error =>
    obtain ⟨y, hy', hc⟩ := Except.bind_eq_ok.1 hc
    obtain ⟨ys, -, hc⟩ := Except.bind_eq_ok.1 hc
    cases hc
    refine ⟨?_, nofun⟩
    rintro v ⟨⟩
    exact head h.1 hy'
  | _ => exact leaf ((liftExcept_except _).symm.trans hc)

/-! ## Attributes -/

/-- The values of attributes. -/
theorem forall_merge_entries {f : Json → Except Error Term} {P : Term → Prop}
    (hin : ∀ v, v.weight < (Json.obj fs).weight → Valid v → ∀ t, f v = .ok t → P t)
    (h : AttributesOk Valid fs) {ps : List (Symbol × Term)}
    (hps : List.Forall₂ (EntryRead f) (entriesOf fs) ps) : ∀ p ∈ merge ps, P p.2 := by
  refine forall_merge fun p hp => ?_
  obtain ⟨e, he, hep⟩ := exists_of_forall₂ hps.flip hp
  obtain ⟨-, -, -, -, hv⟩ := h.entry he
  exact hin e.2 (weight_lt_of_entry he) hv p.2 hep.2

/-! ## Terms -/

/-- A property of terms that passes from the parts and the attributes of a node to the
    node, if the node keeps the rules for payloads and no part of it is missing, holds
    of the term of every valid shape. -/
theorem build_induction {P : Term → Prop}
    (node : ∀ (c : Content Term) (as : List (Symbol × Term)), c.kind.Acceptable → c.Complete →
      (c.kind = .application → c.children ≠ []) → (∀ u ∈ c.structural, P u) →
      (∀ e ∈ as, P e.2) → P (rooted () c as))
    {v : Json} (h : Valid v) {t : Term} (ht : build v = .ok t) : P t := by
  -- on the weight, since the keys of attributes are texts of further shapes
  induction hn : v.weight using Nat.strongRecOn generalizing v t with
  | _ n ih =>
    subst hn
    obtain ⟨fs, rfl, ha, type, htype, -, hf⟩ := valid_iff.1 h
    have hin (v : Json) (hw : v.weight < (Json.obj fs).weight) (hv : Valid v) (t : Term)
        (ht : build v = .ok t) : P t := ih _ hw hv ht rfl
    obtain ⟨type', c, ps, htype', hc, hps, rfl⟩ := build_eq_ok.1 ht
    cases htype.symm.trans htype'
    obtain ⟨hk, hcomplete, hne, hp⟩ := forall_buildContent hin hf hc
    exact node c (merge ps) hk hcomplete hne hp (forall_merge_entries hin ha hps)

/-- The term of a valid shape has acceptable payloads. -/
theorem acceptable_build {v : Json} (h : Valid v) {t : Term} (ht : build v = .ok t) :
    t.All Kind.Acceptable :=
  build_induction (P := fun t => t.All Kind.Acceptable)
    (fun _ _ hk _ _ hp ha => all_rooted.2 ⟨hk, hp, ha⟩) h ht

end OpenMath.Wire
