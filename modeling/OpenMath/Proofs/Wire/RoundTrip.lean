/-
  What is written is read back.

  A tree in which nothing is missing has a shape, and its payloads being such as a
  shape may have, the shape is valid and its text is read as itself.

  * `Tree.Whole`: no slot that must not be empty is empty;
  * `readable_ofContent`, `readable_withAttributes`: what a node is written as is
    read as itself if its parts are;
  * `Kind.RoundTrips`: what is assumed of the floats of a tree;
  * `Shaped.written`, `Shaped.readable`: what is known of the shape of a tree;
  * `Shaped.equals_self`: a tree equals itself.
-/
import Mathlib
import OpenMath.Proofs.Json.Nesting
import OpenMath.Proofs.Json.Numbers
import OpenMath.Proofs.Tree.Payloads
import OpenMath.Proofs.Wire.Acceptance

namespace OpenMath

/-! ## Nothing is missing -/

/-- The roles that must be played in a node. -/
def Kind.required : Kind → List Role
  | .application => [.child]
  | .binding => [.head, .body]
  | .error => [.head]
  | _ => []

namespace Content

variable {α : Type} {c : Content α} {as : List (Symbol × α)}

theorem exists_role_allSlots {r : Role} (hr : ∀ key, r ≠ .attr key) :
    (∃ s ∈ c.allSlots as, s.role = r) ↔ ∃ s ∈ c.slots, s.role = r := by
  constructor
  · rintro ⟨s, hs, rfl⟩
    rcases List.mem_append.1 hs with hs | hs
    · exact ⟨s, hs, rfl⟩
    · obtain ⟨e, -, rfl⟩ := List.mem_map.1 hs
      exact absurd rfl (hr e.1)
  · rintro ⟨s, hs, rfl⟩
    exact ⟨s, List.mem_append_left _ hs, rfl⟩

/-- The roles are played that must be if no part is missing, and if an application has
    children. -/
theorem required_iff : (∀ r ∈ c.kind.required, ∃ s ∈ c.allSlots as, s.role = r) ↔
    c.Complete ∧ (c.kind = .application → c.children ≠ []) := by
  cases c with
  | application cs =>
    cases cs <;> simp [kind, Kind.required, exists_role_allSlots, Complete, children, slots, placed,
      head?, bound, body?]
  | binding hd vs b =>
    cases hd <;> cases b <;> simp [kind, Kind.required, exists_role_allSlots, Complete, slots,
      placed, children, head?, bound, body?]
  | error hd cs =>
    cases hd <;> simp [kind, Kind.required, exists_role_allSlots, Complete, slots, placed,
      children, head?, bound, body?]
  | _ => simp [kind, Kind.required, Complete]

end Content

namespace Tree

variable {ι κ : Type}

/-- In every node, those in the values of attributes included, the roles are played
    that must be: applications have children, bindings and errors have heads, and
    bindings have bodies. -/
def Whole : Tree ι → Prop := fold fun _ k ss =>
  (∀ r ∈ k.required, ∃ s ∈ ss, s.role = r) ∧ ∀ s ∈ ss, s.content

theorem whole_node {l : ι} {k : Kind} {ss : Slots (Tree ι)} :
    (node l k ss).Whole ↔
      (∀ r ∈ k.required, ∃ s ∈ ss, s.role = r) ∧ ∀ s ∈ ss, s.content.Whole := by
  rw [Whole, fold_node, Slots.mapContent, List.forall_mem_map]
  simp only [List.mem_map, exists_exists_and_eq_and]
  rfl

theorem whole_rooted {l : ι} {c : Content (Tree ι)} {as : List (Symbol × Tree ι)} :
    (rooted l c as).Whole ↔ (c.Complete ∧ (c.kind = .application → c.children ≠ [])) ∧
      (∀ u ∈ c.structural, u.Whole) ∧ ∀ e ∈ as, e.2.Whole := by
  rw [rooted, whole_node, Content.forall_allSlots, Content.required_iff]

end Tree

/-! ## Texts of nodes -/

open Json.Parser Wire

theorem readable_int_of_byte (b : UInt8) :
    Readable (Json.int b.toNat).nesting (.int b.toNat) := by
  have hb : b.toNat < 256 := b.toNat_lt
  have hmin : Int64.minValue.toInt ≤ b.toNat := by
    have : Int64.minValue.toInt ≤ 0 := by decide
    omega
  have hmax : (b.toNat : Int) < UInt64.size := by
    have : 256 ≤ UInt64.size := by decide
    omega
  exact .number (readsBack_integer hmin hmax)

theorem readable_integerValue (v : Integer) :
    Readable (Shape.integerValue v).nesting (Shape.integerValue v) := by
  cases v with
  | native n =>
    have hmax : n.toInt < UInt64.size := n.toInt_lt.trans (by decide)
    exact .number (readsBack_integer n.minValue_le_toInt hmax)
  | text s => exact .str

/-- The float of a node, if it has one, is read back from its text. -/
def Kind.RoundTrips : Kind → Prop
  | .float x => Json.RoundTrips x
  | _ => True

theorem readable_tagged {type : NodeType} {fields : List (String × Json)}
    (h : ∀ f ∈ fields, Readable f.2.nesting f.2) :
    Readable (Shape.tagged type fields).nesting (Shape.tagged type fields) :=
  readable_ofFields (List.forall_mem_cons.2 ⟨.str, h⟩)

/-- What a node is written as is read as itself if its parts are. -/
theorem readable_ofContent {c : Content Json} (hk : c.kind.Acceptable) (hf : c.kind.RoundTrips)
    (hc : c.Complete) (hp : ∀ v ∈ c.structural, Readable v.nesting v) :
    Readable (Shape.ofContent c).nesting (Shape.ofContent c) := by
  simp only [Content.mem_structural] at hp
  cases c with
  | integer v => exact readable_tagged (by simpa using readable_integerValue v)
  | float x => exact readable_tagged (by simpa using Readable.number (readsBack_real hk hf))
  | string s => exact readable_tagged (by simpa using Readable.str)
  | byteArray bs =>
    have hbs : ∀ v ∈ bs.map fun b => Json.int b.toNat, Readable v.nesting v :=
      List.forall_mem_map.2 fun b _ => readable_int_of_byte b
    exact readable_tagged (by simpa using readable_arr hbs)
  | symbol s => exact (s.readable_toShape 0).at_nesting
  | var name => exact readable_tagged (by simpa using Readable.str)
  | application cs =>
    have hcs : ∀ v ∈ cs, Readable v.nesting v := fun v hv => hp v (.inl hv)
    exact readable_tagged (by simpa using readable_arr hcs)
  | binding hd vs b =>
    obtain ⟨⟨u, rfl⟩, w, rfl⟩ := hc.imp Option.isSome_iff_exists.1 Option.isSome_iff_exists.1
    have hu := hp u (.inr (.inl rfl))
    have hvs : ∀ v ∈ vs, Readable v.nesting v := fun v hv => hp v (.inr (.inr (.inl hv)))
    have hw := hp w (.inr (.inr (.inr rfl)))
    exact readable_tagged (by simpa using ⟨hu, readable_arr hvs, hw⟩)
  | error hd cs =>
    obtain ⟨u, rfl⟩ := Option.isSome_iff_exists.1 hc
    have hu := hp u (.inr (.inl rfl))
    have hcs : ∀ v ∈ cs, Readable v.nesting v := fun v hv => hp v (.inl hv)
    exact readable_tagged (by simpa using ⟨hu, readable_arr hcs⟩)

/-- A node with attributes is read as itself if the node and the values are. -/
theorem readable_withAttributes {v : Json} (hv : Readable v.nesting v) {as : Json.Fields}
    (has : Json.Fields.Ascending as) (ha : ∀ f ∈ as, Readable f.2.nesting f.2) :
    Readable (Tree.withAttributes as v).nesting (Tree.withAttributes as v) := by
  cases v with
  | obj fs =>
    obtain ⟨hfs, hf⟩ := readable_obj_iff.1 hv
    rw [Tree.withAttributes]
    split_ifs
    · exact hv
    · refine readable_obj_iff.2 ⟨Json.Fields.ascending_insert hfs .., fun f hm => ?_⟩
      rcases Json.Fields.mem_insert hm with rfl | hm
      · exact readable_obj_iff.2 ⟨has, ha⟩
      · exact hf f hm
  | _ => exact hv

/-! ## The shape of a tree -/

namespace Tree

/-- A tree has a valid shape with its own type. -/
structure Written (t : Tree ι) : Prop where
  toShape : t.toShape = .ok t.shape
  valid : Valid t.shape
  type : t.shape.nodeType? = some t.kind.type

variable {l : ι} {c : Content (Tree ι)} {as : List (Symbol × Tree ι)}

/-- The content of a node over parts that are written keeps the rules. -/
theorem acceptable_map_shape (hk : c.kind.Acceptable) (hc : c.Complete)
    (hne : c.kind = .application → c.children ≠ [])
    (fits : ∀ s ∈ c.slots, s.role.admits s.content.kind = true) (hp : ∀ u ∈ c.structural, u.Written) :
    (c.map shape).Acceptable Valid where
  payload := by rwa [Content.kind_map]
  complete := by
    cases c with
    | binding => exact hc.imp Option.isSome_map.trans Option.isSome_map.trans
    | error => exact Option.isSome_map.trans hc
    | _ => trivial
  nonempty h := by
    rw [Content.kind_map] at h
    simpa using hne h
  head v hv := by
    rw [Content.head?_map, Option.map_eq_some_iff] at hv
    obtain ⟨u, hu, rfl⟩ := hv
    rw [(hp u (Content.mem_structural_of_head hu)).type, (fits_iff.1 fits).1 u hu]
  bound v hv := by
    rw [Content.bound_map] at hv
    obtain ⟨u, hu, rfl⟩ := List.mem_map.1 hv
    rw [(hp u (Content.mem_structural_of_bound hu)).type, (fits_iff.1 fits).2 u hu]
  parts v hv := by
    rw [Content.structural_map] at hv
    obtain ⟨u, hu, rfl⟩ := List.mem_map.1 hv
    exact (hp u hu).valid

theorem toShape_rooted_of_written (hk : c.kind.Acceptable) (hc : c.Complete)
    (hp : ∀ u ∈ c.structural, u.Written) (ha : ∀ e ∈ as, e.2.Written) :
    (rooted l c as).toShape =
      .ok (withAttributes (Json.Fields.ofList (as.map fun e => (e.1.encode, e.2.shape)))
        (Shape.ofContent (c.map shape))) :=
  toShape_rooted_of_complete hc (fun x hx => by rwa [hx] at hk) (fun u hu => (hp u hu).toShape)
    fun e he => (ha e he).toShape

theorem exists_of_mem_attributeFields {f : String × Json}
    (h : f ∈ Json.Fields.ofList (as.map fun e => (e.1.encode, e.2.shape))) :
    ∃ e ∈ as, f = (e.1.encode, e.2.shape) := by
  obtain ⟨e, he, rfl⟩ := List.mem_map.1 (Json.Fields.mem_ofList h)
  exact ⟨e, he, rfl⟩

/-- A node over parts and values that are written is written. -/
theorem written_rooted (hk : c.kind.Acceptable) (hc : c.Complete)
    (hne : c.kind = .application → c.children ≠ [])
    (fits : ∀ s ∈ c.slots, s.role.admits s.content.kind = true) (hp : ∀ u ∈ c.structural, u.Written)
    (ha : ∀ e ∈ as, e.2.Written) : (rooted l c as).Written := by
  have hshape := toShape_rooted_of_written (l := l) hk hc hp ha
  constructor <;> rw [shape_eq hshape]
  · exact hshape
  · refine valid_withAttributes (acceptable_map_shape hk hc hne fits hp) fun f hf => ?_
    obtain ⟨e, he, rfl⟩ := exists_of_mem_attributeFields hf
    exact ⟨_, e.1.parse?_encode, e.1.nodeType?_toShape, e.1.valid_toShape, (ha e he).valid⟩
  · obtain ⟨fs, hw, hf, -⟩ := withAttributes_ofContent
      (Json.Fields.ofList (as.map fun e => (e.1.encode, e.2.shape))) (c.map shape)
    rw [hw, nodeType?_ofContent hf, Content.kind_map]
    rfl

variable {t : Tree ι}

/-- A whole tree with payloads that a shape may have is written. -/
theorem Shaped.written (h : t.Shaped) (ha : t.All Kind.Acceptable) (hw : t.Whole) : t.Written := by
  induction h with
  | rooted l c as _ _ fits _ ihp ihv =>
    obtain ⟨hk, hp, hv⟩ := all_rooted.1 ha
    obtain ⟨⟨hc, hne⟩, hwp, hwv⟩ := whole_rooted.1 hw
    exact written_rooted hk hc hne fits (fun u hu => ihp u hu (hp u hu) (hwp u hu))
      fun e he => ihv e he (hv e he) (hwv e he)

/-- The text of the shape of such a tree is read as the shape, if the floats in the tree are read
    back from their texts. -/
theorem Shaped.readable (h : t.Shaped) (ha : t.All Kind.Acceptable) (hw : t.Whole)
    (hf : t.All Kind.RoundTrips) : Readable t.shape.nesting t.shape := by
  induction h with
  | rooted l c as parts values fits _ ihp ihv =>
    obtain ⟨hk, hp, hv⟩ := all_rooted.1 ha
    obtain ⟨⟨hc, hne⟩, hwp, hwv⟩ := whole_rooted.1 hw
    obtain ⟨hfk, hfp, hfv⟩ := all_rooted.1 hf
    have hpw := fun u hu => (parts u hu).written (hp u hu) (hwp u hu)
    have hvw := fun e he => (values e he).written (hv e he) (hwv e he)
    have hacc := acceptable_map_shape hk hc hne fits hpw
    rw [shape_eq (toShape_rooted_of_written hk hc hpw hvw)]
    refine readable_withAttributes
      (readable_ofContent hacc.payload (by rwa [Content.kind_map]) hacc.complete ?_)
      (Json.Fields.ascending_ofList _) fun f hm => ?_
    · rw [Content.structural_map]
      exact List.forall_mem_map.2 fun u hu => ihp u hu (hp u hu) (hwp u hu) (hfp u hu)
    · obtain ⟨e, he, rfl⟩ := exists_of_mem_attributeFields hm
      exact ihv e he (hv e he) (hwv e he) (hfv e he)

/-! ## Equality -/

theorem agrees_self {k : Kind} (h : k.Acceptable) : k.agrees k = true := by
  cases k with
  | float x => simp [Kind.agrees, Double.numericEq, Double.not_isNaN_of_isFinite h]
  | _ => exact beq_self_eq_true _

/-- A tree equals itself if no float in it is NaN. -/
theorem Shaped.equals_self (h : t.Shaped) (ha : t.All Kind.Acceptable) (w : Bool) :
    t.equals w t = true := by
  induction h with
  | rooted l c as _ _ _ keyed ihp ihv =>
    obtain ⟨hk, hp, hv⟩ := all_rooted.1 ha
    have hparts {us : List (Tree ι)} (hu : ∀ u ∈ us, u ∈ c.structural) :
        List.Forall₂ (fun u v => equals w u v = true) us us :=
      List.forall₂_same.2 fun u hm => ihp u (hu u hm) (hp u (hu u hm))
    refine (equals_rooted_iff w l c as l c as keyed).2 ⟨agrees_self hk,
      hparts fun u => Content.mem_structural_of_child,
      hparts fun u hu => Content.mem_structural_of_head (Option.mem_toList.1 hu),
      hparts fun u => Content.mem_structural_of_bound,
      hparts fun u hu => Content.mem_structural_of_body (Option.mem_toList.1 hu),
      fun _ => ⟨rfl, fun e he => ⟨e, he, e.1.sameKey_refl, ihv e he (hv e he)⟩⟩⟩

/-- A tree equals another one that is the same when labels and the order of
    attributes are left aside. -/
theorem Shaped.equals_of_arranged {u : Tree κ} (hu : u.Shaped) (ha : u.All Kind.Acceptable)
    (ht : t.Shaped) (h : u.toTerm = t.arranged) (w : Bool) : u.equals w t = true := by
  rw [← hu.equals_rearranged ht rearranges_arranged, ← h, toTerm,
    hu.equals_rearranged hu (rearranges_mapLabels fun _ => ())]
  exact hu.equals_self ha w

end Tree

end OpenMath
