/-
  Shapes as equality sees them.

  The keys of attributes lose their uris, and the numbers of floats the sign of a zero.
  What is left of the shapes of two trees is the same just if the trees are equal.

  * `coarseKey`, `coarse`: an attribute key, and a shape, as equality sees them;
  * `coarse_ofContent`, `coarse_withAttributes`: the coarse form of the shape of a node;
  * `Shaped.toShape_coarse`: the shape of a coarse tree is the coarse shape;
  * `Shaped.equals_iff_coarse_shape`: equality of trees by their shapes.
-/
import OpenMath.Proofs.Compact.Meaning
import OpenMath.Proofs.Tree.Coarse
import OpenMath.Proofs.Wire.Writing

namespace OpenMath

/-! ## Fields -/

namespace Json.Fields

variable {fs gs : List (String × Json)} {g : String → Json → Json}

theorem map_insert (k : String) (v : Json) (fs : Fields) :
    (insert k v fs).map (fun f => (f.1, g f.1 f.2)) =
      insert k (g k v) (fs.map fun f => (f.1, g f.1 f.2)) := by
  induction fs with
  | nil => rfl
  | cons f fs ih =>
    rw [insert, List.map_cons, insert]
    split_ifs with hlt heq
    · rfl
    · rw [List.map_cons, heq]
    · rw [List.map_cons, ih]

theorem map_ofList (fs : List (String × Json)) :
    (ofList fs).map (fun f => (f.1, g f.1 f.2)) = ofList (fs.map fun f => (f.1, g f.1 f.2)) := by
  suffices ∀ acc : Fields, (fs.foldl (fun acc f => insert f.1 f.2 acc) acc).map
      (fun f => (f.1, g f.1 f.2)) = (fs.map fun f => (f.1, g f.1 f.2)).foldl
        (fun acc f => insert f.1 f.2 acc) (acc.map fun f => (f.1, g f.1 f.2)) from this []
  induction fs with
  | nil => exact fun acc => rfl
  | cons f fs ih => exact fun acc => by rw [List.foldl_cons, ih, map_insert]; rfl

theorem filter_insert (k : String) (v : Json) (fs : Fields) :
    (insert k v fs).filter (fun f => f.1 ≠ k) = fs.filter fun f => f.1 ≠ k := by
  induction fs with
  | nil => simp [insert]
  | cons f fs ih =>
    rw [insert]
    split_ifs with hlt heq
    · simp
    · simp [heq]
    · rw [List.filter_cons, List.filter_cons, ih]

end Json.Fields

/-! ## Shapes -/

namespace Wire

/-- The text of an attribute key, without the uri of the symbol that it writes. -/
def coarseKey (key : String) : String :=
  match Json.parse? key with
  | some (.obj fs) => (Json.obj (fs.filter fun f => f.1 ≠ "uri")).compact
  | _ => key

/-- A number without the sign of a zero. -/
def coarseNumber : Json → Json
  | .number (.real x) => .number (.real x.mergeZeros)
  | v => v

mutual

/-- A shape in which attribute keys have no uris, and floats no negative zeros. -/
def coarse : Json → Json
  | .arr xs => .arr (coarseItems xs)
  | .obj fs => .obj (coarseFields (Json.obj fs).nodeType? fs)
  | v => v

/-- The coarse shapes of the items of an array. -/
def coarseItems : List Json → List Json
  | [] => []
  | x :: xs => coarse x :: coarseItems xs

/-- The fields of a shape of some kind. -/
def coarseFields (type : Option NodeType) : List (String × Json) → List (String × Json)
  | [] => []
  | (k, v) :: fs =>
    (k, if k = "a" then coarseAttributes v
        else if k = "v" ∧ type = some .float then coarseNumber v
        else coarse v) :: coarseFields type fs

/-- Attributes with their keys, in the order of what is left of them. -/
def coarseAttributes : Json → Json
  | .obj es => .ofFields (coarseEntries es)
  | v => v

/-- Attributes with coarse keys and values. -/
def coarseEntries : List (String × Json) → List (String × Json)
  | [] => []
  | (k, v) :: es => (coarseKey k, coarse v) :: coarseEntries es

end

/-- What is in a field of a coarse shape. -/
def coarseField (type : Option NodeType) (k : String) (v : Json) : Json :=
  if k = "a" then coarseAttributes v
  else if k = "v" ∧ type = some .float then coarseNumber v
  else coarse v

theorem coarseItems_eq (xs : List Json) : coarseItems xs = xs.map coarse := by
  induction xs with
  | nil => rw [coarseItems, List.map_nil]
  | cons x xs ih => rw [coarseItems, ih, List.map_cons]

theorem coarseFields_eq (type : Option NodeType) (fs : Json.Fields) :
    coarseFields type fs = fs.map fun f => (f.1, coarseField type f.1 f.2) := by
  induction fs with
  | nil => rw [coarseFields, List.map_nil]
  | cons f fs ih =>
    obtain ⟨k, v⟩ := f
    rw [coarseFields, ih, List.map_cons, coarseField]

theorem coarseEntries_eq (es : Json.Fields) :
    coarseEntries es = es.map fun e => (coarseKey e.1, coarse e.2) := by
  induction es with
  | nil => rw [coarseEntries, List.map_nil]
  | cons e es ih =>
    obtain ⟨k, v⟩ := e
    rw [coarseEntries, ih, List.map_cons]

theorem coarseAttributes_obj (es : Json.Fields) :
    coarseAttributes (.obj es) = .ofFields (es.map fun e => (coarseKey e.1, coarse e.2)) := by
  rw [coarseAttributes, coarseEntries_eq]

@[simp] theorem coarse_null : coarse .null = .null := by simp [coarse]

@[simp] theorem coarse_number (n : Json.Number) : coarse (.number n) = .number n := by
  simp [coarse]

@[simp] theorem coarse_str (s : String) : coarse (.str s) = .str s := by simp [coarse]

@[simp] theorem coarse_arr (xs : List Json) : coarse (.arr xs) = .arr (xs.map coarse) := by
  rw [coarse, coarseItems_eq]

theorem coarse_obj (fs : Json.Fields) : coarse (.obj fs) =
    .obj (fs.map fun f => (f.1, coarseField (Json.obj fs).nodeType? f.1 f.2)) := by
  rw [coarse, coarseFields_eq]

/-! ## Keys -/

theorem toShape_eq_tagged (s : Symbol) : s.toShape = Shape.tagged .symbol
    (("n", .str s.name) :: ("cd", .str s.cd) :: (s.uri.map fun uri => ("uri", .str uri)).toList) :=
  rfl

theorem toShape_withoutUri (s : Symbol) :
    ∃ fs, s.toShape = .obj fs ∧ s.withoutUri.toShape = .obj (fs.filter fun f => f.1 ≠ "uri") := by
  let named : List (String × Json) :=
    [("t", .str NodeType.symbol.tag), ("n", .str s.name), ("cd", .str s.cd)]
  have hnamed : (Json.Fields.ofList named).filter (fun f => f.1 ≠ "uri") = Json.Fields.ofList named := by
    refine List.filter_eq_self.2 fun f hf => ?_
    have hm := Json.Fields.mem_ofList hf
    simp only [named, List.mem_cons, List.not_mem_nil, or_false] at hm
    rcases hm with rfl | rfl | rfl <;> simp
  cases hu : s.uri with
  | none =>
    refine ⟨Json.Fields.ofList named, ?_, ?_⟩
    · rw [toShape_eq_tagged, hu]
      rfl
    · rw [hnamed]
      rfl
  | some uri =>
    refine ⟨Json.Fields.insert "uri" (.str uri) (Json.Fields.ofList named), ?_, ?_⟩
    · rw [toShape_eq_tagged, hu]
      rfl
    · rw [Json.Fields.filter_insert, hnamed]
      rfl

theorem coarseKey_encode (s : Symbol) : coarseKey s.encode = s.withoutUri.encode := by
  obtain ⟨fs, hs, hw⟩ := toShape_withoutUri s
  rw [coarseKey, s.parse?_encode, hs]
  exact congrArg Json.compact hw.symm

/-! ## Nodes -/

theorem coarse_tagged {type : NodeType} {fields : List (String × Json)}
    (h : (Shape.tagged type fields).nodeType? = some type) :
    coarse (Shape.tagged type fields) =
      Shape.tagged type (fields.map fun f => (f.1, coarseField (some type) f.1 f.2)) := by
  rw [Shape.tagged, Json.ofFields] at h ⊢
  rw [coarse_obj, h, Json.Fields.map_ofList, List.map_cons, Shape.tagged, Json.ofFields]
  simp [coarseField]

theorem coarse_ofContent (c : Content Json) :
    coarse (Shape.ofContent c) = Shape.ofContent (c.map coarse).coarse := by
  have h := Compact.nodeType?_ofContent c
  cases c with
  | symbol s =>
    rw [Shape.ofContent, toShape_eq_tagged] at h
    show coarse s.toShape = s.toShape
    rw [toShape_eq_tagged, coarse_tagged h]
    cases s.uri <;> simp [coarseField]
  | integer v =>
    refine (coarse_tagged h).trans ?_
    cases v <;> simp [coarseField, Shape.ofContent, Content.map, Content.coarse, Shape.ofInteger,
      Shape.integerValue]
  | binding hd vs b =>
    refine (coarse_tagged h).trans ?_
    cases hd <;> cases b <;>
      simp [coarseField, Shape.ofContent, Content.map, Content.coarse, Shape.ofBinding]
  | error hd cs =>
    refine (coarse_tagged h).trans ?_
    cases hd <;> simp [coarseField, Shape.ofContent, Content.map, Content.coarse, Shape.ofError]
  | _ =>
    refine (coarse_tagged h).trans ?_
    simp [coarseField, coarseNumber, Shape.ofContent, Content.map, Content.coarse, Shape.ofFloat,
      Shape.ofString, Shape.ofBytes, Shape.ofVar, Shape.ofApplication, Function.comp_def]

/-- The coarse shape of a node has coarse attributes, in the order of the coarse keys. -/
theorem coarse_withAttributes (es : Json.Fields) (c : Content Json) :
    coarse (Tree.withAttributes es (Shape.ofContent c)) =
      Tree.withAttributes (Json.Fields.ofList (es.map fun e => (coarseKey e.1, coarse e.2)))
        (Shape.ofContent (c.map coarse).coarse) := by
  rw [← coarse_ofContent]
  obtain ⟨fs, hc, -⟩ := Tree.ofContent_eq c
  cases es with
  | nil =>
    rw [Tree.withAttributes_nil, hc, coarse_obj]
    rfl
  | cons e es =>
    have htype := Compact.nodeType?_ofContent c
    obtain ⟨gs, hg, hf, -⟩ := Tree.withAttributes_ofContent (e :: es) c
    have htype' := nodeType?_ofContent hf
    have hne : (Json.Fields.ofList ((e :: es).map fun e => (coarseKey e.1, coarse e.2))) ≠ [] := by
      rw [Ne, Json.Fields.ofList_eq_nil_iff]
      exact List.cons_ne_nil _ _
    rw [hc] at htype hg ⊢
    rw [Tree.withAttributes, if_neg (by simp)] at hg ⊢
    cases hg
    rw [coarse_obj, coarse_obj, htype, htype', Json.Fields.map_insert, Tree.withAttributes,
      if_neg (by simpa using hne), coarseField, if_pos rfl, coarseAttributes_obj]
    rfl

end Wire

/-! ## Trees -/

namespace Tree

open Wire

variable {ι κ : Type} {t : Tree ι} {u : Tree κ} {v w : Json}

/-- The shape of a coarse tree is the coarse shape of the tree. -/
theorem Shaped.toShape_coarse (ht : t.Shaped) (ha : t.All Kind.Acceptable) (hv : t.toShape = .ok v) :
    t.coarse.toShape = .ok (Wire.coarse v) := by
  induction ht generalizing v with
  | rooted l c as _ _ _ keyed ihp ihv =>
    obtain ⟨hk, hap, hav⟩ := all_rooted.1 ha
    obtain ⟨hc, hp, hd, rfl⟩ := toShape_rooted_ok hv
    have hpart (x : Tree ι) (hx : x ∈ c.structural) : x.coarse.toShape = .ok (Wire.coarse x.shape) :=
      ihp x hx (hap x hx) (hp x hx)
    have hvalue (e : Symbol × Tree ι) (he : e ∈ as) :
        e.2.coarse.toShape = .ok (Wire.coarse e.2.shape) :=
      ihv e he (hav e he) (hd e he)
    have hfinite (x : Double) (hx : (c.map Tree.coarse).coarse.kind = .float x) :
        x.isFinite = true := by
      have hk' : ((c.map Tree.coarse).coarse.kind).Acceptable := by
        rw [Content.kind_coarse, Content.kind_map]
        exact Kind.acceptable_coarse hk
      rwa [hx] at hk'
    rw [coarse_rooted, coarse_withAttributes]
    refine (toShape_rooted_of_complete ((Content.complete_coarse _).2 (Content.complete_map.2 hc))
      hfinite ?_ ?_).trans ?_
    · rw [Content.structural_coarse, Content.structural_map]
      exact List.forall_mem_map.2 fun x hx => by rw [hpart x hx, shape_eq (hpart x hx)]
    · exact List.forall_mem_map.2 fun e he => by rw [hvalue e he, shape_eq (hvalue e he)]
    · have hcontent : (c.map Tree.coarse).coarse.map shape = ((c.map shape).map Wire.coarse).coarse := by
        rw [Content.map_coarse, Content.map_map, Content.map_map]
        exact congrArg _ (Content.map_congr fun x hx => shape_eq (hpart x hx))
      have hentries : ((as.map fun e => (e.1.withoutUri, e.2.coarse)).map fun e =>
          (e.1.encode, e.2.shape)) = (as.map fun e => (e.1.encode, e.2.shape)).map fun e =>
            (coarseKey e.1, Wire.coarse e.2) := by
        rw [List.map_map, List.map_map]
        refine List.map_congr_left fun e he => ?_
        rw [Function.comp_apply, Function.comp_apply, coarseKey_encode, shape_eq (hvalue e he)]
      have hkeyed : Keyed (as.map fun e => (e.1.withoutUri, e.2.coarse)) := by
        rw [Keyed, List.pairwise_map]
        exact keyed
      have hnodup : (((as.map fun e => (e.1.withoutUri, e.2.coarse)).map fun e =>
          (e.1.encode, e.2.shape)).map Prod.fst).Nodup := by
        rw [List.map_map]
        exact encode_nodup hkeyed
      have hnodup' : ((as.map fun e => (e.1.encode, e.2.shape)).map Prod.fst).Nodup := by
        rw [List.map_map]
        exact encode_nodup keyed
      have hperm := (Json.Fields.perm_ofList hnodup').map fun e => (coarseKey e.1, Wire.coarse e.2)
      rw [hcontent, Json.Fields.ofList_eq_of_perm hnodup (hentries ▸ hperm.symm)]

/-- Trees are equal, attributes included, if and only if their shapes are the same to
    equality. -/
theorem Shaped.equals_iff_coarse_shape (ht : t.Shaped) (hu : u.Shaped)
    (hta : t.All Kind.Acceptable) (hua : u.All Kind.Acceptable) (hv : t.toShape = .ok v)
    (hw : u.toShape = .ok w) : t.equals true u = true ↔ Wire.coarse v = Wire.coarse w := by
  have hv' := ht.toShape_coarse hta hv
  have hw' := hu.toShape_coarse hua hw
  rw [ht.equals_iff_coarse hu hta hua]
  constructor
  · intro h
    have hshape := ht.coarse.toShape_arranged hv'
    rw [h, hu.coarse.toShape_arranged hw'] at hshape
    exact (Except.ok.inj hshape).symm
  · intro h
    have hbuild := ht.coarse.build_toShape hv'
    rw [h, hu.coarse.build_toShape hw'] at hbuild
    exact (Except.ok.inj hbuild).symm

end Tree

end OpenMath
