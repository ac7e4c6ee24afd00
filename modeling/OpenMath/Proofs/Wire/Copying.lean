/-
  What a copy of a tree is.

  The shape of a tree describes the tree itself, but that its attributes are put
  in the order of their keys.

  * `Shape.ofContent`: the shape of a node from the shapes of its parts;
  * `Tree.arranged`: a tree without labels, its attributes in order;
  * `Shaped.build_toShape`: the term that the shape of a tree describes;
  * `Shaped.copy_eq`, `Shaped.copy_copy`: a copy, and a copy of a copy.
-/
import OpenMath.Proofs.Tree.Shaped
import OpenMath.Proofs.Wire.Keys
import OpenMath.Proofs.Wire.Merging
import OpenMath.Wire.Encoding

namespace OpenMath

variable {ι α β : Type}

/-! ## Results of lists -/

/-- If every item has a result, then the list has the list of results, and
    conversely; `g` is to know what the results are. -/
theorem mapM_eq_ok_iff {f : α → Except Error β} {g : α → β} (hg : ∀ x y, f x = .ok y → g x = y)
    {xs : List α} {ys : List β} :
    xs.mapM f = .ok ys ↔ (∀ x ∈ xs, f x = .ok (g x)) ∧ ys = xs.map g := by
  induction xs generalizing ys with
  | nil => simp [pure, Except.pure, eq_comm]
  | cons x xs ih =>
    simp only [List.mapM_cons, Except.bind_eq_ok, ih, List.forall_mem_cons, List.map_cons]
    constructor
    · rintro ⟨y, hy, ys, ⟨hf, rfl⟩, h⟩
      cases h
      rw [hg x y hy]
      exact ⟨⟨hy, hf⟩, rfl⟩
    · rintro ⟨⟨hx, hf⟩, rfl⟩
      exact ⟨g x, hx, _, ⟨hf, rfl⟩, rfl⟩

/-! ## Shapes of contents -/

/-- No part is missing. -/
def Content.Complete : Content α → Prop
  | .binding h _ b => h.isSome ∧ b.isSome
  | .error h _ => h.isSome
  | _ => True

/-- The shape of a node from the shapes of its parts, none of which is missing. -/
def Shape.ofContent : Content Json → Json
  | .integer v => ofInteger v
  | .float x => ofFloat x
  | .string s => ofString s
  | .byteArray bs => ofBytes bs
  | .symbol s => s.toShape
  | .var name => ofVar name
  | .application cs => ofApplication cs
  | .binding h vs b => ofBinding (h.getD .null) vs (b.getD .null)
  | .error h cs => ofError (h.getD .null) cs

/-- The places of a node but those of attributes. -/
def Slots.dropAttributes (ss : Slots α) : Slots α :=
  ss.filter fun s => match s.role with
    | .attr _ => false
    | _ => true

theorem Content.dropAttributes_allSlots (c : Content α) (as : List (Symbol × α)) :
    (c.allSlots as).dropAttributes = c.slots := by
  rw [Slots.dropAttributes, allSlots, List.filter_append, List.filter_eq_self.2,
    List.filter_eq_nil_iff.2,
    List.append_nil]
  · intro s hs
    obtain ⟨e, -, rfl⟩ := List.mem_map.1 hs
    simp
  · intro s hs
    have := role_ne_attr hs
    split <;> simp_all

namespace Tree

open Wire

/-- The shape of a tree that has one. -/
def shape (t : Tree ι) : Json := t.toShape.toOption.getD .null

theorem shape_eq {t : Tree ι} {v : Json} (h : t.toShape = .ok v) : t.shape = v := by
  rw [shape, h]
  rfl

theorem toShape_mapLabels {κ : Type} (f : ι → κ) (t : Tree ι) :
    (t.mapLabels f).toShape = t.toShape := by
  induction t using Tree.induction with
  | node l k ss ih =>
    rw [mapLabels_node, toShape_node, toShape_node, Slots.mapContent_mapContent]
    refine congrArg _ (List.map_congr_left fun s hs => ?_)
    rw [Slot.map, Slot.map, ih s hs]

theorem copy_mapLabels {κ : Type} (f : ι → κ) (t : Tree ι) : (t.mapLabels f).copy = t.copy := by
  rw [copy, toShape_mapLabels, copy]

theorem mapM_toShape {ts : List (Tree ι)} {vs : List Json} :
    (ts.map toShape).mapM id = .ok vs ↔ (∀ t ∈ ts, t.toShape = .ok t.shape) ∧ vs = ts.map shape := by
  rw [List.mapM_map]
  exact mapM_eq_ok_iff fun _ _ => shape_eq

theorem requiredShape_eq_ok {type : NodeType} {slot : RequiredSlot} {t : Option (Tree ι)}
    {v : Json} :
    requiredShape type slot (t.map toShape) = .ok v ↔ ∃ u, t = some u ∧ u.toShape = .ok v := by
  cases t <;> simp [requiredShape]

/-- When the content of a node has a shape, and which one. -/
theorem structuralShape_ok {c : Content (Tree ι)} {as : List (Symbol × Except Error Json)} {w : Json}
    (h : structuralShape c.kind ((c.map toShape).allSlots as) = .ok w) :
    c.Complete ∧ (∀ u ∈ c.structural, u.toShape = .ok u.shape) ∧
      w = Shape.ofContent (c.map shape) := by
  simp only [Content.mem_structural]
  cases c with
  | application cs =>
    simp only [structuralShape, Content.kind, Content.children_allSlots, Content.children_map,
      Except.bind_eq_ok, mapM_toShape] at h
    obtain ⟨_, ⟨hc, rfl⟩, h⟩ := h
    cases h
    exact ⟨trivial,
      by simpa [Content.children, Content.head?, Content.bound, Content.body?] using hc, rfl⟩
  | binding hd vs b =>
    simp only [structuralShape, Content.kind, Content.head?_allSlots, Content.bound_allSlots,
      Content.body?_allSlots, Content.head?_map, Content.bound_map, Content.body?_map,
      Except.bind_eq_ok, mapM_toShape, requiredShape_eq_ok] at h
    obtain ⟨v, ⟨u, hu, hv⟩, _, ⟨hvs, rfl⟩, v', ⟨u', hu', hv'⟩, h⟩ := h
    cases h
    cases hu
    cases hu'
    obtain rfl := shape_eq hv
    obtain rfl := shape_eq hv'
    refine ⟨⟨rfl, rfl⟩, ?_, rfl⟩
    rintro x (hx | hx | hx | hx)
    · cases hx
    · cases hx; exact hv
    · exact hvs x hx
    · cases hx; exact hv'
  | error hd cs =>
    simp only [structuralShape, Content.kind, Content.head?_allSlots, Content.children_allSlots,
      Content.head?_map, Content.children_map, Except.bind_eq_ok, mapM_toShape,
      requiredShape_eq_ok] at h
    obtain ⟨v, ⟨u, hu, hv⟩, _, ⟨hcs, rfl⟩, h⟩ := h
    cases h
    cases hu
    obtain rfl := shape_eq hv
    refine ⟨rfl, ?_, rfl⟩
    rintro x (hx | hx | hx | hx)
    · exact hcs x hx
    · cases hx; exact hv
    all_goals cases hx
  | float x =>
    simp only [structuralShape, Content.kind] at h
    split at h
    · cases h
      exact ⟨trivial, by simp [Content.children, Content.head?, Content.bound, Content.body?], rfl⟩
    · cases h
  | _ =>
    cases h
    exact ⟨trivial, by simp [Content.children, Content.head?, Content.bound, Content.body?], rfl⟩

theorem mapM_attributeField {as : List (Symbol × Tree ι)} {es : Json.Fields} :
    (as.map fun e => (e.1, e.2.toShape)).mapM attributeField = .ok es ↔
      (∀ e ∈ as, e.2.toShape = .ok e.2.shape) ∧ es = as.map fun e => (e.1.encode, e.2.shape) := by
  rw [List.mapM_map, mapM_eq_ok_iff (g := fun e => (e.1.encode, e.2.shape))]
  · refine and_congr_left fun _ => forall_congr' fun e => imp_congr_right fun _ => ?_
    rw [Function.comp_apply, attributeField, Except.bind_eq_ok]
    exact ⟨fun ⟨v, hv, h⟩ => by cases h; exact hv, fun h => ⟨_, h, rfl⟩⟩
  · intro e f h
    obtain ⟨v, hv, h⟩ := Except.bind_eq_ok.1 h
    cases h
    rw [shape_eq hv]

theorem structuralShape_allSlots (k : Kind) (c : Content (Except Error Json))
    (as bs : List (Symbol × Except Error Json)) :
    structuralShape k (c.allSlots as) = structuralShape k (c.allSlots bs) := by
  cases k <;>
    simp only [structuralShape, Content.children_allSlots, Content.head?_allSlots,
      Content.bound_allSlots, Content.body?_allSlots]

/-- When a node has a shape, and which one. -/
theorem toShape_rooted_ok {l : ι} {c : Content (Tree ι)} {as : List (Symbol × Tree ι)} {v : Json}
    (h : (rooted l c as).toShape = .ok v) :
    c.Complete ∧ (∀ u ∈ c.structural, u.toShape = .ok u.shape) ∧
      (∀ e ∈ as, e.2.toShape = .ok e.2.shape) ∧
      v = withAttributes (Json.Fields.ofList (as.map fun e => (e.1.encode, e.2.shape)))
        (Shape.ofContent (c.map shape)) := by
  rw [rooted, toShape_node, Content.mapContent_allSlots, shapeStep, Except.bind_eq_ok] at h
  obtain ⟨w, hw, h⟩ := h
  rw [Content.attributes_allSlots, Except.bind_eq_ok] at h
  obtain ⟨es, he, h⟩ := h
  obtain ⟨hc, hp, rfl⟩ := structuralShape_ok hw
  obtain ⟨ha, rfl⟩ := mapM_attributeField.1 he
  cases h
  exact ⟨hc, hp, ha, rfl⟩

/-- A node of which nothing is missing has the shape of its content. -/
theorem structuralShape_of_complete {c : Content (Tree ι)} {as : List (Symbol × Except Error Json)}
    (hc : c.Complete) (hf : ∀ x, c.kind = .float x → x.isFinite = true)
    (hp : ∀ u ∈ c.structural, u.toShape = .ok u.shape) :
    structuralShape c.kind ((c.map toShape).allSlots as) = .ok (Shape.ofContent (c.map shape)) := by
  simp only [Content.mem_structural] at hp
  cases c with
  | application cs =>
    simp only [structuralShape, Content.kind, Content.children_allSlots, Content.children_map,
      Except.bind_eq_ok]
    exact ⟨_, mapM_toShape.2 ⟨fun u hu => hp u (.inl hu), rfl⟩, rfl⟩
  | binding hd vs b =>
    obtain ⟨⟨u, rfl⟩, u', rfl⟩ := hc.imp Option.isSome_iff_exists.1 Option.isSome_iff_exists.1
    simp only [structuralShape, Content.kind, Content.head?_allSlots, Content.bound_allSlots,
      Content.body?_allSlots, Content.head?_map, Content.bound_map, Content.body?_map,
      Except.bind_eq_ok]
    exact ⟨_, requiredShape_eq_ok.2 ⟨u, rfl, hp u (.inr (.inl rfl))⟩, _,
      mapM_toShape.2 ⟨fun v hv => hp v (.inr (.inr (.inl hv))), rfl⟩, _,
      requiredShape_eq_ok.2 ⟨u', rfl, hp u' (.inr (.inr (.inr rfl)))⟩, rfl⟩
  | error hd cs =>
    obtain ⟨u, rfl⟩ := Option.isSome_iff_exists.1 hc
    simp only [structuralShape, Content.kind, Content.head?_allSlots, Content.children_allSlots,
      Content.head?_map, Content.children_map, Except.bind_eq_ok]
    exact ⟨_, requiredShape_eq_ok.2 ⟨u, rfl, hp u (.inr (.inl rfl))⟩, _,
      mapM_toShape.2 ⟨fun v hv => hp v (.inl hv), rfl⟩, rfl⟩
  | float x => exact if_pos (hf x rfl)
  | _ => rfl

/-- A node of which nothing is missing has a shape if its parts and the values of
    its attributes have. -/
theorem toShape_rooted_of_complete {l : ι} {c : Content (Tree ι)} {as : List (Symbol × Tree ι)}
    (hc : c.Complete) (hf : ∀ x, c.kind = .float x → x.isFinite = true)
    (hp : ∀ u ∈ c.structural, u.toShape = .ok u.shape) (ha : ∀ e ∈ as, e.2.toShape = .ok e.2.shape) :
    (rooted l c as).toShape =
      .ok (withAttributes (Json.Fields.ofList (as.map fun e => (e.1.encode, e.2.shape)))
        (Shape.ofContent (c.map shape))) := by
  rw [rooted, toShape_node, Content.mapContent_allSlots, shapeStep,
    structuralShape_of_complete hc hf hp, Content.attributes_allSlots]
  exact Except.bind_eq_ok.2 ⟨_, rfl, Except.bind_eq_ok.2 ⟨_, mapM_attributeField.2 ⟨ha, rfl⟩, rfl⟩⟩

/-! ## What a shape describes -/

/-- A tree without labels, with its attributes in the order of their keys. -/
def arranged : Tree ι → Term := fold fun _ k ss =>
  .node () k (ss.dropAttributes ++ Content.attributeSlots (sortKeys ss.attributes))

theorem arranged_rooted (l : ι) (c : Content (Tree ι)) (as : List (Symbol × Tree ι)) :
    (rooted l c as).arranged =
      rooted () (c.map arranged) (sortKeys (as.map fun e => (e.1, e.2.arranged))) := by
  rw [rooted, arranged, fold_node, Content.mapContent_allSlots, Content.dropAttributes_allSlots,
    Content.attributes_allSlots, rooted, Content.kind_map]
  rfl

theorem rearranges_arranged : Rearranges (arranged (ι := ι)) where
  kind t := by rw [arranged, fold_eq]; rfl
  rooted l c as := ⟨(), _, arranged_rooted l c as, sortKeys_perm _⟩

end Tree

namespace Wire

open OpenMath.Tree

/-- The fields of a node with a content, attributes apart, are those of `fs`. -/
def HasFields (fs : Json.Fields) (w : Json) : Prop := ∀ k ≠ "a", fs.get? k = w.field? k

theorem field?_tagged {type : NodeType} {fields : List (String × Json)}
    (hn : (("t" :: fields.map Prod.fst)).Nodup) {k : String} {v : Json}
    (h : (k, v) ∈ ("t", .str type.tag) :: fields) : (Shape.tagged type fields).field? k = some v :=
  have hn' : ((("t", Json.str type.tag) :: fields).map Prod.fst).Nodup := hn
  Json.Fields.get?_ofList_of_mem hn' h

theorem HasFields.get? {fs : Json.Fields} {type : NodeType} {fields : List (String × Json)}
    (h : HasFields fs (Shape.tagged type fields)) {k : String} {v : Json} (hm : (k, v) ∈ fields)
    (hk : k ≠ "a") (hn : (("t" :: fields.map Prod.fst)).Nodup) : fs.get? k = some v :=
  (h k hk).trans (field?_tagged hn (List.mem_cons_of_mem _ hm))

theorem mapEach_ok {cs : List (Tree ι)} {f : Json → Except Error α} {g : Tree ι → α}
    (h : ∀ u ∈ cs, f u.shape = .ok (g u)) :
    mapEach (cs.map shape) (fun x _ => f x) = .ok (cs.map g) := by
  induction cs with
  | nil => rfl
  | cons u cs ih =>
    rw [List.map_cons, mapEach, h u (List.mem_cons_self ..),
      ih fun u hu => h u (List.mem_cons_of_mem _ hu)]
    rfl

theorem integer?_integerValue (v : Integer) : integer? (Shape.integerValue v) = some v := by
  cases v with
  | text s => rfl
  | native n =>
    have h : Int64.minValue.toInt ≤ n.toInt ∧ n.toInt ≤ Int64.maxValue.toInt :=
      ⟨n.minValue_le_toInt, n.toInt_le⟩
    simp only [Shape.integerValue, integer?, Integer.ofNumber?, Integer.ofInt, Integer.native?,
      if_pos h, Int64.ofInt_toInt, Option.getD_some]

theorem bytes?_ofBytes (bs : List UInt8) :
    bytes? (.arr (bs.map fun b => .int b.toNat)) = some bs := by
  rw [bytes?, List.mapM_map]
  induction bs with
  | nil => rfl
  | cons b bs ih =>
    have hb : byte? (.int b.toNat) = some b := by
      have := b.toNat_lt
      simp only [byte?]
      rw [if_pos (by omega)]
      simp
    rw [List.mapM_cons, Function.comp_apply, hb, ih]
    rfl

theorem nodeType?_ofContent {fs : Json.Fields} {c : Content Json}
    (h : HasFields fs (Shape.ofContent c)) : (Json.obj fs).nodeType? = some c.kind.type := by
  have ht : (Shape.ofContent c).field? "t" = some (.str c.kind.type.tag) := by
    cases c with
    | symbol s => exact s.field?_toShape.1
    | _ => exact field?_tagged (by simp) (List.mem_cons_self ..)
  rw [← h "t" (by decide)] at ht
  show ((fs.get? "t").bind _).bind _ = _
  rw [ht]
  exact NodeType.ofTag?_eq_some_iff.2 rfl

/-- The content of a node is read off its fields. -/
theorem buildContent_ofContent {fs : Json.Fields} {c : Content (Tree ι)}
    (h : HasFields fs (Shape.ofContent (c.map shape))) (hc : c.Complete) {f : Json → Except Error α}
    {g : Tree ι → α} (hf : ∀ u ∈ c.structural, f u.shape = .ok (g u)) :
    buildContent fs c.kind.type (fun v _ => f v) = .ok (c.map g) := by
  simp only [Content.mem_structural] at hf
  have ht := nodeType?_ofContent h
  cases c with
  | integer v =>
    have hv := h.get? (List.mem_cons_self ..) (by decide) (by simp)
    show liftExcept (buildLeaf fs .integer) = _
    rw [buildLeaf, payload_ok hv (integer?_integerValue v)]
    rfl
  | float x =>
    have hv := h.get? (List.mem_cons_self ..) (by decide) (by simp)
    show liftExcept (buildLeaf fs .float) = _
    rw [buildLeaf, payload_ok (p := x) hv rfl]
    rfl
  | string s =>
    have hv := h.get? (List.mem_cons_self ..) (by decide) (by simp)
    show liftExcept (buildLeaf fs .string) = _
    rw [buildLeaf, payload_ok (p := s) hv rfl]
    rfl
  | byteArray bs =>
    have hv := h.get? (List.mem_cons_self ..) (by decide) (by simp)
    show liftExcept (buildLeaf fs .byteArray) = _
    rw [buildLeaf, payload_ok hv (bytes?_ofBytes bs)]
    rfl
  | symbol s =>
    obtain ⟨-, hn, hd, hu⟩ := s.field?_toShape
    have hk (k : String) (hk : k ≠ "a") : (Json.obj fs).field? k = s.toShape.field? k := h k hk
    rw [← hk _ (by decide)] at hn hd hu
    show liftExcept (buildLeaf fs .symbol) = _
    rw [buildLeaf, ofShape_eq ht hn hd s.nameOk s.cdOk, hu]
    obtain ⟨name, cd, uri, _, _⟩ := s
    cases uri <;> rfl
  | var name =>
    have hv := h.get? (List.mem_cons_self ..) (by decide) (by simp)
    show liftExcept (buildLeaf fs .var) = _
    rw [buildLeaf, payload_ok (p := name) hv rfl]
    rfl
  | application cs =>
    have hv := h.get? (List.mem_cons_self ..) (by decide) (by simp)
    show buildContent fs .application _ = _
    rw [buildContent, buildList_eq _ hv]
    rw [mapEach_ok fun u (hu : u ∈ cs) => hf u (.inl hu)]
    rfl
  | binding hd vs b =>
    obtain ⟨⟨u, rfl⟩, u', rfl⟩ := hc.imp Option.isSome_iff_exists.1 Option.isSome_iff_exists.1
    have hh : fs.get? "s" = some u.shape := h.get? (List.mem_cons_self ..) (by decide) (by simp)
    have hv : fs.get? "v" = some (.arr (vs.map shape)) :=
      h.get? (.tail _ (.head _)) (by decide) (by simp)
    have hb : fs.get? "b" = some u'.shape :=
      h.get? (.tail _ (.tail _ (.head _))) (by decide) (by simp)
    show buildContent fs .binding _ = _
    rw [buildContent, buildField_eq _ hh, buildList_eq _ hv, buildField_eq _ hb,
      hf u (.inr (.inl rfl)), hf u' (.inr (.inr (.inr rfl))),
      mapEach_ok fun u (hu : u ∈ vs) => hf u (.inr (.inr (.inl hu)))]
    rfl
  | error hd cs =>
    obtain ⟨u, rfl⟩ := Option.isSome_iff_exists.1 hc
    have hh : fs.get? "s" = some u.shape := h.get? (List.mem_cons_self ..) (by decide) (by simp)
    have hv : fs.get? "c" = some (.arr (cs.map shape)) :=
      h.get? (.tail _ (.head _)) (by decide) (by simp)
    show buildContent fs .error _ = _
    rw [buildContent, buildErrorChildren, buildField_eq _ hh, if_neg (by simp [hv]),
      buildList_eq _ hv, hf u (.inr (.inl rfl)),
      mapEach_ok fun u (hu : u ∈ cs) => hf u (.inl hu)]
    rfl

end Wire

namespace Tree

open Wire

theorem ofContent_eq (c : Content Json) :
    ∃ fs : Json.Fields, Shape.ofContent c = .obj fs ∧ Json.Fields.get? fs "a" = none := by
  cases c with
  | symbol s =>
    refine ⟨_, rfl, ?_⟩
    cases s.uri <;> simp [Json.Fields.ofList]
  | _ => exact ⟨_, rfl, by simp [Json.Fields.ofList]⟩

/-- The fields of a node are those of its content, and one for its attributes. -/
theorem withAttributes_ofContent (as : Json.Fields) (c : Content Json) :
    ∃ fs, withAttributes as (Shape.ofContent c) = .obj fs ∧ HasFields fs (Shape.ofContent c) ∧
      Json.Fields.get? fs "a" = if as.isEmpty then none else some (.obj as) := by
  obtain ⟨fs, hc, ha⟩ := ofContent_eq c
  rw [hc, withAttributes]
  split_ifs with h
  · exact ⟨fs, rfl, fun k _ => rfl, ha⟩
  · refine ⟨_, rfl, ?_, ?_⟩
    · intro k hk
      rw [Json.Fields.get?_insert, if_neg hk]
      rfl
    · rw [Json.Fields.get?_insert, if_pos rfl]

theorem withAttributes_nil (c : Content Json) :
    withAttributes [] (Shape.ofContent c) = Shape.ofContent c := by
  obtain ⟨fs, hc, -⟩ := ofContent_eq c
  rw [hc]
  rfl

variable {t : Tree ι}

/-- The shape of a tree describes the tree, in order. -/
theorem Shaped.build_toShape (h : t.Shaped) {v : Json} (hv : t.toShape = .ok v) :
    build v = .ok t.arranged := by
  induction h generalizing v with
  | rooted l c as _ _ _ keyed ihp ihv =>
    obtain ⟨hc, hp, ha, rfl⟩ := toShape_rooted_ok hv
    rw [ofList_sortKeys keyed fun u => u.shape]
    obtain ⟨fs, hw, hf, hfa⟩ :=
      withAttributes_ofContent ((sortKeys as).map fun e => (e.1.encode, e.2.shape)) (c.map shape)
    have hcontent := buildContent_ofContent hf hc fun u hu => ihp u hu (hp u hu)
    have hkeyed : Keyed ((sortKeys as).map fun e => (e.1, e.2.arranged)) :=
      (keyed_map arranged).2 (keyed.perm (sortKeys_perm as).symm)
    have hentries : List.Forall₂ (EntryRead build) (entriesOf fs)
        ((sortKeys as).map fun e => (e.1, e.2.arranged)) := by
      rw [entriesOf_eq_of_ite hfa, List.forall₂_map_left_iff, List.forall₂_map_right_iff,
        List.forall₂_same]
      intro e he
      have hm := (sortKeys_perm as).mem_iff.1 he
      exact ⟨readKey_encode e.1, ihv e hm (ha e hm)⟩
    have htype := nodeType?_ofContent hf
    rw [Content.kind_map] at htype
    rw [hw]
    refine build_eq_ok.2 ⟨_, _, _, htype, hcontent, hentries, ?_⟩
    rw [arranged_rooted, merge_of_keyed hkeyed, sortKeys_map]

/-- Putting attributes in order does not change the shape. -/
theorem Shaped.toShape_arranged (h : t.Shaped) {v : Json} (hv : t.toShape = .ok v) :
    t.arranged.toShape = .ok v := by
  induction h generalizing v with
  | rooted l c as _ _ _ keyed ihp ihv =>
    obtain ⟨-, hp, ha, -⟩ := toShape_rooted_ok hv
    have hparts : (c.map arranged).map toShape = c.map toShape := by
      rw [Content.map_map]
      exact Content.map_congr fun u hu => (ihp u hu (hp u hu)).trans (hp u hu).symm
    rw [Tree.rooted, toShape_node, Content.mapContent_allSlots, shapeStep, Except.bind_eq_ok,
      Content.attributes_allSlots] at hv
    obtain ⟨w, hw, hv⟩ := hv
    obtain ⟨es, he, hv⟩ := Except.bind_eq_ok.1 hv
    have hsorted : (sortKeys (as.map fun e => (e.1, e.2.arranged))).map
        (fun e => (e.1, e.2.toShape)) = (sortKeys as).map fun e => (e.1, e.2.toShape) := by
      rw [sortKeys_map, List.map_map]
      refine List.map_congr_left fun e he => ?_
      have hm := (sortKeys_perm as).mem_iff.1 he
      rw [Function.comp_apply, ihv e hm (ha e hm), ha e hm]
    have hes : ((sortKeys as).map fun e => (e.1, e.2.toShape)).mapM attributeField =
        .ok ((sortKeys as).map fun e => (e.1.encode, e.2.shape)) :=
      mapM_attributeField.2 ⟨fun e hm => ha e ((sortKeys_perm as).mem_iff.1 hm), rfl⟩
    rw [arranged_rooted, Tree.rooted, toShape_node, Content.mapContent_allSlots, hparts, hsorted,
      Content.kind_map, shapeStep, structuralShape_allSlots, hw, Content.attributes_allSlots]
    show (List.mapM attributeField _ >>= _) = _
    rw [hes]
    show Except.ok (withAttributes (Json.Fields.ofList _) w) = _
    rw [← hv, (mapM_attributeField.1 he).2, ofList_sortKeys keyed fun u => u.shape,
      ofList_sortKeys (keyed.perm (sortKeys_perm as).symm) fun u => u.shape, sortKeys_sortKeys]
    rfl

/-! ## Copies -/

/-- A copy of a tree is the tree, in order. -/
theorem Shaped.copy_eq (h : t.Shaped) {c : Term} (hc : t.copy = .ok c) : c = t.arranged := by
  obtain ⟨v, hv, hc⟩ := Except.bind_eq_ok.1 hc
  obtain ⟨-, -, hb⟩ := Except.bind_eq_ok.1 hc
  exact Except.ok.inj (hb.symm.trans (h.build_toShape hv))

theorem Shaped.of_copy (h : t.Shaped) {c : Term} (hc : t.copy = .ok c) :
    c.Shaped ∧ c.kind = t.kind ∧ c.freeNames = t.freeNames := by
  rw [h.copy_eq hc]
  exact ⟨h.rearranged rearranges_arranged, rearranges_arranged.kind t,
    h.freeNames_rearranged rearranges_arranged⟩

/-- A copy of a copy is the same copy. -/
theorem Shaped.copy_copy (h : t.Shaped) {c : Term} (hc : t.copy = .ok c) : c.copy = .ok c := by
  obtain ⟨v, hv, hd⟩ := Except.bind_eq_ok.1 hc
  have hs := h.toShape_arranged hv
  rw [← h.copy_eq hc] at hs
  exact Except.bind_eq_ok.2 ⟨v, hs, hd⟩

end Tree

end OpenMath
