/-
  Attributes that are added to shapes.

  The keys in a shape are texts, and the symbols have to be read back from them to find the
  attribute that gives way.  What is left is what a list of attributes is when the entry whose
  key agrees is dropped and the new one is put last, written as a shape.

  * `Tree.annotate`: a tree with one more attribute;
  * `Shape.dropKey_ofList`: the attribute that gives way in the shape;
  * `Shaped.addAttribute_toShape`: the shape of a tree with one more attribute;
  * `valid_addAttribute`: a valid shape stays one;
  * `nodeType?_of_attribution`: keys have to be the shapes of symbols.
-/
import OpenMath.Proofs.Wire.Acceptance

namespace OpenMath

variable {ι α : Type}

/-! ## Trees -/

namespace Tree

/-- A tree with one more attribute, which comes last; one whose key agrees is dropped. -/
def annotate (t : Tree ι) (key : Symbol) (u : Tree ι) : Tree ι :=
  .node t.label t.kind (t.slots.dropAttributes ++
    Content.attributeSlots (t.attributes.filter (fun e => !e.1.sameKey key) ++ [(key, u)]))

theorem annotate_rooted (key : Symbol) (u : Tree ι) (l : ι) (c : Content (Tree ι))
    (as : List (Symbol × Tree ι)) : (rooted l c as).annotate key u =
      rooted l c (as.filter (fun e => !e.1.sameKey key) ++ [(key, u)]) := by
  rw [annotate, slots_rooted, Content.dropAttributes_allSlots, attributes_rooted]
  rfl

/-- With other attributes a node is written with those. -/
theorem toShape_rooted_other {l : ι} {c : Content (Tree ι)} {as bs : List (Symbol × Tree ι)}
    {v : Json} (h : (rooted l c as).toShape = .ok v) (hb : ∀ e ∈ bs, e.2.toShape = .ok e.2.shape) :
    (rooted l c bs).toShape =
      .ok (withAttributes (Json.Fields.ofList (bs.map fun e => (e.1.encode, e.2.shape)))
        (Shape.ofContent (c.map shape))) := by
  rw [rooted, toShape_node, Content.mapContent_allSlots, shapeStep, Except.bind_eq_ok] at h
  obtain ⟨w, hw, -⟩ := h
  obtain ⟨-, -, rfl⟩ := structuralShape_ok hw
  rw [rooted, toShape_node, Content.mapContent_allSlots, shapeStep,
    structuralShape_allSlots _ _ _ (as.map fun e => (e.1, e.2.toShape)), hw,
    Content.attributes_allSlots]
  exact Except.bind_eq_ok.2 ⟨_, rfl, Except.bind_eq_ok.2 ⟨_, mapM_attributeField.2 ⟨hb, rfl⟩, rfl⟩⟩

end Tree

/-! ## Shapes -/

namespace Shape

open Json.Fields Wire

variable {fs fs' : Json.Fields} {key : Symbol} {w : Json}

theorem symbolOfKey?_encode (s : Symbol) : symbolOfKey? s.encode = some s := by
  rw [symbolOfKey?, s.parse?_encode]
  show (Symbol.ofShape s.toShape).toOption = _
  rw [s.ofShape_toShape]
  rfl

/-- The attribute that gives way is found by the symbol that its text writes. -/
theorem dropKey_ofList {as : List (Symbol × α)} (h : Keyed as) (f : α → Json) (key : Symbol) :
    dropKey key (ofList (as.map fun e => (e.1.encode, f e.2))) =
      ofList ((as.filter fun e => !e.1.sameKey key).map fun e => (e.1.encode, f e.2)) := by
  have hn : ((as.map fun e => (e.1.encode, f e.2)).map Prod.fst).Nodup := by
    simpa [Function.comp_def] using encode_nodup h
  rw [dropKey, filter_ofList hn, List.filter_map]
  simp only [Function.comp_def, symbolOfKey?_encode, Option.any_some]

theorem addAttribute_eq {as : Json.Fields} (h : (fs.get? "a").getD (.obj []) = .obj as) :
    addAttribute fs (key.toShape, w) =
      .ok (insert "a" (.obj (insert key.encode w (dropKey key as))) fs) := by
  refine Except.bind_eq_ok.2 ⟨key, key.ofShape_toShape, ?_⟩
  rw [h]
  rfl

end Shape

namespace Tree

open Json.Fields Wire

/-- In the shape of a tree an attribute is added that is added to the tree. -/
theorem Shaped.addAttribute_toShape {t u : Tree ι} {fs : Json.Fields} {w : Json} (ht : t.Shaped)
    (hv : t.toShape = .ok (.obj fs)) (hu : u.toShape = .ok w) (key : Symbol) :
    ∃ gs, Shape.addAttribute fs (key.toShape, w) = .ok gs ∧
      (t.annotate key u).toShape = .ok (.obj gs) := by
  obtain ⟨l, c, as, -, -, -, keyed⟩ := ht
  obtain ⟨-, -, ha, hshape⟩ := toShape_rooted_ok hv
  obtain ⟨gs, hgs, hnone⟩ := ofContent_eq (c.map shape)
  -- the attributes that there are, and the fields besides
  obtain ⟨hold, hrest⟩ : (fs.get? "a").getD (.obj []) =
        .obj (ofList (as.map fun e => (e.1.encode, e.2.shape))) ∧
      ∀ v, insert "a" v fs = insert "a" v gs := by
    rw [hgs, withAttributes] at hshape
    split_ifs at hshape with hempty
    · cases hshape
      rw [hnone, List.isEmpty_iff.1 hempty]
      exact ⟨rfl, fun _ => rfl⟩
    · cases hshape
      rw [get?_insert, if_pos rfl]
      exact ⟨rfl, fun v => insert_insert ..⟩
  refine ⟨_, Shape.addAttribute_eq hold, ?_⟩
  have hvalues : ∀ e ∈ as.filter (fun e => !e.1.sameKey key) ++ [(key, u)],
      e.2.toShape = .ok e.2.shape := by
    intro e he
    rcases List.mem_append.1 he with he | he
    · exact ha e (List.mem_filter.1 he).1
    · cases List.mem_singleton.1 he
      rw [shape_eq hu, hu]
  rw [annotate_rooted, toShape_rooted_other hv hvalues, hgs,
    Shape.dropKey_ofList keyed fun u => u.shape, hrest, List.map_append, List.map_singleton,
    shape_eq hu, withAttributes, if_neg, ofList_concat]
  rw [List.isEmpty_iff, ofList_eq_nil_iff]
  simp

end Tree

namespace Wire

open Json.Fields

variable {fs gs : Json.Fields} {Part : Json → Prop} {key : Symbol} {w : Json}

theorem fieldsOk_congr (h : ∀ k ≠ "a", fs.get? k = gs.get? k) (type : NodeType) :
    FieldsOk Part fs type ↔ FieldsOk Part gs type := by
  cases type <;>
    simp only [FieldsOk, HeadOk, ListOk, IdentifierOk, h "v" (by decide), h "n" (by decide),
      h "cd" (by decide), h "uri" (by decide), h "c" (by decide), h "s" (by decide), h "b" (by decide)]

/-- A valid shape stays valid when a valid one is added under a symbol. -/
theorem valid_addAttribute (hv : Valid (.obj fs)) (hw : Valid w)
    (h : Shape.addAttribute fs (key.toShape, w) = .ok gs) : Valid (.obj gs) := by
  obtain ⟨_, ⟨⟩, ha, type, htype, hk, hf⟩ := valid_iff.1 hv
  obtain ⟨as, has, hvalid⟩ : ∃ as, (fs.get? "a").getD (.obj []) = .obj as ∧ ∀ f ∈ as, ∃ shape,
      Json.parse? f.1 = some shape ∧ shape.nodeType? = some .symbol ∧ Valid shape ∧ Valid f.2 := by
    rcases ha with hnone | ⟨as, has, hvalid⟩
    · exact ⟨[], by rw [hnone]; rfl, nofun⟩
    · exact ⟨as, by rw [has]; rfl, hvalid⟩
  cases h.symm.trans (Shape.addAttribute_eq has)
  have hother (v : Json) (k : String) (hk : k ≠ "a") : fs.get? k = get? (insert "a" v fs) k := by
    rw [get?_insert, if_neg hk]
  refine valid_iff.2 ⟨_, rfl, .inr ⟨_, by rw [get?_insert, if_pos rfl], ?_⟩, type, ?_, ?_,
    (fieldsOk_congr (hother _) type).1 hf⟩
  · intro f hm
    rcases mem_insert hm with rfl | hm
    · exact ⟨_, key.parse?_encode, key.nodeType?_toShape, key.valid_toShape, hw⟩
    · exact hvalid f (List.mem_filter.1 hm).1
  · show ((get? (insert "a" _ fs) "t").bind Json.text?).bind NodeType.ofTag? = _
    rw [← hother _ "t" (by decide)]
    exact htype
  · intro f hm
    rcases mem_insert hm with rfl | hm
    · exact .inr (.inl rfl)
    · exact hk f hm

theorem nodeType?_of_addAttribute {e : Json × Json} (h : Shape.addAttribute fs e = .ok gs) :
    e.1.nodeType? = some .symbol := by
  obtain ⟨s, hs, -⟩ := Except.bind_eq_ok.1 h
  rw [Symbol.ofShape] at hs
  split_ifs at hs with htype
  exact htype

theorem nodeType?_of_attribution {node v : Json} {entries : List (Json × Json)}
    (h : Shape.attribution node entries = .ok v) : ∀ e ∈ entries, e.1.nodeType? = some .symbol := by
  cases node with
  | obj fs =>
    obtain ⟨gs, hgs, -⟩ := Except.bind_eq_ok.1 h
    clear h
    induction entries generalizing fs with
    | nil => exact nofun
    | cons e entries ih =>
      rw [List.foldlM_cons] at hgs
      obtain ⟨fs', he, hgs⟩ := Except.bind_eq_ok.1 hgs
      exact List.forall_mem_cons.2 ⟨nodeType?_of_addAttribute he, ih fs' hgs⟩
  | _ => cases h

end Wire

end OpenMath
