/-
  What trees are written as, whatever is missing in them.

  A tree has no shape if the head or the body of a node is missing, and the error names the
  node's kind and the slot.  An application whose children are all missing is written, but
  no valid shape describes it: what is found in such a shape is just that it has no
  children, and this is the first violation wherever the application stands in the tree.

  * `Content.Lacks`: a slot that is asked for by name is empty;
  * `toShape_rooted_error`: why a node has no shape;
  * `validateShallow_of_toShape`: what is found in the shape of a node, its parts apart;
  * `Shaped.validate_toShape`: the first violation in the shape of a tree.
-/
import OpenMath.Proofs.Tree.Payloads
import OpenMath.Proofs.Wire.Shallow

namespace OpenMath

variable {ι α β : Type}

/-! ## Empty slots -/

/-- The slot of the head or of the body has to be filled, and is empty. -/
def Content.Lacks : Content α → RequiredSlot → Prop
  | .binding h _ _, .head => h = none
  | .binding _ _ b, .body => b = none
  | .error h _, .head => h = none
  | _, _ => False

theorem Content.complete_iff {c : Content α} : c.Complete ↔ ∀ slot, ¬ c.Lacks slot := by
  constructor
  · intro hc slot
    cases c with
    | binding hd vs b =>
      obtain ⟨hh, hb⟩ := hc
      cases slot
      · exact Option.ne_none_iff_isSome.2 hh
      · exact Option.ne_none_iff_isSome.2 hb
    | error hd cs =>
      cases slot
      · exact Option.ne_none_iff_isSome.2 hc
      · exact id
    | _ => exact id
  · intro h
    cases c with
    | binding hd vs b =>
      exact ⟨Option.ne_none_iff_isSome.1 (h .head), Option.ne_none_iff_isSome.1 (h .body)⟩
    | error hd cs => exact Option.ne_none_iff_isSome.1 (h .head)
    | _ => trivial

theorem Content.lacks_map {f : α → β} {c : Content α} {slot : RequiredSlot} :
    (c.map f).Lacks slot ↔ c.Lacks slot := by
  cases c <;> cases slot <;> simp [map, Lacks]

theorem Content.complete_map {f : α → β} {c : Content α} : (c.map f).Complete ↔ c.Complete := by
  simp only [complete_iff, lacks_map]

/-! ## Errors -/

theorem Except.bind_eq_error {x : Except Error α} {f : α → Except Error β} {e : Error} :
    (x >>= f) = .error e ↔ x = .error e ∨ ∃ v, x = .ok v ∧ f v = .error e := by
  cases x with
  | error e' =>
    refine ⟨fun h => .inl (congrArg _ (Except.error.inj h)), ?_⟩
    rintro (h | ⟨_, hv, -⟩)
    · cases h
      rfl
    · cases hv
  | ok v =>
    refine ⟨fun h => .inr ⟨v, rfl, h⟩, ?_⟩
    rintro (h | ⟨_, hv, h⟩)
    · cases h
    · cases hv
      exact h

theorem exists_of_mapM_error {f : α → Except Error β} {xs : List α} {e : Error}
    (h : xs.mapM f = .error e) : ∃ x ∈ xs, f x = .error e := by
  induction xs with
  | nil => cases h
  | cons x xs ih =>
    rw [List.mapM_cons, Except.bind_eq_error] at h
    rcases h with h | ⟨y, -, h⟩
    · exact ⟨x, List.mem_cons_self .., h⟩
    · rcases Except.bind_eq_error.1 h with h | ⟨ys, -, h⟩
      · obtain ⟨z, hz, he⟩ := ih h
        exact ⟨z, List.mem_cons_of_mem x hz, he⟩
      · cases h

namespace Tree

open Wire Check

variable {l : ι} {c : Content (Tree ι)} {as : List (Symbol × Tree ι)} {e : Error} {v : Json}

theorem exists_of_parts_error {ts : List (Tree ι)} (h : (ts.map toShape).mapM id = .error e) :
    ∃ t ∈ ts, t.toShape = .error e := by
  rw [List.mapM_map] at h
  exact exists_of_mapM_error h

theorem requiredShape_eq_error {type : NodeType} {slot : RequiredSlot} {t : Option (Tree ι)}
    (h : requiredShape type slot (t.map toShape) = .error e) :
    (t = none ∧ e = .refused (.emptySlot type slot)) ∨ ∃ u, t = some u ∧ u.toShape = .error e := by
  cases t with
  | none => exact .inl ⟨rfl, (Except.error.inj h).symm⟩
  | some u => exact .inr ⟨u, rfl, h⟩

/-- The content of a node has no shape because of a slot that is empty, or because a part
    has none. -/
theorem structuralShape_error {bs : List (Symbol × Except Error Json)}
    (hf : ∀ x, c.kind = .float x → x.isFinite = true)
    (h : structuralShape c.kind ((c.map toShape).allSlots bs) = .error e) :
    (∃ slot, c.Lacks slot ∧ e = .refused (.emptySlot c.kind.type slot)) ∨
      ∃ u ∈ c.structural, u.toShape = .error e := by
  cases c with
  | float x =>
    simp only [structuralShape, Content.kind, if_pos (hf x rfl)] at h
    cases h
  | application cs =>
    simp only [structuralShape, Content.kind, Content.children_allSlots, Content.children_map,
      Except.bind_eq_error] at h
    rcases h with h | ⟨_, -, h⟩
    · obtain ⟨u, hu, he⟩ := exists_of_parts_error h
      exact .inr ⟨u, Content.mem_structural_of_child hu, he⟩
    · cases h
  | binding hd vs b =>
    simp only [structuralShape, Content.kind, Content.head?_allSlots, Content.bound_allSlots,
      Content.body?_allSlots, Content.head?_map, Content.bound_map, Content.body?_map,
      Except.bind_eq_error] at h
    rcases h with h | ⟨_, -, h | ⟨_, -, h | ⟨_, -, h⟩⟩⟩
    · rcases requiredShape_eq_error h with ⟨hd, he⟩ | ⟨u, hu, he⟩
      · exact .inl ⟨.head, hd, he⟩
      · exact .inr ⟨u, Content.mem_structural_of_head hu, he⟩
    · obtain ⟨u, hu, he⟩ := exists_of_parts_error h
      exact .inr ⟨u, Content.mem_structural_of_bound hu, he⟩
    · rcases requiredShape_eq_error h with ⟨hb, he⟩ | ⟨u, hu, he⟩
      · exact .inl ⟨.body, hb, he⟩
      · exact .inr ⟨u, Content.mem_structural_of_body hu, he⟩
    · cases h
  | error hd cs =>
    simp only [structuralShape, Content.kind, Content.head?_allSlots, Content.children_allSlots,
      Content.head?_map, Content.children_map, Except.bind_eq_error] at h
    rcases h with h | ⟨_, -, h | ⟨_, -, h⟩⟩
    · rcases requiredShape_eq_error h with ⟨hd, he⟩ | ⟨u, hu, he⟩
      · exact .inl ⟨.head, hd, he⟩
      · exact .inr ⟨u, Content.mem_structural_of_head hu, he⟩
    · obtain ⟨u, hu, he⟩ := exists_of_parts_error h
      exact .inr ⟨u, Content.mem_structural_of_child hu, he⟩
    · cases h
  | _ => cases h

/-- A node has no shape because of a slot of its own that is empty, or because a part or
    the value of an attribute has none. -/
theorem toShape_rooted_error (hf : ∀ x, c.kind = .float x → x.isFinite = true)
    (h : (rooted l c as).toShape = .error e) :
    (∃ slot, c.Lacks slot ∧ e = .refused (.emptySlot c.kind.type slot)) ∨
      (∃ u ∈ c.structural, u.toShape = .error e) ∨ ∃ d ∈ as, d.2.toShape = .error e := by
  rw [rooted, toShape_node, Content.mapContent_allSlots, shapeStep, Except.bind_eq_error] at h
  rcases h with h | ⟨w, -, h⟩
  · exact (structuralShape_error hf h).imp_right .inl
  · rw [Content.attributes_allSlots, Except.bind_eq_error] at h
    rcases h with h | ⟨_, -, h⟩
    · rw [List.mapM_map] at h
      obtain ⟨d, hd, h⟩ := exists_of_mapM_error h
      rw [Function.comp_apply, attributeField, Except.bind_eq_error] at h
      rcases h with h | ⟨_, -, h⟩
      · exact .inr (.inr ⟨d, hd, h⟩)
      · cases h
    · cases h

/-! ## What is found in the shape of a tree -/

theorem Shaped.nodeType?_shape {t : Tree ι} (ht : t.Shaped) (hv : t.toShape = .ok t.shape) :
    t.shape.nodeType? = some t.kind.type := by
  obtain ⟨l, c, as, -, -, -, -⟩ := ht
  obtain ⟨-, -, -, hshape⟩ := toShape_rooted_ok hv
  rw [hshape]
  obtain ⟨fs, hw, hf, -⟩ := withAttributes_ofContent
    (Json.Fields.ofList (as.map fun e => (e.1.encode, e.2.shape))) (c.map shape)
  rw [hw, nodeType?_ofContent hf, Content.kind_map]
  rfl

/-- The content of a node that has a shape keeps the rules, its parts apart, unless it has
    lost its children. -/
theorem acceptable_of_toShape (hk : c.kind.Acceptable) (hc : c.Complete) (hne : c ≠ .application [])
    (fits : ∀ s ∈ c.slots, s.role.admits s.content.kind = true)
    (hp : ∀ u ∈ c.structural, u.Shaped ∧ u.toShape = .ok u.shape) :
    (c.map shape).Acceptable fun _ => True where
  payload := by rwa [Content.kind_map]
  complete := Content.complete_map.2 hc
  nonempty h := by
    cases c with
    | application cs => simpa [Content.map, Content.children] using hne
    | _ => cases h
  head v hv := by
    rw [Content.head?_map, Option.map_eq_some_iff] at hv
    obtain ⟨u, hu, rfl⟩ := hv
    obtain ⟨hs, hshape⟩ := hp u (Content.mem_structural_of_head hu)
    rw [hs.nodeType?_shape hshape, (fits_iff.1 fits).1 u hu]
  bound v hv := by
    rw [Content.bound_map] at hv
    obtain ⟨u, hu, rfl⟩ := List.mem_map.1 hv
    obtain ⟨hs, hshape⟩ := hp u (Content.mem_structural_of_bound hu)
    rw [hs.nodeType?_shape hshape, (fits_iff.1 fits).2 u hu]
  parts _ _ := trivial

theorem checkFields_of_no_children {fs : Json.Fields} {part : SubCheck (Json.obj fs).weight}
    (h : HasFields fs (Shape.ofContent (.application []))) :
    checkFields fs .application part = .error (.invalid .noChildren) := by
  have hc : fs.get? "c" = some (.arr []) := h.get? (List.mem_cons_self ..) (by decide) (by simp)
  show checkApplication fs part = _
  unfold checkApplication
  split
  · next xs hxs =>
    cases hc.symm.trans hxs
    rfl
  · next hxs => exact absurd hc (hxs [])

/-- What is checked of a node that has a shape, its parts apart. -/
theorem validateShallow_of_toShape {fs es : Json.Fields} (hk : c.kind.Acceptable) (hc : c.Complete)
    (fits : ∀ s ∈ c.slots, s.role.admits s.content.kind = true)
    (hp : ∀ u ∈ c.structural, u.Shaped ∧ u.toShape = .ok u.shape)
    (he : ∀ d ∈ es, ∃ s : Symbol, d.1 = s.encode)
    (hw : withAttributes es (Shape.ofContent (c.map shape)) = .obj fs) :
    validateShallow (.obj fs) = .ok () ∨ validateShallow (.obj fs) = .error (.invalid .noChildren) := by
  obtain ⟨gs, hg, hf, -⟩ := withAttributes_ofContent es (c.map shape)
  cases hw.symm.trans hg
  rw [validateShallow_withAttributes hw he]
  by_cases hne : c = .application []
  · subst hne
    exact .inr (checkFields_of_no_children hf)
  · have hok := fieldsOk_ofContent hf (acceptable_of_toShape hk hc hne fits hp)
    refine .inl (passes_checkFields.2 ?_)
    simpa only [passes_pass] using hok

/-- The shape of a tree breaks no rule, or the first that it breaks is that an application
    has children. -/
theorem Shaped.validate_toShape {t : Tree ι} (ht : t.Shaped) (ha : t.All Kind.Acceptable)
    (hv : t.toShape = .ok v) :
    validate v = .ok () ∨ validate v = .error (.invalid .noChildren) := by
  induction ht generalizing v with
  | rooted l c as parts _ fits _ ihp ihv =>
    obtain ⟨hk, hap, hav⟩ := all_rooted.1 ha
    obtain ⟨hc, hp, hd, rfl⟩ := toShape_rooted_ok hv
    obtain ⟨fs, hw, -⟩ := withAttributes_ofContent
      (Json.Fields.ofList (as.map fun e => (e.1.encode, e.2.shape))) (c.map shape)
    have hfields : ∀ d ∈ Json.Fields.ofList (as.map fun e => (e.1.encode, e.2.shape)),
        ∃ e ∈ as, d = (e.1.encode, e.2.shape) := fun d hm => by
      obtain ⟨e, he, rfl⟩ := List.mem_map.1 (Json.Fields.mem_ofList hm)
      exact ⟨e, he, rfl⟩
    rw [hw]
    rcases validate_eq_or fs with h | ⟨w, e, hpart, he, h⟩
    · rw [h]
      refine validateShallow_of_toShape hk hc fits (fun u hu => ⟨parts u hu, hp u hu⟩) ?_ hw
      intro d hm
      obtain ⟨e, -, rfl⟩ := hfields d hm
      exact ⟨e.1, rfl⟩
    · -- the error is that of a part or of a value, of which it is known which ones there are
      have hw' : validate w = .ok () ∨ validate w = .error (.invalid .noChildren) := by
        rcases (hasPart_withAttributes hw (Content.complete_map.2 hc)).1 hpart with ⟨d, hm, rfl⟩ | hm
        · obtain ⟨e, hem, rfl⟩ := hfields d hm
          exact ihv e hem (hav e hem) (hd e hem)
        · rw [Content.structural_map] at hm
          obtain ⟨u, hu, rfl⟩ := List.mem_map.1 hm
          exact ihp u hu (hap u hu) (hp u hu)
      rw [h, ← he]
      exact hw'

end Tree

end OpenMath
