/-
  What the checks of a single node find.

  The first violation in a shape is one of the shape's own rules, or it is the first
  violation in a part.  So over parts that are valid the check of the whole shape comes out
  as the check of the node alone, with the same violation if there is one.

  * `Deepens`: a check that is another one, but for the errors of parts;
  * `HasPart`: the shapes right inside a shape, attribute keys apart;
  * `checkNode_congr`: what the check of a node depends on;
  * `validate_eq_or`: a shape is checked like its top node, or fails like a part;
  * `joinApplication_eq`, `joinBinding_eq`: what is made of valid parts.
-/
import OpenMath.Proofs.Wire.Acceptance
import OpenMath.Proofs.Wire.Keeping

namespace OpenMath.Wire

open Check

/-! ## Checks that descend -/

/-- A check that is another one, or fails with an error that may come from a part. -/
def Deepens (E : Error → Prop) (c c' : Check) : Prop :=
  c = c' ∨ ∃ e, E e ∧ c = .error e

section
variable {E : Error → Prop} {c c' : Check}

theorem Deepens.refl : Deepens E c c := .inl rfl

theorem deepens_pass (h : ∀ e, c = .error e → E e) : Deepens E c pass := by
  cases c with
  | ok u => exact .inl rfl
  | error e => exact .inr ⟨e, h e rfl, rfl⟩

theorem Deepens.bind (h : Deepens E c c') {f f' : Unit → Check}
    (hf : Deepens E (f ()) (f' ())) : Deepens E (c >>= f) (c' >>= f') := by
  rcases h with rfl | ⟨e, he, rfl⟩
  · cases c with
    | ok u => exact hf
    | error e => exact .refl
  · exact .inr ⟨e, he, rfl⟩

theorem deepens_checkEach {α : Type} {xs : List α} {f f' : (x : α) → x ∈ xs → Check}
    (h : ∀ x hx, Deepens E (f x hx) (f' x hx)) : Deepens E (checkEach xs f) (checkEach xs f') := by
  induction xs with
  | nil => exact .refl
  | cons x xs ih => exact (h x _).bind (ih fun y hy => h y _)

/-! ## Nodes -/

variable {fs : Json.Fields} {key key' part part' : Json → Check}

theorem deepens_checkAttributes
    (hk : ∀ d ∈ entriesOf fs, ∀ v, Json.parse? d.1 = some v → Deepens E (key v) (key' v))
    (hp : ∀ d ∈ entriesOf fs, Deepens E (part d.2) (part' d.2)) :
    Deepens E (checkAttributes fs (within fs key) (within fs part))
      (checkAttributes fs (within fs key') (within fs part')) := by
  unfold checkAttributes
  split
  · exact .refl
  · next as ha =>
    rw [entriesOf_eq ha] at hk hp
    refine deepens_checkEach fun d hd => ?_
    split
    · exact .refl
    · next v hv => exact Deepens.refl.bind ((hk d hd v hv).bind (hp d hd))
  · exact .refl

theorem mem_itemsOf {field : String} {xs : List Json} {x : Json}
    (h : fs.get? field = some (.arr xs)) (hx : x ∈ xs) : x ∈ itemsOf fs field := by
  rwa [itemsOf, h]

theorem deepens_checkHead {owner : HeadOwner}
    (h : ∀ x ∈ (fs.get? "s").toList, Deepens E (part x) (part' x)) :
    Deepens E (checkHead fs owner (within fs part)) (checkHead fs owner (within fs part')) := by
  unfold checkHead
  split
  · exact .refl
  · next head hs => exact (h head (by simp [hs])).bind .refl

theorem deepens_checkBound (h : ∀ x ∈ itemsOf fs "v", Deepens E (part x) (part' x)) :
    Deepens E (checkBound fs (within fs part)) (checkBound fs (within fs part')) := by
  unfold checkBound
  split
  · next xs hv => exact deepens_checkEach fun x hx => (h x (mem_itemsOf hv hx)).bind .refl
  · exact .refl

theorem deepens_checkBody (h : ∀ x ∈ (fs.get? "b").toList, Deepens E (part x) (part' x)) :
    Deepens E (checkBody fs (within fs part)) (checkBody fs (within fs part')) := by
  unfold checkBody
  split
  · exact .refl
  · next body hb => exact h body (by simp [hb])

theorem deepens_checkApplication (h : ∀ x ∈ itemsOf fs "c", Deepens E (part x) (part' x)) :
    Deepens E (checkApplication fs (within fs part)) (checkApplication fs (within fs part')) := by
  unfold checkApplication
  split
  · next xs hc =>
    exact Deepens.refl.bind (deepens_checkEach fun x hx => h x (mem_itemsOf hc hx))
  · exact .refl

theorem deepens_checkErrorChildren (h : ∀ x ∈ itemsOf fs "c", Deepens E (part x) (part' x)) :
    Deepens E (checkErrorChildren fs (within fs part))
      (checkErrorChildren fs (within fs part')) := by
  unfold checkErrorChildren
  split
  · exact .refl
  · next xs hc => exact deepens_checkEach fun x hx => h x (mem_itemsOf hc hx)
  · exact .refl

theorem deepens_checkFields {type : NodeType}
    (h : ∀ x ∈ partsOf fs type, Deepens E (part x) (part' x)) :
    Deepens E (checkFields fs type (within fs part)) (checkFields fs type (within fs part')) := by
  cases type with
  | application => exact deepens_checkApplication h
  | binding =>
    simp only [partsOf, List.mem_append] at h
    exact (deepens_checkHead fun x hx => h x (.inl (.inl hx))).bind
      ((deepens_checkBound fun x hx => h x (.inl (.inr hx))).bind
        (deepens_checkBody fun x hx => h x (.inr hx)))
  | error =>
    simp only [partsOf, List.mem_append] at h
    exact (deepens_checkHead fun x hx => h x (.inr hx)).bind
      (deepens_checkErrorChildren fun x hx => h x (.inl hx))
  | _ => exact .refl

/-- The shapes right inside a shape: the values of its attributes, and its parts. -/
def HasPart (fs : Json.Fields) (v : Json) : Prop :=
  (∃ d ∈ entriesOf fs, d.2 = v) ∨ ∃ type, (Json.obj fs).nodeType? = some type ∧ v ∈ partsOf fs type

/-- The check of a node looks at nothing but the shapes that attribute keys write and the
    shapes right inside. -/
theorem deepens_checkNode
    (hk : ∀ d ∈ entriesOf fs, ∀ v, Json.parse? d.1 = some v → Deepens E (key v) (key' v))
    (hp : ∀ v, HasPart fs v → Deepens E (part v) (part' v)) :
    Deepens E (checkNode fs (within fs key) (within fs part))
      (checkNode fs (within fs key') (within fs part')) := by
  refine (deepens_checkAttributes hk fun d hd => hp d.2 (.inl ⟨d, hd, rfl⟩)).bind ?_
  split
  · exact .refl
  · next type ht =>
    exact Deepens.refl.bind (deepens_checkFields fun v hv => hp v (.inr ⟨type, ht, hv⟩))

end

/-- Checks of a node agree that agree on the shapes that they look at. -/
theorem checkNode_congr {fs : Json.Fields} {key key' part part' : Json → Check}
    (hk : ∀ d ∈ entriesOf fs, ∀ v, Json.parse? d.1 = some v → key v = key' v)
    (hp : ∀ v, HasPart fs v → part v = part' v) :
    checkNode fs (within fs key) (within fs part) =
      checkNode fs (within fs key') (within fs part') := by
  have h := deepens_checkNode (E := fun _ => False) (fun d hd v hv => .inl (hk d hd v hv))
    fun v hv => .inl (hp v hv)
  exact h.resolve_right fun ⟨_, he, _⟩ => he

/-! ## Shapes -/

/-- The check of a shape comes out as that of its top node, or with the error of a part. -/
theorem validate_eq_or (fs : Json.Fields) :
    validate (.obj fs) = validateShallow (.obj fs) ∨
      ∃ v e, HasPart fs v ∧ validate v = .error e ∧ validate (.obj fs) = .error e := by
  have h : Deepens (fun e => ∃ v, HasPart fs v ∧ validate v = .error e)
      (validate (.obj fs)) (validateShallow (.obj fs)) := by
    rw [validate, validateShallow]
    exact deepens_checkNode (fun _ _ _ _ => .refl) fun v hv => deepens_pass fun e he => ⟨v, hv, he⟩
  rcases h with h | ⟨e, ⟨v, hv, he⟩, h⟩
  · exact .inl h
  · exact .inr ⟨v, e, hv, he, h⟩

/-- Over valid parts a shape breaks the rules that its top node breaks, and the first one is
    the same. -/
theorem validate_eq_shallow {fs : Json.Fields} (h : ∀ v, HasPart fs v → Valid v) :
    validate (.obj fs) = validateShallow (.obj fs) := by
  rcases validate_eq_or fs with heq | ⟨v, e, hv, he, -⟩
  · exact heq
  · cases he.symm.trans (h v hv)

/-! ## Nodes over parts -/

/-- The parts that are read off the fields of a node are those of its content. -/
theorem mem_partsOf_ofContent {fs : Json.Fields} {c : Content Json}
    (h : HasFields fs (Shape.ofContent c)) (hc : c.Complete) {v : Json} :
    v ∈ partsOf fs c.kind.type ↔ v ∈ c.structural := by
  rw [Content.mem_structural]
  cases c with
  | application cs =>
    have hv := h.get? (List.mem_cons_self ..) (by decide) (by simp)
    simp [partsOf, itemsOf, hv, Content.kind, Kind.type, Content.children, Content.head?,
      Content.bound, Content.body?]
  | binding hd vs b =>
    obtain ⟨⟨u, rfl⟩, w, rfl⟩ := hc.imp Option.isSome_iff_exists.1 Option.isSome_iff_exists.1
    have hs := h.get? (List.mem_cons_self ..) (by decide) (by simp)
    have hv := h.get? (.tail _ (.head _)) (by decide) (by simp)
    have hb := h.get? (.tail _ (.tail _ (.head _))) (by decide) (by simp)
    simp [partsOf, itemsOf, hs, hv, hb, Content.kind, Kind.type, Content.children, Content.head?,
      Content.bound, Content.body?, eq_comm]
  | error hd cs =>
    obtain ⟨u, rfl⟩ := Option.isSome_iff_exists.1 hc
    have hs := h.get? (List.mem_cons_self ..) (by decide) (by simp)
    have hv := h.get? (.tail _ (.head _)) (by decide) (by simp)
    simp [partsOf, itemsOf, hs, hv, Content.kind, Kind.type, Content.children, Content.head?,
      Content.bound, Content.body?, eq_comm]
  | _ =>
    simp [partsOf, Content.kind, Kind.type, Content.children, Content.head?, Content.bound,
      Content.body?]

/-- The shapes right inside the shape of a node are those of its parts, and the values of
    its attributes. -/
theorem hasPart_withAttributes {fs as : Json.Fields} {c : Content Json}
    (hw : Tree.withAttributes as (Shape.ofContent c) = .obj fs) (hc : c.Complete) {v : Json} :
    HasPart fs v ↔ (∃ d ∈ as, d.2 = v) ∨ v ∈ c.structural := by
  obtain ⟨gs, hg, hf, ha⟩ := Tree.withAttributes_ofContent as c
  cases hw.symm.trans hg
  simp only [HasPart, entriesOf_eq_of_ite ha, nodeType?_ofContent hf, Option.some.injEq,
    exists_eq_left', mem_partsOf_ofContent hf hc]

theorem validate_ofContent_eq_shallow {c : Content Json} (hc : c.Complete)
    (h : ∀ v ∈ c.structural, Valid v) :
    validate (Shape.ofContent c) = validateShallow (Shape.ofContent c) := by
  obtain ⟨fs, hf, -⟩ := Tree.ofContent_eq c
  have hw : Tree.withAttributes [] (Shape.ofContent c) = .obj fs := by
    rw [Tree.withAttributes_nil, hf]
  rw [hf]
  refine validate_eq_shallow fun v hv => ?_
  rcases (hasPart_withAttributes hw hc).1 hv with ⟨d, hd, -⟩ | hv
  · cases hd
  · exact h v hv

/-- Joining valid parts to an application comes out as making the application and checking
    all of it. -/
theorem joinApplication_eq {cs : List Json} (h : ∀ v ∈ cs, Valid v) :
    Shape.joinApplication cs = Shape.application cs := by
  have hv : validate (Shape.ofApplication cs) = validateShallow (Shape.ofApplication cs) :=
    validate_ofContent_eq_shallow (c := .application cs) trivial
      (Content.forall_structural_application.2 h)
  rw [Shape.joinApplication, Shape.application, validated, hv]

theorem joinBinding_eq {head body : Json} {bound : List Json} (hh : Valid head)
    (hv : ∀ v ∈ bound, Valid v) (hb : Valid body) :
    Shape.joinBinding head bound body = Shape.binding head bound body := by
  have hv : validate (Shape.ofBinding head bound body) =
      validateShallow (Shape.ofBinding head bound body) :=
    validate_ofContent_eq_shallow (c := .binding (some head) bound (some body)) ⟨rfl, rfl⟩
      (Content.forall_structural_binding.2 ⟨hh, hv, hb⟩)
  rw [Shape.joinBinding, Shape.binding, validated, hv]

end OpenMath.Wire
