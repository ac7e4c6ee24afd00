/-
  What is written is accepted.

  The shape of a node keeps the rules if its payload does, if no part is missing,
  and if its parts and its attributes keep them.

  * `Kind.Acceptable`, `Content.Acceptable`: the rules for a payload, and for a
    node over parts;
  * `valid_withAttributes`, `valid_ofContent_iff`: the shape of such a node is accepted, and
    of a node without attributes that of no other one;
  * `passes_shallow_application`, `passes_shallow_binding`: what is checked of a
    node whose parts are known to be valid.
-/
import OpenMath.Proofs.Wire.Copying
import OpenMath.Wire.Shape

namespace OpenMath

/-- A payload that the shape of a node may have. -/
def Kind.Acceptable : Kind → Prop
  | .integer (.text s) => Identifier.isIntegerText s = true
  | .float x => x.isFinite = true
  | .var name => Identifier.isIdentifier name = true
  | _ => True

/-- A node that keeps the rules, over parts with a given property. -/
structure Content.Acceptable (Part : Json → Prop) (c : Content Json) : Prop where
  payload : c.kind.Acceptable
  complete : c.Complete
  nonempty : c.kind = .application → c.children ≠ []
  head : ∀ v, c.head? = some v → v.nodeType? = some .symbol
  bound : ∀ v ∈ c.bound, v.nodeType? = some .var
  parts : ∀ v ∈ c.structural, Part v

namespace Content

variable {Part : Json → Prop} {c : Content Json}

theorem acceptable_of_isLeaf (hl : Wire.IsLeaf c.kind.type) (h : c.kind.Acceptable) :
    c.Acceptable Part := by
  obtain ⟨ha, hb, he⟩ := hl
  cases c with
  | application => exact absurd rfl ha
  | binding => exact absurd rfl hb
  | error => exact absurd rfl he
  | _ => exact ⟨h, trivial, nofun, nofun, nofun, nofun⟩

theorem acceptable_application {cs : List Json} (hne : cs ≠ []) (hp : ∀ v ∈ cs, Part v) :
    (application cs).Acceptable Part where
  payload := trivial
  complete := trivial
  nonempty _ := hne
  head _ h := by cases h
  bound _ h := by cases h
  parts := forall_structural_application.2 hp

theorem acceptable_binding {head body : Json} {bound : List Json} (hs : head.nodeType? = some .symbol)
    (hv : ∀ v ∈ bound, v.nodeType? = some .var) (hh : Part head) (hp : ∀ v ∈ bound, Part v)
    (hb : Part body) : (binding (some head) bound (some body)).Acceptable Part where
  payload := trivial
  complete := ⟨rfl, rfl⟩
  nonempty h := by cases h
  head v h := by cases h; exact hs
  bound := hv
  parts := forall_structural_binding.2 ⟨hh, hp, hb⟩

theorem acceptable_error {head : Json} {cs : List Json} (hs : head.nodeType? = some .symbol)
    (hh : Part head) (hp : ∀ v ∈ cs, Part v) : (error (some head) cs).Acceptable Part where
  payload := trivial
  complete := rfl
  nonempty h := by cases h
  head v h := by cases h; exact hs
  bound _ h := by cases h
  parts := forall_structural_error.2 ⟨hh, hp⟩

end Content

namespace Wire

open Check

variable {fs : Json.Fields} {c : Content Json} {Part : Json → Prop}

/-- The fields of an acceptable node keep the rules. -/
theorem fieldsOk_ofContent (h : HasFields fs (Shape.ofContent c)) (hc : c.Acceptable Part) :
    FieldsOk Part fs c.kind.type := by
  obtain ⟨payload, complete, nonempty, head, bound, parts⟩ := hc
  simp only [Content.mem_structural] at parts
  cases c with
  | integer v =>
    have hv := h.get? (List.mem_cons_self ..) (by decide) (by simp)
    cases v with
    | native n =>
      have := integer?_integerValue (.native n)
      show isInteger (fs.get? "v") = true
      rw [hv]
      exact Option.isSome_iff_exists.2 ⟨_, this⟩
    | text s =>
      show isInteger (fs.get? "v") = true
      rw [hv]
      exact payload
  | float x =>
    have hv := h.get? (List.mem_cons_self ..) (by decide) (by simp)
    exact ⟨_, x, hv, rfl, Double.not_isNaN_of_isFinite payload, payload⟩
  | string s => exact ⟨s, h.get? (List.mem_cons_self ..) (by decide) (by simp)⟩
  | byteArray bs =>
    exact ⟨_, bs, h.get? (List.mem_cons_self ..) (by decide) (by simp), bytes?_ofBytes bs⟩
  | symbol s =>
    obtain ⟨-, hn, hd, hu⟩ := s.field?_toShape
    have hk (k : String) (hk : k ≠ "a") : fs.get? k = s.toShape.field? k := h k hk
    rw [← hk _ (by decide)] at hn hd hu
    refine ⟨⟨_, hn, s.nameOk⟩, ⟨_, hd, s.cdOk⟩, ?_⟩
    rw [hu]
    cases s.uri with
    | none => exact .inl rfl
    | some uri => exact .inr (.inr ⟨uri, rfl⟩)
  | var name => exact ⟨name, h.get? (List.mem_cons_self ..) (by decide) (by simp), payload⟩
  | application cs =>
    exact ⟨cs, h.get? (List.mem_cons_self ..) (by decide) (by simp), nonempty rfl,
      fun v hv => parts v (.inl hv)⟩
  | binding hd vs b =>
    obtain ⟨⟨v, rfl⟩, w, rfl⟩ := complete.imp Option.isSome_iff_exists.1 Option.isSome_iff_exists.1
    refine ⟨⟨v, h.get? (List.mem_cons_self ..) (by decide) (by simp), parts v (.inr (.inl rfl)),
      head v rfl⟩, ⟨vs, h.get? (.tail _ (.head _)) (by decide) (by simp), fun x hx =>
      ⟨parts x (.inr (.inr (.inl hx))), bound x hx⟩⟩,
      w, h.get? (.tail _ (.tail _ (.head _))) (by decide) (by simp), parts w (.inr (.inr (.inr rfl)))⟩
  | error hd cs =>
    obtain ⟨v, rfl⟩ := Option.isSome_iff_exists.1 complete
    exact ⟨⟨v, h.get? (List.mem_cons_self ..) (by decide) (by simp), parts v (.inr (.inl rfl)),
      head v rfl⟩, .inr ⟨cs, h.get? (.tail _ (.head _)) (by decide) (by simp),
      fun x hx => parts x (.inl hx)⟩⟩

/-- A node of which no part is missing is acceptable if its fields keep the rules. -/
theorem acceptable_of_fieldsOk (h : HasFields fs (Shape.ofContent c)) (hc : c.Complete)
    (hf : FieldsOk Part fs c.kind.type) : c.Acceptable Part := by
  cases c with
  | integer v =>
    refine Content.acceptable_of_isLeaf ⟨nofun, nofun, nofun⟩ ?_
    have hv := h.get? (List.mem_cons_self ..) (by decide) (by simp)
    have hi : isInteger (fs.get? "v") = true := hf
    rw [hv] at hi
    cases v with
    | native n => trivial
    | text s => exact hi
  | float x =>
    refine Content.acceptable_of_isLeaf ⟨nofun, nofun, nofun⟩ ?_
    have hv := h.get? (List.mem_cons_self ..) (by decide) (by simp)
    obtain ⟨w, y, hw, hy, -, hfin⟩ := hf
    cases hv.symm.trans hw
    cases hy
    exact hfin
  | var name =>
    refine Content.acceptable_of_isLeaf ⟨nofun, nofun, nofun⟩ ?_
    have hv := h.get? (List.mem_cons_self ..) (by decide) (by simp)
    obtain ⟨s, hs, hid⟩ := hf
    cases hv.symm.trans hs
    exact hid
  | application cs =>
    have hv := h.get? (List.mem_cons_self ..) (by decide) (by simp)
    obtain ⟨xs, hx, hne, hp⟩ := hf
    cases hv.symm.trans hx
    exact Content.acceptable_application hne hp
  | binding hd vs b =>
    obtain ⟨⟨v, rfl⟩, w, rfl⟩ := hc.imp Option.isSome_iff_exists.1 Option.isSome_iff_exists.1
    have hv := h.get? (List.mem_cons_self ..) (by decide) (by simp)
    have hvs := h.get? (.tail _ (.head _)) (by decide) (by simp)
    have hw := h.get? (.tail _ (.tail _ (.head _))) (by decide) (by simp)
    obtain ⟨⟨v', hv', hpv, htype⟩, ⟨xs, hxs, hx⟩, w', hw', hpw⟩ := hf
    cases hv.symm.trans hv'
    cases hvs.symm.trans hxs
    cases hw.symm.trans hw'
    exact Content.acceptable_binding htype (fun x hm => (hx x hm).2) hpv
      (fun x hm => (hx x hm).1) hpw
  | error hd cs =>
    obtain ⟨v, rfl⟩ := Option.isSome_iff_exists.1 hc
    have hv := h.get? (List.mem_cons_self ..) (by decide) (by simp)
    have hcs := h.get? (.tail _ (.head _)) (by decide) (by simp)
    obtain ⟨⟨v', hv', hpv, htype⟩, hlist⟩ := hf
    cases hv.symm.trans hv'
    rcases hlist with hnone | ⟨xs, hxs, hx⟩
    · cases hcs.symm.trans hnone
    · cases hcs.symm.trans hxs
      exact Content.acceptable_error htype hpv hx
  | _ => exact Content.acceptable_of_isLeaf ⟨nofun, nofun, nofun⟩ trivial

/-- The fields of a node are the tag and those of its kind. -/
theorem name_mem_of_ofContent {f : String × Json} (hc : Shape.ofContent c = .obj fs) (hf : f ∈ fs) :
    f.1 = "t" ∨ f.1 ∈ fieldNames c.kind.type := by
  cases c with
  | symbol s =>
    cases hc
    have hm := List.mem_map_of_mem (f := Prod.fst) (Json.Fields.mem_ofList hf)
    cases hu : s.uri <;> rw [hu] at hm <;>
      simp [fieldNames, Content.kind, Kind.type] at hm ⊢ <;> tauto
  | _ =>
    cases hc
    simpa [fieldNames, Content.kind, Kind.type] using
      List.mem_map_of_mem (f := Prod.fst) (Json.Fields.mem_ofList hf)

theorem name_mem_of_withAttributes {as : Json.Fields}
    (hw : Tree.withAttributes as (Shape.ofContent c) = .obj fs) {f : String × Json} (hm : f ∈ fs) :
    f.1 = "t" ∨ f.1 = "a" ∨ f.1 ∈ fieldNames c.kind.type := by
  obtain ⟨gs, hg, -⟩ := Tree.ofContent_eq c
  rw [hg, Tree.withAttributes] at hw
  split at hw <;> cases hw
  · exact (name_mem_of_ofContent hg hm).imp_right .inr
  · rcases Json.Fields.mem_insert hm with rfl | hm
    · exact .inr (.inl rfl)
    · exact (name_mem_of_ofContent hg hm).imp_right .inr

/-- The shape of an acceptable node is accepted, with attributes that are. -/
theorem valid_withAttributes (hc : c.Acceptable Valid) {as : Json.Fields}
    (ha : ∀ f ∈ as, ∃ shape, Json.parse? f.1 = some shape ∧ shape.nodeType? = some .symbol ∧
      Valid shape ∧ Valid f.2) : Valid (Tree.withAttributes as (Shape.ofContent c)) := by
  obtain ⟨fs, hw, hf, hfa⟩ := Tree.withAttributes_ofContent as c
  have hkeys : ∀ f ∈ fs, f.1 = "t" ∨ f.1 = "a" ∨ f.1 ∈ fieldNames c.kind.type :=
    fun f => name_mem_of_withAttributes hw
  rw [hw]
  refine valid_iff.2 ⟨fs, rfl, ?_, c.kind.type, nodeType?_ofContent hf, hkeys,
    fieldsOk_ofContent hf hc⟩
  rw [AttributesOk, hfa]
  split
  · exact .inl rfl
  · exact .inr ⟨as, rfl, ha⟩

theorem valid_ofContent (hc : c.Acceptable Valid) : Valid (Shape.ofContent c) :=
  Tree.withAttributes_nil c ▸ valid_withAttributes hc nofun

/-- The shape of a node without attributes, of which no part is missing, is accepted only if
    the node is acceptable. -/
theorem valid_ofContent_iff (hc : c.Complete) :
    Valid (Shape.ofContent c) ↔ c.Acceptable Valid := by
  refine ⟨fun h => ?_, valid_ofContent⟩
  obtain ⟨fs, hshape, -, type, htype, -, hf⟩ := valid_iff.1 h
  have hfields : HasFields fs (Shape.ofContent c) := fun k _ => by rw [hshape]; rfl
  cases (hshape ▸ htype).symm.trans (nodeType?_ofContent hfields)
  exact acceptable_of_fieldsOk hfields hc hf

theorem valid_of_isLeaf (hl : IsLeaf c.kind.type) (h : c.kind.Acceptable) :
    Valid (Shape.ofContent c) :=
  valid_ofContent (Content.acceptable_of_isLeaf hl h)

end Wire

theorem Symbol.valid_toShape (s : Symbol) : Wire.Valid s.toShape :=
  Wire.valid_of_isLeaf (c := .symbol s) ⟨nofun, nofun, nofun⟩ trivial

namespace Wire

open Check

variable {fs : Json.Fields} {c : Content Json}

/-! ## Nodes over parts that are known to be valid -/

/-- Of a node whose attribute keys are the texts of symbols only the fields are checked, if
    its parts are known to be valid. -/
theorem validateShallow_withAttributes {as : Json.Fields}
    (hw : Tree.withAttributes as (Shape.ofContent c) = .obj fs)
    (ha : ∀ f ∈ as, ∃ s : Symbol, f.1 = s.encode) :
    validateShallow (.obj fs) = checkFields fs c.kind.type (within fs fun _ => Check.pass) := by
  obtain ⟨gs, hg, hf, hfa⟩ := Tree.withAttributes_ofContent as c
  cases hw.symm.trans hg
  have hattributes :
      Passes (checkAttributes fs (within fs validate) (within fs fun _ => Check.pass)) := by
    refine passes_checkAttributes.2 ?_
    rw [hfa]
    split
    · exact .inl rfl
    · refine .inr ⟨as, rfl, fun f hm => ?_⟩
      obtain ⟨s, hs⟩ := ha f hm
      exact ⟨s.toShape, hs ▸ s.parse?_encode, s.nodeType?_toShape, s.valid_toShape, passes_pass⟩
  have hkeys : Passes (checkKeys fs c.kind.type) :=
    passes_checkKeys.2 fun f => name_mem_of_withAttributes hw
  rw [validateShallow, checkNode, hattributes, nodeType?_ofContent hf]
  show (checkKeys fs c.kind.type >>= _) = _
  rw [hkeys]
  rfl

theorem passes_shallow_iff (hg : Shape.ofContent c = .obj fs) :
    Passes (validateShallow (.obj fs)) ↔ FieldsOk (fun _ => True) fs c.kind.type := by
  have hw : Tree.withAttributes [] (Shape.ofContent c) = .obj fs := by
    rw [Tree.withAttributes_nil, hg]
  rw [validateShallow_withAttributes hw nofun, passes_checkFields]
  simp only [passes_pass]

/-- An application must not be empty. -/
theorem passes_shallow_application {cs : List Json} :
    Passes (validateShallow (Shape.ofApplication cs)) ↔ cs ≠ [] := by
  have hf : HasFields _ (Shape.ofContent (.application cs)) := fun k _ => rfl
  have hc := hf.get? (List.mem_cons_self ..) (by decide) (by simp)
  refine (passes_shallow_iff (c := .application cs) rfl).trans ?_
  show (∃ xs, _) ↔ _
  rw [hc]
  simp

/-- A binding has a symbol as its head, and binds variables. -/
theorem passes_shallow_binding (head : Json) (bound : List Json) (body : Json) :
    Passes (validateShallow (Shape.ofBinding head bound body)) ↔
      head.nodeType? = some .symbol ∧ ∀ v ∈ bound, v.nodeType? = some .var := by
  have hf : HasFields _ (Shape.ofContent (.binding (some head) bound (some body))) := fun k _ => rfl
  have hs := hf.get? (List.mem_cons_self ..) (by decide) (by simp)
  have hv := hf.get? (.tail _ (.head _)) (by decide) (by simp)
  have hb := hf.get? (.tail _ (.tail _ (.head _))) (by decide) (by simp)
  refine (passes_shallow_iff (c := .binding (some head) bound (some body)) rfl).trans ?_
  show HeadOk _ _ ∧ ListOk _ _ _ ∧ (∃ v, _) ↔ _
  rw [HeadOk, ListOk, hs, hv, hb]
  simp

end Wire

end OpenMath
