/-
  What is read off a shape, and written again.

  Reading a shape loses how it was written, so what is written afterwards is its normal form,
  as long as no attribute takes the place of another.

  * `hasFields_normal`: the fields of the normal form of a shape are those of the content
    that is read off the shape;
  * `normal_eq`: a normal shape is written like a node;
  * `valid_normal`: the normal form of a valid shape is valid;
  * `KeysApart`, `shape_build`: the shape of what is read off a shape.
-/
import OpenMath.Proofs.Wire.Normal

namespace OpenMath.Wire

variable {fs es : Json.Fields} {type : NodeType} {k : String} {u v w : Json}

/-! ## The contents of normal shapes -/

theorem field?_ofBinding (head : Json) (bound : List Json) (body : Json) :
    (Shape.ofBinding head bound body).field? "s" = some head ∧
      (Shape.ofBinding head bound body).field? "v" = some (.arr bound) ∧
      (Shape.ofBinding head bound body).field? "b" = some body :=
  ⟨field?_tagged (by simp) (.tail _ (.head _)),
    field?_tagged (by simp) (.tail _ (.tail _ (.head _))),
    field?_tagged (by simp) (.tail _ (.tail _ (.tail _ (.head _))))⟩

theorem field?_ofError (head : Json) (children : List Json) :
    (Shape.ofError head children).field? "s" = some head ∧
      (Shape.ofError head children).field? "c" = some (.arr children) :=
  ⟨field?_tagged (by simp) (.tail _ (.head _)),
    field?_tagged (by simp) (.tail _ (.tail _ (.head _)))⟩

/-- The fields of an object are those of a content if those of its kind are, and there are no
    others. -/
theorem hasFields_of_fieldNames {c : Content Json}
    (ht : fs.get? "t" = some (.str c.kind.type.tag))
    (hk : ∀ k ∈ fieldNames c.kind.type, fs.get? k = (Shape.ofContent c).field? k)
    (hno : ∀ k, k ≠ "t" → k ≠ "a" → k ∉ fieldNames c.kind.type → fs.get? k = none) :
    HasFields fs (Shape.ofContent c) := by
  obtain ⟨gs, hgs, -⟩ := Tree.ofContent_eq c
  intro k ha
  by_cases hkt : k = "t"
  · have htag : (Shape.ofContent c).field? "t" = some (.str c.kind.type.tag) := by
      cases c with
      | symbol s => exact s.field?_toShape.1
      | _ => exact field?_tagged (by simp) (List.mem_cons_self ..)
    rw [hkt, ht, htag]
  · by_cases hn : k ∈ fieldNames c.kind.type
    · exact hk k hn
    · rw [hno k hkt ha hn, hgs]
      refine (Json.Fields.get?_eq_none_iff.2 fun f hf he => ?_).symm
      rcases name_mem_of_ofContent hgs hf with h | h
      · exact hkt (he.symm.trans h)
      · exact hn (he ▸ h)

variable {α : Type} {f : Json → Except Error α} {g : α → Json}

theorem map_normal_of_forall₂ {xs : List Json} {ys : List α}
    (h : List.Forall₂ (fun x y => f x = .ok y) xs ys)
    (hg : ∀ x ∈ xs, ∀ y, f x = .ok y → g y = normal x) : ys.map g = xs.map normal := by
  induction h with
  | nil => rfl
  | cons hy _ ih =>
    obtain ⟨hx, hxs⟩ := List.forall_mem_cons.1 hg
    rw [List.map_cons, List.map_cons, hx _ hy, ih hxs]

theorem bytes?_eq_some {bs : List UInt8} (h : bytes? v = some bs) :
    v = .arr (bs.map fun b => .int b.toNat) := by
  cases v with
  | arr xs =>
    refine congrArg Json.arr ?_
    rw [bytes?] at h
    induction xs generalizing bs with
    | nil =>
      cases h
      rfl
    | cons x xs ih =>
      simp only [List.mapM_cons, Option.bind_eq_bind, Option.bind_eq_some_iff, Option.pure_def,
        Option.some.injEq] at h
      obtain ⟨b, hb, cs, hcs, rfl⟩ := h
      rw [List.map_cons, ← ih hcs]
      congr 1
      unfold byte? at hb
      split at hb
      · next n =>
        split_ifs at hb with hn
        cases hb
        have hlt : n.toNat < 256 := by omega
        simp only [UInt8.toNat_ofNat', Nat.mod_eq_of_lt hlt, Json.number.injEq,
          Json.Number.integer.injEq]
        omega
      · cases hb
  | _ => cases h

section
variable (ht : (Json.obj fs).nodeType? = some type)
include ht

theorem get?_normal (hv : fs.get? k = some v) (hu : k ≠ "uri") (ha : k ≠ "a") :
    (normalObject fs).get? k = some (normalPayload (some type) k (normal v)) := by
  rw [get?_normalObject_of_some hv hu ha, ht]

theorem get?_normal_part (hv : fs.get? k = some v) (hk : k ∈ ["s", "b", "c", "n", "cd", "t"]) :
    (normalObject fs).get? k = some (normal v) := by
  simp only [List.mem_cons, List.not_mem_nil, or_false] at hk
  have hne : k ≠ "uri" ∧ k ≠ "a" ∧ k ≠ "v" := by
    rcases hk with rfl | rfl | rfl | rfl | rfl | rfl <;> decide
  rw [get?_normal ht hv hne.1 hne.2.1, normalPayload_of_ne hne.2.2]

theorem get?_normal_value (hv : fs.get? "v" = some v)
    (hp : normalPayload (some type) "v" (normal v) = w) : (normalObject fs).get? "v" = some w := by
  rw [get?_normal ht hv (by decide) (by decide), hp]

variable (hn : ∀ f ∈ fs, f.1 = "t" ∨ f.1 = "a" ∨ f.1 ∈ fieldNames type)
include hn

/-- Only the fields of its kind are to be looked at. -/
theorem hasFields_normal_of {c : Content Json} (hk : c.kind.type = type)
    (h : ∀ k ∈ fieldNames type, (normalObject fs).get? k = (Shape.ofContent c).field? k) :
    HasFields (normalObject fs) (Shape.ofContent c) := by
  subst hk
  refine hasFields_of_fieldNames ?_ h ?_
  · rw [get?_normal_part ht (get?_tag ht) (by decide), normal_str]
  · intro k hkt ha hno
    have hnone : fs.get? k = none := Json.Fields.get?_eq_none_iff.2 fun f hf he => by
      rcases hn f hf with h | h | h
      · exact hkt (he.symm.trans h)
      · exact ha (he.symm.trans h)
      · exact hno (he ▸ h)
    have hc : ¬ (k = "c" ∧ (Json.obj fs).nodeType? = some .error ∧ fs.get? "c" = none) := by
      rintro ⟨rfl, he, -⟩
      rw [ht, Option.some.injEq] at he
      exact hno (by rw [he]; decide)
    rw [get?_normalObject, if_neg hc, hnone]
    rfl

theorem hasFields_normal_one {c : Content Json} (hk : c.kind.type = type) {k : String} {v : Json}
    (hnames : fieldNames type = [k]) (hc : Shape.ofContent c = Shape.tagged type [(k, v)])
    (hkt : "t" ≠ k) (hv : (normalObject fs).get? k = some v) :
    HasFields (normalObject fs) (Shape.ofContent c) := by
  refine hasFields_normal_of ht hn hk ?_
  rw [hnames, List.forall_mem_singleton, hv, hc]
  exact (field?_tagged (by simpa using hkt) (.tail _ (.head _))).symm

variable (hf : FieldsOk Valid fs type)
include hf

/-- A content without parts. -/
theorem hasFields_normal_leaf {c : Content α} (hc : buildLeaf fs type = .ok c) (g : α → Json) :
    HasFields (normalObject fs) (Shape.ofContent (c.map g)) := by
  cases type with
  | integer =>
    obtain ⟨v, n, hv, hi⟩ := integer?_ok hf
    rw [buildLeaf, payload_ok hv hi] at hc
    cases hc
    exact hasFields_normal_one ht hn rfl rfl rfl (by decide)
      (get?_normal_value ht hv (normalPayload_integer hi))
  | float =>
    obtain ⟨v, x, hv, hx, -⟩ := hf
    rw [buildLeaf, payload_ok hv hx] at hc
    cases hc
    exact hasFields_normal_one ht hn rfl rfl rfl (by decide)
      (get?_normal_value ht hv (normalPayload_float hx))
  | string =>
    obtain ⟨s, hv⟩ := hf
    rw [buildLeaf, payload_ok (p := s) hv rfl] at hc
    cases hc
    exact hasFields_normal_one ht hn rfl rfl rfl (by decide)
      (get?_normal_value ht hv (normal_str s))
  | byteArray =>
    obtain ⟨v, bs, hv, hb⟩ := hf
    rw [buildLeaf, payload_ok hv hb] at hc
    cases hc
    have hself : normal v = .arr (bs.map fun b => .int b.toNat) := by
      rw [bytes?_eq_some hb, normal_arr, List.map_map]
      exact congrArg Json.arr (List.map_congr_left fun b _ => normal_number _)
    exact hasFields_normal_one ht hn rfl rfl rfl (by decide) (get?_normal_value ht hv hself)
  | symbol =>
    obtain ⟨⟨name, hname, hname'⟩, ⟨cd, hcd, hcd'⟩, huri⟩ := hf
    rw [buildLeaf, ofShape_eq ht hname hcd hname' hcd'] at hc
    cases hc
    obtain ⟨-, hn', hd', hu'⟩ := Symbol.field?_toShape
      { name, cd, uri := (fs.get? "uri").bind Json.text?, nameOk := hname', cdOk := hcd' }
    refine hasFields_normal_of ht hn rfl ?_
    simp only [fieldNames, List.forall_mem_cons]
    refine ⟨?_, ?_, ?_, List.forall_mem_nil _⟩
    · rw [get?_normal_part ht hname (by decide), normal_str]
      exact hn'.symm
    · rw [get?_normal_part ht hcd (by decide), normal_str]
      exact hd'.symm
    · refine Eq.trans ?_ hu'.symm
      rw [get?_normalObject, if_neg fun h => absurd h.1 (by decide)]
      rcases huri with h | h | ⟨s, h⟩ <;> rw [h]
      · rfl
      · simp [normalField, normalPayload, isVoid, Json.text?, Option.filter]
      · simp [normalField, normalPayload, isVoid, Json.text?, Option.filter]
  | var =>
    obtain ⟨name, hv, -⟩ := hf
    rw [buildLeaf, payload_ok (p := name) hv rfl] at hc
    cases hc
    refine hasFields_normal_one ht hn rfl rfl rfl (by decide) ?_
    rw [get?_normal_part ht hv (by decide), normal_str]
  | _ => cases hc

variable (hg : ∀ u y, Valid u → u.weight < (Json.obj fs).weight → (Json.obj fs).Holds u →
  f u = .ok y → g y = normal u)
include hg

/-- The fields of the normal form of a valid shape are those of the content that is read off
    the shape, if what is read off its parts stands for their normal forms. -/
theorem hasFields_normal {c : Content α} (hc : buildContent fs type (fun v _ => f v) = .ok c) :
    HasFields (normalObject fs) (Shape.ofContent (c.map g)) := by
  have part {k : String} {v : Json} (hv : fs.get? k = some v) (hok : Valid v) {y : α}
      (hy : buildField fs k (fun v _ => f v) = .ok y) : g y = normal v := by
    rw [buildField_eq _ hv] at hy
    exact hg v y hok (weight_lt_of_get? hv) (Json.holds_of_get? hv) hy
  have parts {k : String} {xs : List Json} (hx : fs.get? k = some (.arr xs))
      (hok : ∀ x ∈ xs, Valid x) {ys : List α}
      (hy : buildList fs k (fun v _ => f v) = .ok ys) : normal (.arr xs) = .arr (ys.map g) := by
    rw [buildList_eq _ hx, mapEach_eq_ok] at hy
    rw [normal_arr, map_normal_of_forall₂ hy fun x hm y h =>
      hg x y (hok x hm) (weight_lt_of_mem_get? hx hm) (.item (Json.holds_of_get? hx) hm) h]
  cases type with
  | application =>
    obtain ⟨xs, hx, -, hok⟩ := hf
    obtain ⟨ys, hy, hc⟩ := Except.bind_eq_ok.1 hc
    cases hc
    refine hasFields_normal_one ht hn rfl rfl rfl (by decide) ?_
    rw [get?_normal_part ht hx (by decide), parts hx hok hy]
  | binding =>
    obtain ⟨⟨hd, hs, hdok, -⟩, ⟨xs, hx, hxs⟩, b, hb, hbok⟩ := hf
    obtain ⟨y, hy, hc⟩ := Except.bind_eq_ok.1 hc
    obtain ⟨ys, hys, hc⟩ := Except.bind_eq_ok.1 hc
    obtain ⟨z, hz, hc⟩ := Except.bind_eq_ok.1 hc
    cases hc
    obtain ⟨hhead, hbound, hbody⟩ := field?_ofBinding (g y) (ys.map g) (g z)
    refine hasFields_normal_of ht hn rfl ?_
    simp only [fieldNames, List.forall_mem_cons]
    refine ⟨?_, ?_, ?_, List.forall_mem_nil _⟩
    · rw [get?_normal_part ht hs (by decide), ← part hs hdok hy]
      exact hhead.symm
    · rw [get?_normal_value ht hx (parts hx (fun x hm => (hxs x hm).1) hys)]
      exact hbound.symm
    · rw [get?_normal_part ht hb (by decide), ← part hb hbok hz]
      exact hbody.symm
  | error =>
    obtain ⟨⟨hd, hs, hdok, -⟩, hcs⟩ := hf
    obtain ⟨y, hy, hc⟩ := Except.bind_eq_ok.1 hc
    obtain ⟨ys, hys, hc⟩ := Except.bind_eq_ok.1 hc
    cases hc
    obtain ⟨hhead, hchildren⟩ := field?_ofError (g y) (ys.map g)
    refine hasFields_normal_of ht hn rfl ?_
    simp only [fieldNames, List.forall_mem_cons]
    refine ⟨?_, ?_, List.forall_mem_nil _⟩
    · rw [get?_normal_part ht hs (by decide), ← part hs hdok hy]
      exact hhead.symm
    · refine Eq.trans ?_ hchildren.symm
      unfold buildErrorChildren at hys
      rcases hcs with hnone | ⟨xs, hx, hxs⟩
      · rw [hnone] at hys
        cases hys
        rw [get?_normalObject, if_pos ⟨rfl, ht, hnone⟩]
        rfl
      · rw [hx, if_neg (by simp)] at hys
        rw [get?_normal_part ht hx (by decide), parts hx hxs hys]
  | _ => exact hasFields_normal_leaf ht hn hf ((liftExcept_except _).symm.trans hc) g

end

/-! ## Normal shapes are valid -/

/-- The attributes of a normal shape. -/
def attributesOf (fs : Json.Fields) : Json.Fields :=
  Json.Fields.ofList ((entriesOf fs).map fun e => (normalKey e.1, normal e.2))

theorem get?_attributesOf {Part : Json → Prop} (h : AttributesOk Part fs) :
    (normalObject fs).get? "a" =
      if (attributesOf fs).isEmpty then none else some (.obj (attributesOf fs)) := by
  rw [get?_normalObject, if_neg fun h => absurd h.1 (by decide)]
  rcases h with h | ⟨es, h, -⟩
  · rw [attributesOf, entriesOf, h]
    rfl
  · rw [h, Option.map_some, normalField, if_pos rfl, normalAttributes_obj, Json.ofFields,
      ← entriesOf_eq h, ← attributesOf]
    cases attributesOf fs with
    | nil => rfl
    | cons d as => rfl

theorem ascending_withAttributes {as gs : Json.Fields} {c : Content Json}
    (h : Tree.withAttributes as (Shape.ofContent c) = .obj gs) : Json.Fields.Ascending gs := by
  obtain ⟨hs, hc, -⟩ := Tree.ofContent_eq c
  have hasc : Json.Fields.Ascending hs := by
    cases c <;>
      · cases hc
        exact Json.Fields.ascending_ofList _
  rw [hc, Tree.withAttributes] at h
  split_ifs at h
  · cases h
    exact hasc
  · cases h
    exact Json.Fields.ascending_insert hasc ..

/-- The normal form of a shape is written like a node, by its content and its attributes. -/
theorem normal_eq {Part : Json → Prop} (ha : AttributesOk Part fs) {c : Content Json}
    (hc : HasFields (normalObject fs) (Shape.ofContent c)) :
    normal (.obj fs) = Tree.withAttributes (attributesOf fs) (Shape.ofContent c) := by
  obtain ⟨gs, hw, hgs, hga⟩ := Tree.withAttributes_ofContent (attributesOf fs) c
  rw [normal_obj, hw]
  refine congrArg Json.obj ?_
  refine (ascending_normalObject fs).ext_get? (ascending_withAttributes hw) fun k => ?_
  by_cases hk : k = "a"
  · rw [hk, get?_attributesOf ha, hga]
  · rw [hc k hk, hgs k hk]

/-- The normal form of a valid shape is valid. -/
theorem valid_normal (h : Valid v) : Valid (normal v) := by
  -- on the weight, as the values of attributes lie two levels down
  induction hw : v.weight using Nat.strongRecOn generalizing v with
  | _ w ih =>
    subst hw
    obtain ⟨fs, rfl, ha, type, ht, hn, hf⟩ := valid_iff.1 h
    let f (v : Json) : Except Error Json := .ok (normal v)
    have hin (v : Json) (hw : v.weight < (Json.obj fs).weight) (hv : Valid v) (t : Json)
        (ht : f v = .ok t) : Valid t := Except.ok.inj ht ▸ ih _ hw hv rfl
    obtain ⟨c, hc⟩ := exists_buildContent (f := f) ht hf fun v => ⟨_, rfl⟩
    have hfields := hasFields_normal (g := fun v => v) ht hn hf
      (fun u y _ _ _ hy => (Except.ok.inj hy).symm) hc
    rw [Content.map_self] at hfields
    obtain ⟨hk, hcomplete, hne, hp⟩ := forall_buildContent hin hf hc
    obtain ⟨hhead, hbound⟩ := nodeType?_buildContent hf
      (fun v y hy => Except.ok.inj hy ▸ nodeType?_normal v) hc
    rw [normal_eq ha hfields]
    refine valid_withAttributes ⟨hk, hcomplete, hne, hhead, hbound, hp⟩ fun d hd => ?_
    obtain ⟨e, he, rfl⟩ := List.mem_map.1 (Json.Fields.mem_ofList hd)
    obtain ⟨shape, hparse, hsymbol, hvalid, hvalue⟩ := ha.entry he
    obtain ⟨s, hs⟩ := readKey_ok hparse hsymbol hvalid
    dsimp only
    rw [normalKey_of_readKey hs]
    exact ⟨_, s.parse?_encode, s.nodeType?_toShape, s.valid_toShape,
      ih _ (weight_lt_of_entry he) hvalue rfl⟩

/-! ## What is written after reading -/

theorem toShape_build (h : Valid v) {t : Term} (ht : build v = .ok t) :
    t.toShape = .ok t.shape := by
  refine build_induction (P := fun t => t.toShape = .ok t.shape) ?_ h ht
  intro c as hk hc _ hp ha
  have hshape := Tree.toShape_rooted_of_complete (l := ()) hc (fun x hx => by rwa [hx] at hk) hp ha
  rw [hshape, Tree.shape_eq hshape]

/-- No two keys of an attribute map in a shape agree. -/
def KeysApart (v : Json) : Prop :=
  ∀ fs, v.Holds (.obj fs) → (entriesOf fs).Pairwise fun d e =>
    ∀ s t, readKey d.1 = .ok s → readKey e.1 = .ok t → ¬ (s.name = t.name ∧ s.cd = t.cd)

theorem KeysApart.holds (h : KeysApart v) (hu : v.Holds u) : KeysApart u :=
  fun fs hf => h fs (hu.trans hf)

theorem keyed_of_forall₂ {f : Json → Except Error α} {ps : List (Symbol × α)}
    (hps : List.Forall₂ (EntryRead f) es ps)
    (h : es.Pairwise fun d e => ∀ s t, readKey d.1 = .ok s → readKey e.1 = .ok t →
      ¬ (s.name = t.name ∧ s.cd = t.cd)) : Keyed ps := by
  induction hps with
  | nil => exact .nil
  | cons hp hps ih =>
    obtain ⟨hd, hes⟩ := List.pairwise_cons.1 h
    refine List.pairwise_cons.2 ⟨fun q hq => ?_, ih hes⟩
    obtain ⟨e, he, heq⟩ := exists_of_forall₂ hps.flip hq
    exact Bool.eq_false_iff.2 (mt Symbol.sameKey_iff.1 (hd e he _ _ hp.1 heq.1))

theorem map_entries_of_forall₂ {ps : List (Symbol × Term)}
    (hps : List.Forall₂ (EntryRead build) es ps)
    (h : ∀ e ∈ es, ∀ t, build e.2 = .ok t → t.shape = normal e.2) :
    ps.map (fun p => (p.1.encode, p.2.shape)) = es.map fun e => (normalKey e.1, normal e.2) := by
  induction hps with
  | nil => rfl
  | cons hp _ ih =>
    obtain ⟨he, hes⟩ := List.forall_mem_cons.1 h
    rw [List.map_cons, List.map_cons, ih hes, he _ hp.2, normalKey_of_readKey hp.1]

/-- If no two keys agree, then the term of a valid shape is written as the normal form of the
    shape. -/
theorem shape_build (h : Valid v) (hk : KeysApart v) {t : Term} (ht : build v = .ok t) :
    t.shape = normal v := by
  -- on the weight, as the values of attributes lie two levels down
  induction hw : v.weight using Nat.strongRecOn generalizing v t with
  | _ w ih =>
    subst hw
    have hshape := toShape_build h ht
    obtain ⟨fs, rfl, ha, type, htype, hn, hf⟩ := valid_iff.1 h
    obtain ⟨type', c, ps, htype', hc, hps, rfl⟩ := build_eq_ok.1 ht
    cases htype.symm.trans htype'
    obtain ⟨-, -, -, hw⟩ := Tree.toShape_rooted_ok hshape
    have hfields := hasFields_normal htype hn hf
      (fun u y hu hlt hh hy => ih _ hlt hu (hk.holds hh) hy rfl) hc
    have hentries : ∀ e ∈ entriesOf fs, ∀ t, build e.2 = .ok t → t.shape = normal e.2 := by
      intro e he t ht
      obtain ⟨-, -, -, -, hv⟩ := ha.entry he
      obtain ⟨es, hes, hm⟩ := mem_entriesOf he
      exact ih _ (weight_lt_of_entry he) hv (hk.holds (.field (Json.holds_of_get? hes) hm)) ht rfl
    rw [hw, normal_eq ha hfields, attributesOf, merge_of_keyed (keyed_of_forall₂ hps (hk fs .refl)),
      map_entries_of_forall₂ hps hentries]

end OpenMath.Wire
