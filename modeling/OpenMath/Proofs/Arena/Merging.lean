/-
  Decoding merges attributes.

  Of the entries of an attribute map whose keys agree, one is left after decoding.  It has
  the key of the first of them, in the order in which they are read, and the value of the
  last one; the nodes that were made of the other values are freed.

  * `MadeOf`: a node is what a shape describes;
  * `Merges`: the attributes of a node are those of a shape, merged;
  * `MadeOf.parts`, `MadeOf.merges`: the parts and the attributes of such a node;
  * `Wf.exists_node_of_kept`, `Wf.exists_kept_of_under`: the nodes inside it are those that
    are made of the shapes that are kept;
  * `Reachable.decodeShape_merges`: what decoding adds to an arena.
-/
import OpenMath.Proofs.Arena.Commands
import OpenMath.Proofs.Wire.Keeping

namespace OpenMath.Arena

open Wire (Kept classOf partsOf agreeing readKey)

variable {a b : Arena} {x y : NodeId} {n : Node} {u v : Json} {fs : Json.Fields}

/-- The tree at a node is the one that a shape describes. -/
def MadeOf (b : Arena) (y : NodeId) (u : Json) : Prop :=
  ∃ t, b.tree? y = some t ∧ Wire.build u = .ok t.toTerm

/-- Of the entries whose keys agree, a node has one attribute: under the key of the first
    entry, the node that is made of the value of the last one. -/
structure Merges (b : Arena) (n : Node) (fs : Json.Fields) : Prop where
  one : ∀ s d e, (classOf s fs).head? = some d → (classOf s fs).getLast? = some e →
    ∃ k z, agreeing s n.attributes = [(k, z)] ∧ readKey d.1 = .ok k ∧ b.MadeOf z e.2
  none : ∀ s, classOf s fs = [] → agreeing s n.attributes = []

/-! ## One node -/

theorem MadeOf.roots (h : b.MadeOf y (.obj fs)) : ∃ n c as type ps, b.node? y = some n ∧
    b.Roots n c as ∧ (Json.obj fs).nodeType? = some type ∧
    Wire.buildContent fs type (fun v _ => Wire.build v) = .ok (c.map Tree.toTerm) ∧
    List.Forall₂ (Wire.EntryRead Wire.build) (Wire.entriesOf fs) ps ∧
    (as.map fun e => (e.1, e.2.toTerm)) = Wire.merge ps := by
  obtain ⟨t, ht, hb⟩ := h
  obtain ⟨n, c, as, hn, hr, rfl⟩ := exists_roots ht
  obtain ⟨type, c', ps, htype, hc, hps, hterm⟩ := Wire.build_eq_ok.1 hb
  rw [Tree.toTerm_rooted] at hterm
  obtain ⟨rfl, has⟩ := Tree.rooted_injective hterm
  exact ⟨n, c, as, type, ps, hn, hr, htype, hc, hps, has⟩

/-- The parts of a node that is made of a shape are made of the parts of the shape. -/
theorem MadeOf.parts (h : b.MadeOf y (.obj fs)) : ∃ n type, b.node? y = some n ∧
    (Json.obj fs).nodeType? = some type ∧
    List.Forall₂ (fun u z => b.MadeOf z u) (partsOf fs type) n.content.structural := by
  obtain ⟨n, c, as, type, ps, hn, hr, htype, hc, -⟩ := h.roots
  have hparts := Wire.forall₂_partsOf hc
  refine ⟨n, type, hn, htype, ?_⟩
  rw [Content.structural_map, List.forall₂_map_right_iff] at hparts
  rw [hr.content, Content.structural_map, List.forall₂_map_right_iff]
  have hpart := hr.part
  generalize partsOf fs type = us, c.structural = ts at hparts hpart
  induction hparts with
  | nil => exact .nil
  | cons hu _ ih =>
    obtain ⟨ht, hts⟩ := List.forall_mem_cons.1 hpart
    exact .cons ⟨_, ht, hu⟩ (ih hts)

/-- The attributes of a node that is made of a shape are those of the shape, merged. -/
theorem MadeOf.merges (h : b.MadeOf y (.obj fs)) (hn : b.node? y = some n) : b.Merges n fs := by
  obtain ⟨m, c, as, type, ps, hm, hr, -, -, hps, has⟩ := h.roots
  cases hn.symm.trans hm
  have hagreeing (s : Symbol) : agreeing s (Wire.merge ps) =
      (agreeing s as).map fun e => (e.1, e.2.toTerm) := by
    rw [← has, agreeing, agreeing, List.filter_map]
    rfl
  have hattributes (s : Symbol) : agreeing s n.attributes =
      (agreeing s as).map fun e => (e.1, e.2.label) := by
    rw [hr.attributes, agreeing, agreeing, List.filter_map]
    rfl
  constructor
  · intro s d e hd he
    obtain ⟨k, t, hk, hkey, ht⟩ := Wire.agreeing_eq_of_class hps hd he
    rw [hagreeing, List.map_eq_singleton_iff] at hk
    obtain ⟨p, hp, heq⟩ := hk
    obtain ⟨rfl, rfl⟩ := Prod.mk.inj heq
    refine ⟨p.1, p.2.label, ?_, hkey, p.2, hr.value p (Wire.mem_of_agreeing_eq hp), ht⟩
    rw [hattributes, hp, List.map_singleton]
  · intro s hs
    have hnil := Wire.agreeing_eq_nil_of_class hps hs
    rw [hagreeing, List.map_eq_nil_iff] at hnil
    rw [hattributes, hnil, List.map_nil]

/-! ## All nodes -/

/-- Of every shape that is kept there is a node inside the node of the shape. -/
theorem Wf.exists_node_of_kept (w : b.Wf) (h : b.MadeOf x v) (hk : Kept v u) :
    ∃ y, b.Under x y ∧ b.MadeOf y u := by
  induction hk with
  | refl => exact ⟨x, .refl, h⟩
  | part _ ht hu ih =>
    obtain ⟨y, hy, hm⟩ := ih
    obtain ⟨n, type, hn, htype, hparts⟩ := hm.parts
    cases htype.symm.trans ht
    obtain ⟨z, hz, hmz⟩ := Wire.exists_of_forall₂ hparts hu
    exact ⟨z, hy.trans (.of_parent (w.parent?_of_mem hn (List.mem_append_left _ hz))), hmz⟩
  | @value fs s e _ he ih =>
    obtain ⟨y, hy, hm⟩ := ih
    obtain ⟨n, type, hn, -⟩ := hm.parts
    have hne : classOf s fs ≠ [] := fun hnil => by rw [hnil] at he; cases he
    obtain ⟨k, z, hz, -, hmz⟩ := (hm.merges hn).one s _ e (List.head?_eq_some_head hne) he
    have ho : z ∈ n.owned :=
      List.mem_append_right _ (List.mem_map.2 ⟨_, Wire.mem_of_agreeing_eq hz, rfl⟩)
    exact ⟨z, hy.trans (.of_parent (w.parent?_of_mem hn ho)), hmz⟩

/-- Every node inside the node of a shape is made of a shape that is kept. -/
theorem Wf.exists_kept_of_under (w : b.Wf) (h : b.MadeOf x v) (hy : b.Under x y) :
    ∃ u, Kept v u ∧ b.MadeOf y u := by
  induction hy with
  | refl => exact ⟨v, .refl, h⟩
  | @step y p hp _ ih =>
    obtain ⟨u, hu, hm⟩ := ih
    obtain ⟨fs, rfl⟩ : ∃ fs, u = .obj fs := by
      obtain ⟨_, -, hb⟩ := hm
      exact Wire.exists_obj_of_build hb
    obtain ⟨n, type, hn, htype, hparts⟩ := hm.parts
    obtain ⟨m, hm', hc⟩ := w.count_eq_one hp
    cases hn.symm.trans hm'
    have ho : y ∈ n.owned := List.count_pos_iff.1 (hc ▸ Nat.one_pos)
    rcases List.mem_append.1 ho with ho | ho
    · obtain ⟨u, hmem, hmu⟩ := Wire.exists_of_forall₂ hparts.flip ho
      exact ⟨u, hu.part htype hmem, hmu⟩
    · obtain ⟨⟨k, z⟩, hmem, rfl⟩ := List.mem_map.1 ho
      have hag : (k, z) ∈ agreeing k n.attributes := List.mem_filter.2 ⟨hmem, k.sameKey_refl⟩
      have hmerges := hm.merges hn
      have hne : classOf k fs ≠ [] := fun hnil => by
        rw [hmerges.none k hnil] at hag
        cases hag
      have hlast := List.getLast?_eq_some_getLast hne
      obtain ⟨k', z', hk, -, hmz⟩ := hmerges.one k _ _ (List.head?_eq_some_head hne) hlast
      rw [hk] at hag
      cases List.mem_singleton.1 hag
      exact ⟨_, hu.value hlast, hmz⟩

/-- Decoding makes nodes of a shape and of those inside it that are kept, and merges the
    attributes of each; nothing else is left in the arena besides what was there. -/
theorem Reachable.decodeShape_merges (h : a.Reachable) (hv : Wire.validate v = .ok ()) :
    ∃ x b t, decodeShape v a = some (.ok x, b) ∧ b.tree? x = some t ∧
      b.size = a.size + t.labels.length ∧ (∀ y, a.contains y = true → b.node? y = a.node? y) ∧
      b.MadeOf x v ∧ (∀ u, Kept v u → ∃ y ∈ t.labels, b.MadeOf y u) ∧
      (∀ y ∈ t.labels, ∃ u, Kept v u ∧ b.MadeOf y u) ∧
      ∀ y n fs, b.node? y = some n → b.MadeOf y (.obj fs) → b.Merges n fs := by
  obtain ⟨t, b, hm, hp, hb⟩ := h.wf.make_ok (Wire.validated_eq_ok.2 ⟨hv, rfl⟩) hv
  have ht := hp.tree t (List.mem_singleton_self t)
  have hmade : b.MadeOf t.label v := ⟨t, ht, hb⟩
  refine ⟨t.label, b, t, hm, ht, hp.size_eq, ?_, hmade, ?_, ?_, fun y n fs hn h => h.merges hn⟩
  · intro y hy
    obtain ⟨n, hn⟩ := contains_iff.1 hy
    exact hp.old y (node?_lt hn)
  · intro u hu
    obtain ⟨y, hy, hmy⟩ := hp.wf.exists_node_of_kept hmade hu
    exact ⟨y, (hp.wf.mem_labels ht).2 hy, hmy⟩
  · intro y hy
    exact hp.wf.exists_kept_of_under hmade ((hp.wf.mem_labels ht).1 hy)

/-- A text of this key with a uri, which is read before the one without. -/
def uriText : String := "\x7b\"t\":\"sy\",\"n\":\"type\",\"cd\":\"sts\",\"uri\":\"u\"\x7d"

/-- A text of this key without a uri. -/
def plainText : String := "\x7b\"t\":\"sy\",\"n\":\"type\",\"cd\":\"sts\"\x7d"

theorem parse_typeKeys :
    Json.parse? uriText =
      some (.obj [("cd", .str "sts"), ("n", .str "type"), ("t", .str "sy"), ("uri", .str "u")]) ∧
    Json.parse? plainText =
      some (.obj [("cd", .str "sts"), ("n", .str "type"), ("t", .str "sy")]) := by
  constructor <;> cbv

theorem readKey_typeKeys :
    readKey uriText = .ok (typeKey (some "u")) ∧ readKey plainText = .ok (typeKey none) := by
  obtain ⟨h, h'⟩ := parse_typeKeys
  constructor
  · rw [readKey, h]
    cbv
  · rw [readKey, h']
    cbv

/-- The fields of the shape of an integer. -/
def integerFields (n : Int) : Json.Fields := [("t", .str "i"), ("v", .int n)]

/-- The entries with these texts for keys. -/
def typeEntries : Json.Fields :=
  [(uriText, .obj (integerFields 2)), (plainText, .obj (integerFields 1))]

/-- The fields of a variable whose attributes have two keys for one symbol. -/
def collidingFields : Json.Fields := [("a", .obj typeEntries), ("n", .str "x"), ("t", .str "v")]

theorem valid_collidingFields : Wire.Valid (.obj collidingFields) := by
  obtain ⟨h, h'⟩ := parse_typeKeys
  refine Wire.valid_iff.2 ⟨_, rfl, .inr ⟨typeEntries, rfl, ?_⟩, .var, rfl, by decide, "x", rfl, rfl⟩
  intro e he
  simp only [typeEntries, List.mem_cons, List.not_mem_nil, or_false] at he
  rcases he with rfl | rfl
  · exact ⟨_, h, rfl, show Wire.validate _ = _ by cbv, show Wire.validate _ = _ by cbv⟩
  · exact ⟨_, h', rfl, show Wire.validate _ = _ by cbv, show Wire.validate _ = _ by cbv⟩

theorem classOf_collidingFields : classOf (typeKey none) collidingFields = typeEntries := by
  obtain ⟨h, h'⟩ := readKey_typeKeys
  rw [classOf, Wire.entriesOf_eq (rfl : collidingFields.get? "a" = some (.obj typeEntries))]
  simp [typeEntries, h, h', typeKey, Symbol.sameKey]

/-- The key that is read first stays, with its uri, and gets the last value. -/
theorem decodeShape_merges_colliding : ∃ x b n z,
    decodeShape (.obj collidingFields) empty = some (.ok x, b) ∧ b.node? x = some n ∧
      agreeing (typeKey none) n.attributes = [(typeKey (some "u"), z)] ∧
      b.MadeOf z (.obj (integerFields 1)) := by
  obtain ⟨x, b, t, hd, -, -, -, hmade, -, -, hmerges⟩ :=
    Reachable.empty.decodeShape_merges valid_collidingFields
  obtain ⟨n, type, hn, -⟩ := hmade.parts
  obtain ⟨k, z, hk, hkey, hz⟩ := (hmerges x n _ hn hmade).one (typeKey none) _ _
    (congrArg List.head? classOf_collidingFields) (congrArg List.getLast? classOf_collidingFields)
  cases readKey_typeKeys.1.symm.trans hkey
  exact ⟨x, b, n, z, hd, hn, hk, hz⟩

end OpenMath.Arena
