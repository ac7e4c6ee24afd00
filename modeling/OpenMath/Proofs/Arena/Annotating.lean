/-
  Copies with more attributes.

  A copy with more attributes is made by way of one shape, to which the attributes are added.
  The same could be done by hand, with a copy of the node and then, for one entry after the
  other, a copy of the value, which is set as an attribute.  The shape of what comes of it is
  the same: after every entry the shape that is being put together is the shape of the tree in
  the arena.

  * `copyAndStore`: attributes that are set one after the other;
  * `Within`: nodes that keep what is in their slots while others are made;
  * `Wf.tree?_stored_owner`: the tree of a node on which a root is set as an attribute;
  * `Storing.step`, `Storing.run`: the shape of the node after one entry, and after all;
  * `Reachable.attribution_agrees`: both ways agree, and what is no symbol is no key.
-/
import OpenMath.Proofs.Arena.AttributeStore
import OpenMath.Proofs.Arena.Composing
import OpenMath.Proofs.Wire.Annotating

namespace OpenMath.Arena

open Wire

variable {a b c : Arena} {id v x y : NodeId} {t u : Tree NodeId} {key : Symbol} {j : Json}
  {fs : Json.Fields} {us : List (Tree NodeId)}

/-! ## One attribute after the other -/

/-- For one entry after the other, a copy of the value is set as the attribute of a node under
    the symbol that the key is. -/
def storeCopies (id : NodeId) : List (NodeId × NodeId) → Edit Unit
  | [] => return ()
  | (key, value) :: entries => do
    let a ← get
    match (a.kind? key).bind Kind.symbol? with
    | some s => do
      let copied ← copy value
      let _ ← setAttribute id s copied
      storeCopies id entries
    | none => throw (.refused .attributeStale)

/-- A copy of a node, on which attributes are set one after the other. -/
def copyAndStore (node : NodeId) (entries : List (NodeId × NodeId)) : Edit NodeId := do
  let x ← copy node
  storeCopies x entries
  return x

/-! ## Nodes that keep what is in their slots -/

/-- The nodes of `a` are in `b`, with the same in their slots. -/
def Within (a b : Arena) : Prop := ∀ x n, a.node? x = some n →
  ∃ m, b.node? x = some m ∧ m.content = n.content ∧ m.attributes = n.attributes

namespace Within

theorem trans (h : Within a b) (h' : Within b c) : Within a c := by
  intro x n hn
  obtain ⟨m, hm, hc, ha⟩ := h x n hn
  obtain ⟨k, hk, hc', ha'⟩ := h' x m hm
  exact ⟨k, hk, hc'.trans hc, ha'.trans ha⟩

theorem kind? {k : Kind} (h : Within a b) (hk : a.kind? x = some k) : b.kind? x = some k := by
  obtain ⟨n, hn, rfl⟩ := kind?_eq_some.1 hk
  obtain ⟨m, hm, hc, -⟩ := h x n hn
  exact kind?_eq_some.2 ⟨m, hm, by rw [Node.kind, Node.kind, hc]⟩

theorem tree? (h : Within a b) (ht : a.tree? id = some t) : b.tree? id = some t :=
  tree?_of_contents ht fun x _ => h x

theorem toShape (h : Within a b) (hs : a.toShape id = .ok j) : b.toShape id = .ok j := by
  obtain ⟨t, ht, hv⟩ := exists_tree_of_toShape hs
  rw [toShape_eq (h.tree? ht), hv]

end Within

theorem Planted.within (h : Planted a b us) : Within a b := fun _ n hn =>
  ⟨n, h.node?_old hn, rfl, rfl⟩

/-! ## Roots that become attributes -/

section
variable {n : Node} {o : Option NodeId} (w : a.Wf) (hroot : a.parent? v = none)
include w hroot

theorem Wf.not_mem_owned_of_root (hn : a.node? x = some n) : v ∉ n.owned := fun hm => by
  cases hroot.symm.trans (w.parent?_of_mem hn hm)

variable (h : Remapped (fun x n => Arena.hang id key v x ((unset o id key x n).without v)) a b)
include h

theorem Wf.tree?_stored_other (ht : a.tree? x = some t) (hx : ¬ a.Under x id) : b.tree? x = some t :=
  tree?_of_contents ht fun y hy n hn => by
    refine stored_same h ?_ hn (w.not_mem_owned_of_root hroot hn)
    rintro rfl
    exact hx ((w.mem_labels ht).1 hy)

/-- The node on which the root is set gets its tree behind the other attributes, of which one
    whose key agrees is gone. -/
theorem Wf.tree?_stored_owner (hout : ¬ a.Under v id) (ht : a.tree? id = some t)
    (hu : a.tree? v = some u) : b.tree? id = some (t.annotate key u) := by
  obtain ⟨n, cs, as, hn, hr, rfl⟩ := exists_roots ht
  obtain ⟨m, hm, hcontent, hattributes⟩ := stored_owner h hn
  obtain ⟨hparts, hvalues⟩ := hr.parent w hn
  have hno := w.not_mem_owned_of_root hroot hn
  have hfilter : n.attributes.filter (fun e => !e.1.sameKey key && e.2 != v) =
      n.attributes.filter fun e => !e.1.sameKey key := by
    refine List.filter_congr fun e he => ?_
    have hne : e.2 ≠ v := fun hv => hno (hv ▸ List.mem_append_right _ (List.mem_map_of_mem he))
    simp [hne]
  rw [Tree.annotate_rooted]
  refine tree?_rooted hm ⟨?_, ?_, ?_, ?_⟩
  · exact (hcontent.trans (congrArg Node.content (Node.without_eq_self hno))).trans hr.content
  · rw [hattributes, hfilter, hr.attributes, List.filter_map, List.map_append, List.map_singleton,
      tree?_label hu]
    rfl
  · intro p hp
    exact w.tree?_stored_other hroot h (hr.part p hp) (w.acyclic.not_under (hparts p hp))
  · intro e he
    rcases List.mem_append.1 he with he | he
    · have he := (List.mem_filter.1 he).1
      exact w.tree?_stored_other hroot h (hr.value e he) (w.acyclic.not_under (hvalues e he))
    · cases List.mem_singleton.1 he
      rw [tree?_label hu]
      exact w.tree?_stored_other hroot h hu hout

end

/-! ## Entries -/

/-- A node is a symbol without attributes. -/
def IsPlainSymbol (a : Arena) (id : NodeId) (s : Symbol) : Prop :=
  ∃ n, a.node? id = some n ∧ n.content = .symbol s ∧ n.attributes = []

namespace IsPlainSymbol

variable {s : Symbol}

theorem kind? (h : a.IsPlainSymbol id s) : a.kind? id = some (.symbol s) := by
  obtain ⟨n, hn, hc, -⟩ := h
  exact kind?_eq_some.2 ⟨n, hn, by rw [Node.kind, hc]; rfl⟩

theorem toShape (h : a.IsPlainSymbol id s) : a.toShape id = .ok s.toShape := by
  obtain ⟨n, hn, hc, ha⟩ := h
  have hr : a.Roots n (.symbol s) [] := by
    refine ⟨hc, ha, ?_, fun _ he => absurd he List.not_mem_nil⟩
    exact fun _ hu => absurd hu List.not_mem_nil
  rw [toShape_eq (tree?_rooted hn hr)]
  exact congrArg Except.ok (Tree.withAttributes_nil (.symbol s))

end IsPlainSymbol

/-- The shapes of the key and the value of an entry. -/
def entryOf (a : Arena) (e : NodeId × NodeId) : Json × Json := (a.shapeOf e.1, a.shapeOf e.2)

theorem mapM_entryShape {entries : List (NodeId × NodeId)} {ps : List (Json × Json)} :
    entries.mapM a.entryShape = .ok ps ↔
      (∀ e ∈ entries, a.toShape e.1 = .ok (a.shapeOf e.1) ∧ a.toShape e.2 = .ok (a.shapeOf e.2)) ∧
        ps = entries.map a.entryOf := by
  have hentry {e : NodeId × NodeId} {p : Json × Json} :
      a.entryShape e = .ok p ↔ a.toShape e.1 = .ok p.1 ∧ a.toShape e.2 = .ok p.2 := by
    simp only [entryShape, Except.bind_eq_ok]
    constructor
    · rintro ⟨v, hv, w, hw, h⟩
      cases h
      exact ⟨hv, hw⟩
    · rintro ⟨hv, hw⟩
      exact ⟨_, hv, _, hw, rfl⟩
  rw [mapM_eq_ok_iff (g := a.entryOf)]
  · simp only [hentry, entryOf]
  · intro e p h
    obtain ⟨hk, hv⟩ := hentry.1 h
    rw [entryOf, shapeOf_eq hk, shapeOf_eq hv]

/-- Attributes are being set on a node `y` that is new since `a`, and `fs` are the fields that
    it is written with by now. -/
structure Storing (a b : Arena) (y : NodeId) (fs : Json.Fields) : Prop where
  wf : b.Wf
  within : Within a b
  new : a.node? y = none
  shape : b.toShape y = .ok (.obj fs)
  valid : Valid (.obj fs)

/-- A copy of one more value is set, and its shape is added. -/
theorem Storing.step {s : Symbol} (h : Storing a b y fs) (hv : a.toShape v = .ok j)
    (hj : Valid j) : ∃ x b' o c gs, copy v b = some (.ok x, b') ∧
      setAttribute y s x b' = some (.ok o, c) ∧
      Shape.addAttribute fs (s.toShape, j) = .ok gs ∧ Storing a c y gs := by
  obtain ⟨t, ht, hts⟩ := exists_tree_of_toShape h.shape
  obtain ⟨n, hn, -⟩ := exists_node_of_tree ht
  obtain ⟨u, b', hcopied, hp, hu, hus⟩ := h.wf.copy_shape (h.within.toShape hv) hj
  have hroot := hp.root u (List.mem_singleton_self u)
  -- the copy is of new nodes, of which the owner is none
  have hout : ¬ b'.Under u.label y := fun hunder =>
    absurd (hp.under_iff.1 hunder).2 (not_le.2 (node?_lt hn))
  obtain ⟨m, hm, -⟩ := exists_node_of_tree hu
  obtain ⟨c, hset, hc, wc⟩ := hp.wf.setAttribute_node? ⟨⟨n, hp.node?_old hn⟩, ⟨m, hm⟩, hout⟩ s
  obtain ⟨gs, hadd, hgs⟩ := (h.wf.shaped ht).addAttribute_toShape hts hus s
  refine ⟨u.label, b', _, c, gs, hcopied, hset, hadd, wc, fun x k hk => ?_, h.new, ?_,
    valid_addAttribute h.valid hj hadd⟩
  · have hx : x ≠ y := by
      rintro rfl
      exact Option.some_ne_none k (hk.symm.trans h.new)
    obtain ⟨k', hk', hcontent, hattributes⟩ := h.within.trans hp.within x k hk
    obtain ⟨l, hl, hcontent', hattributes'⟩ := stored_same hc hx hk' (hp.wf.not_mem_owned_of_root hroot hk')
    exact ⟨l, hl, hcontent'.trans hcontent, hattributes'.trans hattributes⟩
  · rw [toShape_eq (hp.wf.tree?_stored_owner hroot hc hout (hp.tree?_old ht) hu), hgs]

/-- Entries can be set one after the other, and their shapes are added one after the other. -/
theorem Storing.run {entries : List (NodeId × NodeId)} (h : Storing a b y fs)
    (he : ∀ e ∈ entries, (∃ s, a.IsPlainSymbol e.1 s) ∧ a.toShape e.2 = .ok (a.shapeOf e.2) ∧
      Valid (a.shapeOf e.2)) :
    ∃ c gs, storeCopies y entries b = some (.ok (), c) ∧
      (entries.map a.entryOf).foldlM Shape.addAttribute fs = .ok gs ∧ Storing a c y gs := by
  induction entries generalizing b fs with
  | nil => exact ⟨b, fs, rfl, rfl, h⟩
  | cons e entries ih =>
    obtain ⟨key, value⟩ := e
    obtain ⟨⟨⟨s, hkey⟩, hshape, hvalid⟩, he⟩ := List.forall_mem_cons.1 he
    obtain ⟨x, b', o, c, gs, hcopied, hset, hadd, hc⟩ := h.step (s := s) hshape hvalid
    obtain ⟨d, gs', hrun, hfold, hd⟩ := ih hc he
    have hsymbol : (b.kind? key).bind Kind.symbol? = some s := by
      rw [h.within.kind? hkey.kind?]
      rfl
    refine ⟨d, gs', ?_, ?_, hd⟩
    · rw [storeCopies, Edit.bind_ok (Edit.get_run b)]
      simp only [hsymbol]
      rw [Edit.bind_ok hcopied, Edit.bind_ok hset]
      exact hrun
    · rw [List.map_cons, List.foldlM_cons, entryOf, shapeOf_eq hkey.toShape, hadd]
      exact hfold

/-! ## Agreement -/

/-- The shape that is put together of a node and entries is that of the copy on which copies of
    the values were set one after the other. -/
theorem Wf.copyAndStore_ok (w : a.Wf) {node : NodeId} {entries : List (NodeId × NodeId)}
    (hn : a.Copyable node)
    (he : ∀ e ∈ entries, (∃ s, a.IsPlainSymbol e.1 s) ∧ a.Copyable e.2) :
    ∃ y c fs, copyAndStore node entries a = some (.ok y, c) ∧ Storing a c y fs ∧
      attributionShape node entries a = .ok (.obj fs) := by
  obtain ⟨hshape, hvalid⟩ := w.copyable_iff_valid.1 hn
  have hentries : ∀ e ∈ entries, (∃ s, a.IsPlainSymbol e.1 s) ∧
      a.toShape e.2 = .ok (a.shapeOf e.2) ∧ Valid (a.shapeOf e.2) := fun e hm =>
    ⟨(he e hm).1, w.copyable_iff_valid.1 (he e hm).2⟩
  obtain ⟨fs, hfs, -⟩ := valid_iff.1 hvalid
  rw [hfs] at hshape hvalid
  obtain ⟨u, b, hcopied, hp, hu, hus⟩ := w.copy_shape hshape hvalid
  have hnew : a.node? u.label = none :=
    node?_eq_none_of_le (hp.fresh u (List.mem_singleton_self u) _ u.label_mem_labels)
  have hstart : Storing a b u.label fs :=
    ⟨hp.wf, hp.within, hnew, (toShape_eq hu).trans hus, hvalid⟩
  obtain ⟨c, gs, hrun, hfold, hc⟩ := hstart.run hentries
  refine ⟨u.label, c, gs, ?_, hc, ?_⟩
  · rw [copyAndStore, Edit.bind_ok hcopied, Edit.bind_ok hrun]
    rfl
  · have hshapes : entries.mapM a.entryShape = .ok (entries.map a.entryOf) := by
      refine mapM_entryShape.2 ⟨fun e hm => ?_, rfl⟩
      obtain ⟨⟨s, hs⟩, hv, -⟩ := hentries e hm
      exact ⟨by rw [shapeOf_eq hs.toShape, hs.toShape], hv⟩
    exact Except.bind_eq_ok.2 ⟨_, hshapes, Except.bind_eq_ok.2 ⟨_, hshape,
      Except.bind_eq_ok.2 ⟨_, hfold, validated_eq_ok.2 ⟨hc.valid, rfl⟩⟩⟩⟩

/-- A copy with more attributes has the same shape as a copy on which copies of the values are
    set as attributes, one after the other, whichever keys agree with each other or with those
    that the node has.  If a key is no symbol, there is none, and nothing changes. -/
theorem Reachable.attribution_agrees (h : a.Reachable) (node : NodeId)
    (entries : List (NodeId × NodeId)) :
    (a.Copyable node → (∀ e ∈ entries, (∃ s, a.IsPlainSymbol e.1 s) ∧ a.Copyable e.2) →
      ∃ x b y c v, attribution node entries a = some (.ok x, b) ∧
        copyAndStore node entries a = some (.ok y, c) ∧
        b.toShape x = .ok v ∧ c.toShape y = .ok v) ∧
      ((∃ e ∈ entries, ∀ s, a.kind? e.1 ≠ some (.symbol s)) →
        ∃ e, attribution node entries a = some (.error e, a)) := by
  have w := h.wf
  constructor
  · intro hn he
    obtain ⟨y, c, fs, hrun, hc, hshape⟩ := w.copyAndStore_ok hn he
    obtain ⟨t, ht, hts⟩ := exists_tree_of_toShape hc.shape
    obtain ⟨u, b, hmake, hp, hbuild⟩ := w.make_ok hshape hc.valid
    obtain ⟨-, hback⟩ := Planted.of_toShape (hc.wf.shaped ht) hts hp hbuild
    exact ⟨u.label, b, y, c, _, hmake, hrun, hback, hc.shape⟩
  · rintro ⟨e, he, hkey⟩
    cases hshape : attributionShape node entries a with
    | error err => exact ⟨err, make_error hshape⟩
    | ok v =>
      obtain ⟨ps, hps, hrest⟩ := Except.bind_eq_ok.1 hshape
      obtain ⟨_, -, hv⟩ := Except.bind_eq_ok.1 hrest
      obtain ⟨hentries, rfl⟩ := mapM_entryShape.1 hps
      have htype := nodeType?_of_attribution hv _ (List.mem_map_of_mem he)
      obtain ⟨s, hs⟩ := (w.isSymbol_iff (hentries e he).1).1 htype
      exact absurd hs (hkey s)

/-- An arena with an annotated variable, two symbols and another variable. -/
def annotatedBeside : Arena where
  places := annotated.places ++ #[some ⟨.symbol (typeKey (some "u")), [], none⟩,
    some ⟨.symbol ⟨"note", "m", none, rfl, rfl⟩, [], none⟩, some ⟨.var "z", [], none⟩]

theorem reachable_annotatedBeside : annotatedBeside.Reachable :=
  .step (c := .var "z") (r := .ok ())
    (.step (c := .symbol "note" "m" none) (r := .ok ())
      (b := ⟨annotated.places ++ #[some ⟨.symbol (typeKey (some "u")), [], none⟩,
        some ⟨.symbol ⟨"note", "m", none, rfl, rfl⟩, [], none⟩]⟩)
      (.step (c := .symbol "type" "sts" (some "u")) (r := .ok ())
        (b := ⟨annotated.places.push (some ⟨.symbol (typeKey (some "u")), [], none⟩)⟩)
        reachable_annotated (by cbv)) (by cbv)) (by cbv)

theorem copyable_annotatedBeside {id : NodeId} {n : Node} (hn : annotatedBeside.node? id = some n) :
    annotatedBeside.Copyable id := by
  have ha := reachable_annotatedBeside
  obtain ⟨t, ht⟩ := ha.wf.exists_tree hn
  refine (ha.wf.copyable_iff_described ha.acceptable ht).2
    ((ha.wf.described_iff ha.acceptable ht).2 fun x m _ hm => ?_)
  have hx : x < 5 := node?_lt hm
  interval_cases x <;> cases hm <;> simp [Content.Emptied]

/-- A variable gets attributes by a key that is given twice, and that agrees but for its uri
    with one that the variable has; but not by a variable. -/
theorem attribution_agrees_annotated :
    ∃ a x b y c v, a.Reachable ∧ a.getAttribute? 0 ⟨"type", "sts", none, rfl, rfl⟩ = some 1 ∧
      attribution 0 [(2, 4), (3, 1), (2, 3)] a = some (.ok x, b) ∧
      copyAndStore 0 [(2, 4), (3, 1), (2, 3)] a = some (.ok y, c) ∧
      b.toShape x = .ok v ∧ c.toShape y = .ok v ∧
      ∃ e, attribution 0 [(4, 1)] a = some (.error e, a) := by
  have ha := reachable_annotatedBeside
  have hentries : ∀ e ∈ [((2 : NodeId), (4 : NodeId)), (3, 1), (2, 3)],
      (∃ s, annotatedBeside.IsPlainSymbol e.1 s) ∧ annotatedBeside.Copyable e.2 := by
    have hprimed : ∃ s, annotatedBeside.IsPlainSymbol 2 s := ⟨_, _, rfl, rfl, rfl⟩
    have hnote : ∃ s, annotatedBeside.IsPlainSymbol 3 s := ⟨_, _, rfl, rfl, rfl⟩
    simpa using ⟨⟨hprimed, copyable_annotatedBeside rfl⟩, ⟨hnote, copyable_annotatedBeside rfl⟩,
      hprimed, copyable_annotatedBeside rfl⟩
  obtain ⟨x, b, y, c, v, hx, hy, hxs, hys⟩ :=
    (ha.attribution_agrees 0 _).1 (copyable_annotatedBeside rfl) hentries
  have hvar : annotatedBeside.kind? 4 = some (.var "z") := rfl
  have hkey : ∀ s, annotatedBeside.kind? 4 ≠ some (.symbol s) := by simp [hvar]
  obtain ⟨e, he⟩ := (ha.attribution_agrees 0 [(4, 1)]).2 ⟨(4, 1), List.mem_singleton_self _, hkey⟩
  exact ⟨annotatedBeside, x, b, y, c, v, ha, by cbv, hx, hy, hxs, hys, e, he⟩

end OpenMath.Arena
