/-
  Reading again what was printed.

  The tree of an accepted text can be read off its own text, whatever the first text looked
  like.  What comes of it is the same tree but for the floats that are integers: these are
  written without a point, and an integer is read.

  * `Means`: a term is what an expression means;
  * `exists_means`: what an accepted text means can be read off its own text;
  * `parse_compact_parse`: printing what was read, and reading it again.
-/
import OpenMath.Proofs.Arena.RoundTrip
import OpenMath.Proofs.Compact.Printing
import OpenMath.Proofs.Tree.Searching

namespace OpenMath

theorem Kind.reread_eq_iff {k : Kind} : k.reread = k ↔ ∀ x, k = .float x → x.toInt? = none := by
  cases k with
  | float x =>
    cases hi : x.toInt? with
    | none => simp [reread_float_of_eq_none, hi]
    | some n => simp [reread_float_of_isSome, hi]
  | _ => exact iff_of_true rfl nofun

theorem Content.of_isLeaf {α : Type} {c : Content α} (h : Wire.IsLeaf c.kind.type) :
    c.Complete ∧ c.kind ≠ .application ∧ c.structural = [] := by
  obtain ⟨ha, hb, he⟩ := h
  cases c with
  | application => exact absurd rfl ha
  | binding => exact absurd rfl hb
  | error => exact absurd rfl he
  | _ => exact ⟨trivial, nofun, rfl⟩

namespace Compact

/-! ## Terms of expressions -/

/-- A term is what an expression means, and can be read off its own text. -/
structure Means (t : Term) (e : Expr) : Prop where
  shaped : t.Shaped
  legible : t.Legible
  shape : t.toShape = .ok e.meaning
  type : t.kind.type = e.type

/-- A node without attributes over terms of expressions. -/
theorem means_rooted {c : Content Term} {e : Expr} (hk : c.kind.reread.Printable) (hc : c.Complete)
    (hne : c.kind = .application → c.children ≠ [])
    (fits : ∀ s ∈ c.slots, s.role.admits s.content.kind = true)
    (hp : ∀ u ∈ c.structural, ∃ d, Means u d)
    (he : Shape.ofContent (c.map Tree.shape) = e.meaning) (ht : c.kind.type = e.type) :
    Means (.rooted () c []) e where
  shaped := .rooted () c [] (fun u hu => (hp u hu).elim fun _ h => h.shaped)
    (List.forall_mem_nil _) fits .nil
  legible := Tree.legible_rooted_iff.2
    ⟨rfl, hk, hc, hne, fun u hu => (hp u hu).elim fun _ h => h.legible⟩
  shape := by
    have hfinite : ∀ x, c.kind = .float x → x.isFinite = true := fun x hx =>
      Kind.printable_reread_float_iff.1 (hx ▸ hk)
    have hparts : ∀ u ∈ c.structural, u.toShape = .ok u.shape := fun u hu => by
      obtain ⟨d, hd⟩ := hp u hu
      rw [hd.shape, Tree.shape_eq hd.shape]
    rw [Tree.toShape_rooted_of_complete hc hfinite hparts (List.forall_mem_nil _), ← he]
    exact congrArg Except.ok (Tree.withAttributes_nil _)
  type := ht

/-- What a token of a text means. -/
theorem exists_means_atom {a : Atom} (ha : a.token.Legible) (hp : a.Proper) :
    ∃ t, Means t (.atom a) := by
  have leaf (c : Content Term) (hk : c.kind.reread.Printable)
      (he : Shape.ofContent (c.map Tree.shape) = a.meaning) (ht : c.kind.type = a.type) :
      ∃ t, Means t (.atom a) := by
    have hl : Wire.IsLeaf a.type := by cases a <;> simp [Wire.IsLeaf, Atom.type]
    obtain ⟨hc, hne, hs⟩ := Content.of_isLeaf (ht ▸ hl)
    refine ⟨_, means_rooted hk hc (fun h => absurd h hne) ?_ (by simp [hs]) ?_ ht⟩
    · refine Tree.fits_iff.2 ⟨fun u hu => ?_, fun u hu => ?_⟩
      · exact absurd (Content.mem_structural_of_head hu) (by simp [hs])
      · exact absurd (Content.mem_structural_of_bound hu) (by simp [hs])
    · rw [he, Expr.meaning]
  cases a with
  | symbol cd name =>
    have hcd := Token.isIdentifier_of_isWord ha.1
    have hn := Token.isIdentifier_of_isWord ha.2
    rw [String.ofList_toList] at hcd hn
    exact leaf (.symbol ⟨name, cd, none, hn, hcd⟩) ⟨ha.1, ha.2, rfl⟩ rfl rfl
  | var name => exact leaf (.var name) ha rfl rfl
  | float text =>
    exact leaf (.float (floatOf text)) (Kind.printable_reread_float_iff.2 hp) rfl rfl
  | integer text => exact leaf (.integer (integerOf text)) (printable_integerOf ha) rfl rfl
  | string text => exact leaf (.string text) ha rfl rfl

theorem map_shape_of_means {es : List Expr} {f : Expr → Term} (h : ∀ e ∈ es, Means (f e) e) :
    (es.map f).map Tree.shape = es.map Expr.meaning := by
  rw [List.map_map]
  exact List.map_congr_left fun e he => Tree.shape_eq (h e he).shape

/-- What an expression of tokens of texts means can be read off its own text. -/
theorem exists_means {e : Expr} (he : ∀ t ∈ e.tokens, t.Legible) (hp : e.Proper) :
    ∃ t, Means t e := by
  induction e using Expr.induction with
  | atom a =>
    rw [Expr.tokens, List.forall_mem_singleton] at he
    rw [Expr.Proper] at hp
    exact exists_means_atom he hp
  | application head operands ih ihs =>
    obtain ⟨heh, heo⟩ := forall_tokens_application he
    rw [Expr.Proper] at hp
    obtain ⟨t, ht⟩ := ih heh hp.1
    have : Nonempty Term := ⟨t⟩
    choose! f hf using fun d hd => ihs d hd (heo d hd) (hp.2 d hd)
    have hchildren : ∀ u ∈ t :: operands.map f, ∃ d, Means u d :=
      List.forall_mem_cons.2 ⟨⟨head, ht⟩, List.forall_mem_map.2 fun d hd => ⟨d, hf d hd⟩⟩
    refine ⟨_, means_rooted (c := .application (t :: operands.map f)) trivial trivial
      (fun _ => List.cons_ne_nil _ _) (Tree.fits_iff.2 (by simp [Content.head?, Content.bound])) ?_ ?_ rfl⟩
    · exact Content.forall_structural_application.2 hchildren
    · rw [Expr.meaning, ← map_shape_of_means hf, ← Tree.shape_eq ht.shape]
      rfl
  | binding head bound body ih ihs ihb =>
    obtain ⟨heh, hev, heb⟩ := forall_tokens_binding he
    rw [Expr.Proper] at hp
    obtain ⟨hp, hps, hpb, hs, hv⟩ := hp
    obtain ⟨t, ht⟩ := ih heh hp
    obtain ⟨w, hw⟩ := ihb heb hpb
    have : Nonempty Term := ⟨t⟩
    choose! f hf using fun d hd => ihs d hd (hev d hd) (hps d hd)
    refine ⟨_, means_rooted (c := .binding (some t) (bound.map f) (some w)) trivial ⟨rfl, rfl⟩
      (by simp [Content.kind]) (Tree.fits_iff.2 ⟨?_, ?_⟩) ?_ ?_ rfl⟩
    · rintro u ⟨⟩
      rw [ht.type, hs]
    · exact List.forall_mem_map.2 fun d hd => by rw [(hf d hd).type, hv d hd]
    · exact Content.forall_structural_binding.2
        ⟨⟨head, ht⟩, List.forall_mem_map.2 fun d hd => ⟨d, hf d hd⟩, ⟨body, hw⟩⟩
    · rw [Expr.meaning, ← map_shape_of_means hf, ← Tree.shape_eq ht.shape,
        ← Tree.shape_eq hw.shape]
      rfl

theorem legible_of_parse {text : String} {v : Json} (h : parse text = .ok v) :
    ∃ t : Term, Wire.build v = .ok t ∧ t.Shaped ∧ t.Legible := by
  obtain ⟨e, htokens, hp, rfl⟩ := parse_eq_ok_iff.1 h
  obtain ⟨t, ht⟩ := exists_means (fun t hm => (Token.scanned_of_ofChars htokens t hm).legible) hp
  refine ⟨t, ?_, ht.shaped, ht.legible⟩
  rw [ht.shaped.build_toShape ht.shape, ht.shaped.arranged_of_legible ht.legible]

theorem parse_compact_of_legible {t : Term} (hs : t.Shaped) (hl : t.Legible) :
    ∃ v, parse t.compact = .ok v ∧ Wire.build v = .ok t.reread := by
  obtain ⟨e, he⟩ := exists_written hs hl
  refine ⟨e.meaning, parse_eq_ok_iff.2 ⟨e, ?_, he.proper, rfl⟩, ?_⟩
  · rw [Tree.compact, String.toList_ofList]
    exact he.lexes.ofChars
  · rw [hs.reread.build_toShape he.shape, hs.reread.arranged_of_legible (Tree.Printable.legible hl)]

end Compact

/-! ## Nodes -/

theorem Tree.compactChars_mapLabels {ι κ : Type} (f : ι → κ) (t : Tree ι) :
    (t.mapLabels f).compactChars = t.compactChars := by
  induction t using Tree.induction with
  | node l k ss ih =>
    rw [mapLabels_node, compactChars_node, compactChars_node, Slots.mapContent_mapContent]
    exact congrArg _ (List.map_congr_left fun s hs => congrArg (Slot.mk s.role) (ih s hs))

namespace Arena

variable {a b c : Arena} {text : String} {id : NodeId} {t : Tree NodeId}

theorem compact_eq (ht : a.tree? id = some t) : a.compact id = t.toTerm.compact := by
  rw [compact, ht, Tree.compact, Tree.toTerm, Tree.compactChars_mapLabels]
  rfl

/-- The shape of a text that is read, and the tree that is made of it. -/
theorem Wf.of_parse (w : a.Wf) (h : parse text a = some (.ok id, b)) :
    ∃ v t, Compact.parse text = .ok v ∧ Wire.Valid v ∧ b.Wf ∧ b.tree? id = some t ∧
      Wire.build v = .ok t.toTerm := by
  cases hv : Compact.parse text with
  | error e =>
    have he : parse text a = some (.error e, a) := make_error hv
    cases h.symm.trans he
  | ok v =>
    have hvalid : Wire.Valid v := validated_parse text v hv
    obtain ⟨t, b', hm, hp, hb⟩ := w.make_ok hv hvalid
    cases h.symm.trans hm
    exact ⟨v, t, rfl, hvalid, hp.wf, hp.tree t (List.mem_singleton_self t), hb⟩

/-- What an accepted text is read as has a text that is accepted in every arena.  It is read
    as the same tree, except that each float that is an integer, since it is written without a
    point, becomes the integer that its digits mean.  So the two trees are equal, attributes
    included, if and only if there is no such float. -/
theorem Reachable.parse_compact_parse (ha : a.Reachable) (h : parse text a = some (.ok id, b)) :
    ∃ t, b.tree? id = some t ∧ ∀ c, c.Reachable → ∃ x d u,
      parse (b.compact id) c = some (.ok x, d) ∧ d.tree? x = some u ∧
      u.toTerm = t.toTerm.reread ∧
      (t.equals true u = true ↔ t.All fun k => ∀ y, k = .float y → y.toInt? = none) ∧
      (c = b → (d.equals id x true = true ↔
        t.All fun k => ∀ y, k = .float y → y.toInt? = none)) := by
  obtain ⟨v, t, hv, hvalid, hwf, ht, hbuild⟩ := ha.wf.of_parse h
  obtain ⟨w, hw, hs, hl⟩ := Compact.legible_of_parse hv
  obtain rfl : t.toTerm = w := Except.ok.inj (hbuild.symm.trans hw)
  refine ⟨t, ht, fun c hc => ?_⟩
  obtain ⟨v', hv', hbuild'⟩ := Compact.parse_compact_of_legible hs hl
  rw [← compact_eq ht] at hv'
  obtain ⟨u, d, hm, hp, hu⟩ := hc.wf.make_ok hv' (validated_parse _ v' hv')
  have hterm : u.toTerm = t.toTerm.reread := Except.ok.inj (hu.symm.trans hbuild')
  have hut : d.tree? u.label = some u := hp.tree u (List.mem_singleton_self u)
  have hts : t.Shaped := hwf.shaped ht
  have hus : u.Shaped := hp.wf.shaped hut
  have heq : t.equals true u = true ↔ t.All fun k => ∀ y, k = .float y → y.toInt? = none := by
    have hrearranged : Tree.Rearranges (Tree.toTerm : Tree NodeId → Term) :=
      Tree.rearranges_mapLabels _
    have hlabels : t.toTerm.equals true u.toTerm = t.equals true u :=
      (hts.equals_mapLabels (hus.rearranged hrearranged) _ true).trans
        (hts.equals_rearranged hus hrearranged true)
    have hall := hs.equals_reread_iff (Wire.acceptable_build hvalid hbuild) hl true
    rw [← hterm, hlabels, Tree.toTerm, Tree.all_mapLabels] at hall
    simpa only [Kind.reread_eq_iff] using hall
  refine ⟨u.label, d, u, hm, hut, hterm, heq, ?_⟩
  rintro rfl
  rw [equals, hp.tree?_old ht, hut]
  exact heq

/-- The double of `1.`. -/
def one : Double := ⟨0x3FF0000000000000⟩

/-- An arena with this float. -/
def oneFloat : Arena where
  places := #[some ⟨.float one, [], none⟩]

theorem plainText_one : one.plainText = "1" := by decide +kernel

theorem parse_one : parse "1." .empty = some (.ok 0, oneFloat) := by
  have hone : Compact.floatOf "1." = one := by decide +kernel
  have hparse : Compact.parse "1." = .ok (Shape.ofFloat one) := by
    refine Compact.parse_eq_ok_iff.2 ⟨.atom (.float "1."), by cbv, ?_, ?_⟩
    · rw [Compact.Expr.Proper, Compact.Atom.Proper, hone]
      decide
    · rw [Compact.Expr.meaning, Compact.Atom.meaning, hone]
  rw [parse, hparse]
  cbv

/-- The float of `1.` is written as `1`, which is read as an integer, and this is not equal to
    the float. -/
theorem parse_compact_parse_point : ∃ (b d : Arena) (id x : NodeId) (u : Tree NodeId),
    parse "1." .empty = some (.ok id, b) ∧ b.compact id = "1" ∧
      parse (b.compact id) b = some (.ok x, d) ∧ d.tree? x = some u ∧
      u.toTerm = .rooted () (.integer (.native 1)) [] ∧ d.equals id x true = false := by
  have hwhole : one.toInt?.isSome = true := by decide +kernel
  have hb : oneFloat.Reachable :=
    .step (c := .parse "1.") (r := .ok ()) .empty (Edit.bind_ok parse_one)
  obtain ⟨t, ht, hread⟩ := Reachable.empty.parse_compact_parse parse_one
  obtain rfl : Tree.rooted (0 : NodeId) (.float one) [] = t := by
    have htree : oneFloat.tree? 0 = some (.rooted 0 (.float one) []) := by cbv
    exact Option.some.inj (htree.symm.trans ht)
  obtain ⟨x, d, u, hd, hu, hterm, -, hequals⟩ := hread oneFloat hb
  have hall : ¬ (Tree.rooted (0 : NodeId) (.float one) []).All
      fun k => ∀ y, k = .float y → y.toInt? = none := fun h => by
    rw [(Tree.all_rooted.1 h).1 one rfl] at hwhole
    cases hwhole
  refine ⟨oneFloat, d, 0, x, u, parse_one, ?_, hd, hu, ?_, by simpa using mt (hequals rfl).1 hall⟩
  · rw [compact_eq ht, Tree.compact, Tree.toTerm, Tree.compactChars_mapLabels,
      Compact.compactChars_rooted]
    show String.ofList one.plainText.toList = "1"
    rw [String.ofList_toList, plainText_one]
  · have hone : Compact.integerOf "1" = .native 1 := by decide +kernel
    rw [hterm, Tree.toTerm, Tree.mapLabels_rooted, Tree.reread_rooted]
    show Tree.rooted () (Content.float one).reread [] = _
    rw [Content.reread, if_pos hwhole, plainText_one, hone]

end Arena

end OpenMath
