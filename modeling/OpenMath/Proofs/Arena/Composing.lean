/-
  Compound nodes over copies.

  The parts of a new node may be given more than once, be inside of each other, or be
  attached elsewhere: what goes into the node are copies, made by way of one shape.  The
  shape is valid if the parts have valid shapes and fit, so that this is when the node is
  made.

  * `Compound`: an application, a binding or an error that is asked for;
  * `Compound.shapeIn_eq_ok`, `Compound.acceptable_iff`: when there is a shape to be made a
    tree of;
  * `Composed`: what is known of the node that is made;
  * `Reachable.compound_copies`: when it is made, and that nothing else changes.
-/
import OpenMath.Proofs.Arena.Copies
import OpenMath.Proofs.Wire.Writing

namespace OpenMath.Arena

open Wire

variable {a b : Arena} {id x y : NodeId} {v : Json} {t u : Tree NodeId}

/-! ## Shapes of nodes -/

/-- The shape of a node that has one. -/
def shapeOf (a : Arena) (id : NodeId) : Json := (a.toShape id).toOption.getD .null

theorem shapeOf_eq (h : a.toShape id = .ok v) : a.shapeOf id = v := by
  rw [shapeOf, h]
  rfl

theorem exists_tree_of_toShape (h : a.toShape id = .ok v) :
    ∃ t, a.tree? id = some t ∧ t.toShape = .ok v := by
  rw [toShape] at h
  split at h
  · next t ht => exact ⟨t, ht, h⟩
  · cases h

theorem Wf.copy_shape (w : a.Wf) (hs : a.toShape id = .ok v) (hv : Valid v) :
    ∃ u b, copy id a = some (.ok u.label, b) ∧ Planted a b [u] ∧ b.tree? u.label = some u ∧
      u.toShape = .ok v := by
  have hcopy : a.copyShape id = .ok v := Except.bind_eq_ok.2 ⟨_, hs, validated_eq_ok.2 ⟨hv, rfl⟩⟩
  obtain ⟨t, ht, hts⟩ := exists_tree_of_toShape hs
  obtain ⟨u, b, hm, hp, hb⟩ := w.make_ok hcopy hv
  obtain ⟨-, hus⟩ := Planted.of_toShape (w.shaped ht) hts hp hb
  have hu := hp.tree u (List.mem_singleton_self u)
  exact ⟨u, b, hm, hp, hu, (toShape_eq hu).symm.trans hus⟩

/-- A node has a copy if and only if it has a valid shape. -/
theorem Wf.copyable_iff_valid (w : a.Wf) :
    a.Copyable id ↔ a.toShape id = .ok (a.shapeOf id) ∧ Valid (a.shapeOf id) := by
  constructor
  · intro h
    obtain ⟨t, c, ht, hc⟩ := w.copyable_iff.1 h
    obtain ⟨v, hv, hd⟩ := Except.bind_eq_ok.1 hc
    obtain ⟨_, hval, -⟩ := Except.bind_eq_ok.1 hd
    have hs := (toShape_eq ht).trans hv
    rw [shapeOf_eq hs]
    exact ⟨hs, hval⟩
  · rintro ⟨hs, hval⟩
    obtain ⟨u, b, hcopied, -⟩ := w.copy_shape hs hval
    exact ⟨_, b, hcopied⟩

theorem Wf.nodeType?_shapeOf (w : a.Wf) (h : a.toShape id = .ok (a.shapeOf id)) :
    ∃ k, a.kind? id = some k ∧ (a.shapeOf id).nodeType? = some k.type := by
  obtain ⟨t, ht, hv⟩ := exists_tree_of_toShape h
  obtain ⟨n, hn, hk, -⟩ := exists_node_of_tree ht
  have htype := (w.shaped ht).nodeType?_shape (Tree.shape_eq hv ▸ hv)
  rw [Tree.shape_eq hv] at htype
  exact ⟨t.kind, kind?_eq_some.2 ⟨n, hn, hk⟩, htype⟩

theorem Wf.isSymbol_iff (w : a.Wf) (h : a.toShape id = .ok (a.shapeOf id)) :
    (a.shapeOf id).nodeType? = some .symbol ↔ ∃ s, a.kind? id = some (.symbol s) := by
  obtain ⟨k, hk, htype⟩ := w.nodeType?_shapeOf h
  rw [htype, hk]
  cases k <;> simp [Kind.type]

theorem Wf.isVar_iff (w : a.Wf) (h : a.toShape id = .ok (a.shapeOf id)) :
    (a.shapeOf id).nodeType? = some .var ↔ ∃ name, a.kind? id = some (.var name) := by
  obtain ⟨k, hk, htype⟩ := w.nodeType?_shapeOf h
  rw [htype, hk]
  cases k <;> simp [Kind.type]

/-! ## What is asked for -/

/-- A compound node that is asked for, with the nodes that it is to have copies of. -/
inductive Compound where
  /-- the operator first, the operands behind it -/
  | application (nodes : List NodeId)
  | binding (head : NodeId) (bound : List NodeId) (body : NodeId)
  | error (head : NodeId) (nodes : List NodeId)

namespace Compound

/-- The operation that makes a compound node of copies. -/
def make : Compound → Edit NodeId
  | application nodes => Arena.application nodes
  | binding head bound body => Arena.binding head bound body
  | error head nodes => Arena.error head nodes

/-- The content of a node with the very nodes as its parts. -/
def content : Compound → Content NodeId
  | application nodes => .application nodes
  | binding head bound body => .binding (some head) bound (some body)
  | error head nodes => .error (some head) nodes

/-- The object that is made of the shapes of the nodes. -/
def shape (f : NodeId → Json) : Compound → Json
  | application nodes => .ofFields [("t", .str "a"), ("c", .arr (nodes.map f))]
  | binding head bound body =>
    .ofFields [("t", .str "bi"), ("s", f head), ("v", .arr (bound.map f)), ("b", f body)]
  | error head nodes => .ofFields [("t", .str "e"), ("s", f head), ("c", .arr (nodes.map f))]

/-- There is a node in an application, heads are symbols, and what is bound are variables. -/
def Fits (a : Arena) : Compound → Prop
  | application nodes => nodes ≠ []
  | binding head bound _ =>
    (∃ s, a.kind? head = some (.symbol s)) ∧ ∀ x ∈ bound, ∃ name, a.kind? x = some (.var name)
  | error head _ => ∃ s, a.kind? head = some (.symbol s)

/-- The shape that the arena gives, if there is one. -/
def shapeIn (a : Arena) : Compound → Except Error Json
  | application nodes => applicationShape nodes a
  | binding head bound body => bindingShape head bound body a
  | error head nodes => errorShape head nodes a

theorem make_eq (c : Compound) (a : Arena) : c.make a = Arena.make (c.shapeIn a) a := by
  cases c <;> rfl

theorem shape_eq (c : Compound) (f : NodeId → Json) :
    c.shape f = Shape.ofContent (c.content.map f) := by
  cases c <;> rfl

theorem complete (c : Compound) : c.content.Complete := by
  cases c <;> simp [content, Content.Complete]

variable {c : Compound}

theorem Fits.head (h : c.Fits a) (hy : c.content.head? = some y) :
    ∃ s, a.kind? y = some (.symbol s) := by
  cases c with
  | application => cases hy
  | binding => cases hy; exact h.1
  | error => cases hy; exact h

theorem Fits.bound (h : c.Fits a) (hy : y ∈ c.content.bound) :
    ∃ name, a.kind? y = some (.var name) := by
  cases c with
  | binding => exact h.2 y hy
  | _ => cases hy

/-- There is a shape if every part has one and what comes together is valid. -/
theorem shapeIn_eq_ok : c.shapeIn a = .ok v ↔
    (∀ y ∈ c.content.structural, a.toShape y = .ok (a.shapeOf y)) ∧
      Valid (c.shape a.shapeOf) ∧ c.shape a.shapeOf = v := by
  have hone {y : NodeId} {w : Json} :
      a.toShape y = .ok w ↔ a.toShape y = .ok (a.shapeOf y) ∧ w = a.shapeOf y :=
    ⟨fun h => by rw [shapeOf_eq h]; exact ⟨h, rfl⟩, fun ⟨h, hw⟩ => hw ▸ h⟩
  have hmany {ys : List NodeId} {ws : List Json} : ys.mapM a.toShape = .ok ws ↔
      (∀ y ∈ ys, a.toShape y = .ok (a.shapeOf y)) ∧ ws = ys.map a.shapeOf :=
    mapM_eq_ok_iff fun _ _ => shapeOf_eq
  cases c with
  | application nodes =>
    simp only [shapeIn, applicationShape, Except.bind_eq_ok, hmany, content,
      Content.forall_structural_application]
    constructor
    · rintro ⟨_, ⟨hn, rfl⟩, h⟩
      exact ⟨hn, validated_eq_ok.1 h⟩
    · rintro ⟨hn, h⟩
      exact ⟨_, ⟨hn, rfl⟩, validated_eq_ok.2 h⟩
  | binding head bound body =>
    simp only [shapeIn, bindingShape, Except.bind_eq_ok, hmany, content,
      Content.forall_structural_binding]
    constructor
    · rintro ⟨w, hh, _, ⟨hv, rfl⟩, w', hb, h⟩
      obtain ⟨hh, rfl⟩ := hone.1 hh
      obtain ⟨hb, rfl⟩ := hone.1 hb
      exact ⟨⟨hh, hv, hb⟩, validated_eq_ok.1 h⟩
    · rintro ⟨⟨hh, hv, hb⟩, h⟩
      exact ⟨_, hh, _, ⟨hv, rfl⟩, _, hb, validated_eq_ok.2 h⟩
  | error head nodes =>
    simp only [shapeIn, errorShape, Except.bind_eq_ok, hmany, content,
      Content.forall_structural_error]
    constructor
    · rintro ⟨w, hh, _, ⟨hn, rfl⟩, h⟩
      obtain ⟨hh, rfl⟩ := hone.1 hh
      exact ⟨⟨hh, hn⟩, validated_eq_ok.1 h⟩
    · rintro ⟨⟨hh, hn⟩, h⟩
      exact ⟨_, hh, _, ⟨hn, rfl⟩, validated_eq_ok.2 h⟩

section
variable (w : a.Wf) (hs : ∀ y ∈ c.content.structural, a.toShape y = .ok (a.shapeOf y))
include w hs

/-- What comes together keeps the rules if the parts do, and fit. -/
theorem acceptable_iff : (c.content.map a.shapeOf).Acceptable Valid ↔
    (∀ y ∈ c.content.structural, Valid (a.shapeOf y)) ∧ c.Fits a := by
  have hparts (h : (c.content.map a.shapeOf).Acceptable Valid) :
      ∀ y ∈ c.content.structural, Valid (a.shapeOf y) := fun y hy =>
    h.parts _ (Content.structural_map .. ▸ List.mem_map_of_mem hy)
  cases c with
  | application nodes =>
    refine ⟨fun h => ⟨hparts h, ?_⟩, fun ⟨h, hn⟩ => ?_⟩
    · rintro rfl
      exact h.nonempty rfl rfl
    · have hne : nodes ≠ [] := hn
      exact Content.acceptable_application (by simpa using hne)
        (List.forall_mem_map.2 (Content.forall_structural_application.1 h))
  | binding head bound body =>
    obtain ⟨hh, hv, -⟩ := Content.forall_structural_binding.1 hs
    refine ⟨fun h => ⟨hparts h, (w.isSymbol_iff hh).1 (h.head _ rfl), fun x hx => ?_⟩, ?_⟩
    · exact (w.isVar_iff (hv x hx)).1 (h.bound _ (List.mem_map_of_mem hx))
    · rintro ⟨h, hsym, hvar⟩
      obtain ⟨hph, hpv, hpb⟩ := Content.forall_structural_binding.1 h
      exact Content.acceptable_binding ((w.isSymbol_iff hh).2 hsym)
        (List.forall_mem_map.2 fun x hx => (w.isVar_iff (hv x hx)).2 (hvar x hx)) hph
        (List.forall_mem_map.2 hpv) hpb
  | error head nodes =>
    obtain ⟨hh, -⟩ := Content.forall_structural_error.1 hs
    refine ⟨fun h => ⟨hparts h, (w.isSymbol_iff hh).1 (h.head _ rfl)⟩, ?_⟩
    rintro ⟨h, hsym⟩
    obtain ⟨hph, hpn⟩ := Content.forall_structural_error.1 h
    exact Content.acceptable_error ((w.isSymbol_iff hh).2 hsym) hph (List.forall_mem_map.2 hpn)

/-- The shape is that of a tree over the trees of the parts. -/
theorem exists_tree (hf : c.Fits a) : ∃ cs : Content (Tree NodeId),
    (Tree.rooted 0 cs []).Shaped ∧ (Tree.rooted 0 cs []).toShape = .ok (c.shape a.shapeOf) := by
  let g (y : NodeId) : Tree NodeId := (a.tree? y).getD (.rooted y (.application []) [])
  have hg (y : NodeId) (hy : y ∈ c.content.structural) :
      a.tree? y = some (g y) ∧ (g y).toShape = .ok (a.shapeOf y) := by
    obtain ⟨t, ht, hv⟩ := exists_tree_of_toShape (hs y hy)
    have he : g y = t := by simp only [g, ht, Option.getD_some]
    rw [he]
    exact ⟨ht, hv⟩
  have htype {y : NodeId} (hy : y ∈ c.content.structural) {k : Kind} (hk : a.kind? y = some k) :
      (g y).kind = k := by
    obtain ⟨n, hn, hkn, -⟩ := exists_node_of_tree (hg y hy).1
    rw [kind?, hn] at hk
    exact hkn.symm.trans (Option.some.inj hk)
  have hnone (e : Symbol × Tree NodeId) (he : e ∈ []) : e.2.Shaped ∧ e.2.toShape = .ok e.2.shape :=
    absurd he List.not_mem_nil
  refine ⟨c.content.map g, .rooted 0 _ [] ?_ (fun e he => (hnone e he).1)
    (Tree.fits_iff.2 ⟨?_, ?_⟩) .nil, ?_⟩
  · rw [Content.structural_map]
    exact List.forall_mem_map.2 fun y hy => w.shaped (hg y hy).1
  · intro u hu
    rw [Content.head?_map, Option.map_eq_some_iff] at hu
    obtain ⟨y, hy, rfl⟩ := hu
    obtain ⟨s, hk⟩ := hf.head hy
    rw [htype (Content.mem_structural_of_head hy) hk]
    rfl
  · intro u hu
    rw [Content.bound_map] at hu
    obtain ⟨y, hy, rfl⟩ := List.mem_map.1 hu
    obtain ⟨name, hk⟩ := hf.bound hy
    rw [htype (Content.mem_structural_of_bound hy) hk]
    rfl
  · have hparts : ∀ u ∈ (c.content.map g).structural, u.toShape = .ok u.shape := by
      rw [Content.structural_map]
      refine List.forall_mem_map.2 fun y hy => ?_
      rw [Tree.shape_eq (hg y hy).2, (hg y hy).2]
    have hfloat (x : Double) : (c.content.map g).kind ≠ .float x := by
      cases c <;> simp [content, Content.kind, Content.map]
    rw [Tree.toShape_rooted_of_complete (Content.complete_map.2 c.complete)
      (fun x hx => absurd hx (hfloat x)) hparts fun e he => (hnone e he).2]
    show Except.ok (Tree.withAttributes [] _) = _
    rw [Tree.withAttributes_nil, Content.map_map, shape_eq]
    exact congrArg (fun c => Except.ok (Shape.ofContent c))
      (Content.map_congr fun y hy => Tree.shape_eq (hg y hy).2)

end

end Compound

/-! ## What is made -/

/-- `x` is the node in `b` that was asked for in `a`: a root over new nodes only, without
    attributes of its own, the shape of which has the shape of every part in its place. -/
structure Composed (a : Arena) (c : Compound) (b : Arena) (x : NodeId) : Prop where
  root : b.parent? x = none
  fresh : ∀ y, b.isAncestorOrSelf x y = true ↔ b.contains y = true ∧ a.next ≤ y
  plain : ∃ n, b.node? x = some n ∧ n.attributes = []
  shape : ∃ f : NodeId → Json, (∀ y ∈ c.content.structural, a.toShape y = .ok (f y)) ∧
    b.toShape x = .ok (c.shape f)

theorem attributes_of_arranged {cs : Content (Tree NodeId)} (hu : a.tree? id = some u)
    (h : u.toTerm = (Tree.rooted 0 cs []).arranged) :
    ∃ n, a.node? id = some n ∧ n.attributes = [] := by
  obtain ⟨n, cs', as, hn, hr, rfl⟩ := exists_roots hu
  rw [Tree.toTerm_rooted, Tree.arranged_rooted] at h
  have has := (Tree.rooted_injective h).2
  have hnil : as = [] := List.map_eq_nil_iff.1 has
  exact ⟨n, hn, by rw [hr.attributes, hnil]; rfl⟩

/-- A compound node is made if and only if each of its parts is there and has a copy, and they
    fit.  It is over copies of them, and every node that was there is as it was, whether it
    is made or not. -/
theorem Reachable.compound_copies (h : a.Reachable) (c : Compound) :
    ∃ r b, c.make a = some (r, b) ∧
      ((∃ x, r = .ok x) ↔
        (∀ y ∈ c.content.structural, a.contains y = true ∧ a.Copyable y) ∧ c.Fits a) ∧
      (∀ x, r = .ok x → Composed a c b x) ∧
      ∀ y n, a.node? y = some n → b.node? y = some n := by
  have w := h.wf
  have hcopyable (y : NodeId) : a.contains y = true ∧ a.Copyable y ↔
      a.toShape y = .ok (a.shapeOf y) ∧ Valid (a.shapeOf y) := by
    rw [← w.copyable_iff_valid, and_iff_right_iff_imp]
    intro hy
    obtain ⟨t, -, ht, -⟩ := w.copyable_iff.1 hy
    obtain ⟨n, hn, -⟩ := exists_node_of_tree ht
    exact contains_iff.2 ⟨n, hn⟩
  -- the node is made if it has a shape, which is when the parts have valid ones and fit
  have hiff : (∃ v, c.shapeIn a = .ok v) ↔
      (∀ y ∈ c.content.structural, a.contains y = true ∧ a.Copyable y) ∧ c.Fits a := by
    simp only [hcopyable, c.shapeIn_eq_ok, exists_and_left, exists_eq', and_true, forall₂_and,
      and_assoc]
    refine and_congr_right fun hs => ?_
    rw [Compound.shape_eq, valid_ofContent_iff (Content.complete_map.2 c.complete),
      Compound.acceptable_iff w hs]
  cases hv : c.shapeIn a with
  | error e =>
    refine ⟨.error e, a, (c.make_eq a).trans (make_error hv), ?_, nofun, fun _ _ hn => hn⟩
    rw [← hiff, hv]
    simp
  | ok v =>
    obtain ⟨hs, hvalid, rfl⟩ := c.shapeIn_eq_ok.1 hv
    obtain ⟨-, hfits⟩ := hiff.1 ⟨_, hv⟩
    obtain ⟨u, b, hm, hp, hb⟩ := w.make_ok hv hvalid
    have hu := List.mem_singleton_self u
    obtain ⟨cs, hshaped, hshape⟩ := Compound.exists_tree w hs hfits
    obtain ⟨hterm, hback⟩ := Planted.of_toShape hshaped hshape hp hb
    refine ⟨.ok u.label, b, (c.make_eq a).trans hm,
      iff_of_true ⟨_, rfl⟩ (hiff.1 ⟨_, hv⟩), ?_, ?_⟩
    · rintro x ⟨⟩
      exact ⟨hp.root u hu, fun y => hp.isAncestorOrSelf_iff,
        attributes_of_arranged (hp.tree u hu) hterm, _, hs, hback⟩
    · exact fun y n hn => hp.node?_old hn

/-- An application is given as an operator, and its own operator as an operand, twice; but it
    cannot be a head. -/
theorem compound_copies_applied :
    (∃ x b, application [2, 0, 0] applied = some (.ok x, b) ∧
      Composed applied (.application [2, 0, 0]) b x ∧ b.parent? 0 = some 2) ∧
    ∃ e b, error 2 [0] applied = some (.error e, b) := by
  constructor
  · obtain ⟨r, b, hr, hok, hmade, hkept⟩ :=
      reachable_applied.compound_copies (.application [2, 0, 0])
    have hwhole : applied.Copyable 2 := ⟨5, ⟨applied.places ++ #[some ⟨.var "f", [], some 5⟩,
      some ⟨.var "x", [], some 5⟩, some ⟨.application [3, 4], [], none⟩]⟩, by cbv⟩
    obtain ⟨x, rfl⟩ := hok.2 ⟨Content.forall_structural_application.2 (by
      simpa using ⟨⟨rfl, hwhole⟩, rfl, copyable_applied.1⟩), by simp [Compound.Fits]⟩
    exact ⟨x, b, hr, hmade x rfl, by rw [parent?, hkept 0 _ rfl]; rfl⟩
  · obtain ⟨r, b, hr, hok, -⟩ := reachable_applied.compound_copies (.error 2 [0])
    cases r with
    | error e => exact ⟨e, b, hr⟩
    | ok x =>
      obtain ⟨-, s, hs⟩ := hok.1 ⟨x, rfl⟩
      cases hs

end OpenMath.Arena
