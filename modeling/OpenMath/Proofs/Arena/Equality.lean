/-
  Equality of nodes.

  Nodes are compared by their trees, be they of one arena or of two.

  * `View`: a node that is there, with its arena, which has come about;
  * `View.equals`, `View.equals_eq`: the comparison of two of them, which is that of
    their arena if they have one arena;
  * `View.equals_equivalence`: it is an equivalence, finer with attributes than without,
    and does not see in which order attributes are, or which uris their keys have.
-/
import OpenMath.Proofs.Arena.RoundTrip
import OpenMath.Proofs.Wire.Coarse

namespace OpenMath.Arena

/-- A node that is there, in an arena that has come about. -/
structure View where
  arena : Arena
  id : NodeId
  reachable : arena.Reachable
  live : arena.contains id = true

namespace View

variable {w : Bool}

theorem isSome_tree? (x : View) : (x.arena.tree? x.id).isSome = true := by
  obtain ⟨n, hn⟩ := contains_iff.1 x.live
  exact Option.isSome_iff_exists.2 (x.reachable.wf.exists_tree hn)

/-- The tree at the node. -/
def tree (x : View) : Tree NodeId := (x.arena.tree? x.id).get x.isSome_tree?

theorem tree?_eq (x : View) : x.arena.tree? x.id = some x.tree := (Option.some_get _).symm

theorem shaped (x : View) : x.tree.Shaped := x.reachable.wf.shaped x.tree?_eq

theorem acceptable (x : View) : x.tree.All Kind.Acceptable := x.reachable.acceptable.tree x.tree?_eq

/-- Structural equality of two nodes, be they of one arena or of two. -/
def equals (x y : View) (withAttributes : Bool) : Bool := x.tree.equals withAttributes y.tree

/-- In one arena it is the comparison of the arena. -/
theorem equals_eq (x y : View) (h : x.arena = y.arena) :
    x.arena.equals x.id y.id w = x.equals y w := by
  have hy : x.arena.tree? y.id = some y.tree := h ▸ y.tree?_eq
  rw [Arena.equals, x.tree?_eq, hy]
  rfl

theorem equals_symm {x y : View} (h : x.equals y w = true) : y.equals x w = true :=
  x.shaped.equals_symm y.shaped h

theorem equals_trans {x y z : View} (h : x.equals y w = true) (h' : y.equals z w = true) :
    x.equals z w = true :=
  x.shaped.equals_trans y.shaped z.shaped h h'

theorem equals_of_variant {x y : View} (h : x.tree.Variant y.tree) : x.equals y w = true :=
  h.equals x.shaped y.shaped x.acceptable w

/-- Equality of nodes is an equivalence, with attributes and without, all arenas that come
    about taken together.  Nodes that are equal with their attributes are equal without
    them, and a node may give way to one with the same attributes in another order, and
    with other uris in their keys. -/
theorem equals_equivalence :
    (∀ w, Equivalence fun x y : View => x.equals y w = true) ∧
      (∀ x y : View, x.equals y true = true → x.equals y false = true) ∧
      ∀ x x' y y' : View, x.tree.Variant x'.tree → y.tree.Variant y'.tree →
        ∀ w, x.equals y w = x'.equals y' w := by
  refine ⟨fun w => ⟨fun x => x.shaped.equals_self x.acceptable w, equals_symm, equals_trans⟩,
    fun x y => x.shaped.equals_without y.shaped, fun x x' y y' hx hy w => ?_⟩
  have hx' : x.equals x' w = true := equals_of_variant hx
  have hy' : y.equals y' w = true := equals_of_variant hy
  rw [Bool.eq_iff_iff]
  constructor
  · intro h
    exact equals_trans (equals_symm hx') (equals_trans h hy')
  · intro h
    exact equals_trans hx' (equals_trans h (equals_symm hy'))

/-- The key `comment` of the dictionary `doc`. -/
def commentKey (uri : Option String) : Symbol := ⟨"comment", "doc", uri, rfl, rfl⟩

/-- A variable that got the attribute `type` before `comment`. -/
def typedFirst : Arena where
  places := #[some ⟨.var "x", [(typeKey none, 1), (commentKey none, 2)], none⟩,
    some ⟨.var "y", [], some 0⟩, some ⟨.var "z", [], some 0⟩]

/-- The same with `comment` before `type`, and a uri in the key of the former. -/
def notedFirst : Arena where
  places := #[some ⟨.var "x", [(commentKey (some "u"), 2), (typeKey none, 1)], none⟩,
    some ⟨.var "y", [], some 0⟩, some ⟨.var "z", [], some 0⟩]

theorem reachable_three : (detached ["x", "y", "z"]).Reachable :=
  .step (c := .var "z") (r := .ok ()) reachable_detached (by cbv)

theorem reachable_typedFirst : typedFirst.Reachable :=
  .step (c := .setAttribute 0 (commentKey none) 2) (r := .ok ())
    (.step (c := .setAttribute 0 (typeKey none) 1) (r := .ok ())
      (b := ⟨annotated.places.push (some ⟨.var "z", [], none⟩)⟩) reachable_three (by cbv)) (by cbv)

theorem reachable_notedFirst : notedFirst.Reachable :=
  .step (c := .setAttribute 0 (typeKey none) 1) (r := .ok ())
    (.step (c := .setAttribute 0 (commentKey (some "u")) 2) (r := .ok ())
      (b := ⟨#[some ⟨.var "x", [(commentKey (some "u"), 2)], none⟩, some ⟨.var "y", [], none⟩,
        some ⟨.var "z", [], some 0⟩]⟩) reachable_three (by cbv)) (by cbv)

/-- The tree of a variable without attributes. -/
def variableTree (id : NodeId) (name : String) : Tree NodeId := .rooted id (.var name) []

theorem variant_variableTree (id : NodeId) (name : String) :
    (variableTree id name).Variant (variableTree id name) :=
  .rooted id id (.var name) [] [] (List.forall_mem_nil _) (List.forall_mem_nil _)
    (List.forall_mem_nil _) .rfl

/-- The variable with the attributes in one order. -/
def typedView : View := ⟨typedFirst, 0, reachable_typedFirst, rfl⟩

/-- The variable with the attributes in the other order. -/
def notedView : View := ⟨notedFirst, 0, reachable_notedFirst, rfl⟩

theorem variant_typedView : typedView.tree.Variant notedView.tree := by
  have hx : typedView.tree =
      .rooted 0 (.var "x") [(typeKey none, variableTree 1 "y"), (commentKey none, variableTree 2 "z")] :=
    Option.some.inj (typedView.tree?_eq.symm.trans (by cbv))
  have hy : notedView.tree = .rooted 0 (.var "x")
      [(commentKey (some "u"), variableTree 2 "z"), (typeKey none, variableTree 1 "y")] :=
    Option.some.inj (notedView.tree?_eq.symm.trans (by cbv))
  rw [hx, hy]
  refine .rooted 0 0 (.var "x")
    [((typeKey none, typeKey none), (variableTree 1 "y", variableTree 1 "y")),
      ((commentKey none, commentKey (some "u")), (variableTree 2 "z", variableTree 2 "z"))] _ ?_ ?_ ?_
    (.swap ..)
  · exact List.forall_mem_nil _
  · simp [commentKey]
  · simpa using ⟨variant_variableTree 1 "y", variant_variableTree 2 "z"⟩

/-- Two variables with the same attributes, which were set in one order and in the other,
    once with the uri of a key and once without it. -/
theorem equals_annotated : ∃ x y : View, x.arena.node? x.id ≠ y.arena.node? y.id ∧
    x.equals y true = true ∧ x.equals y false = true := by
  obtain ⟨hequiv, hwithout, hindependent⟩ := equals_equivalence
  have hxy : typedView.equals notedView true = true :=
    (hindependent _ _ notedView _ variant_typedView notedView.shaped.variant_self true).trans
      ((hequiv true).refl notedView)
  exact ⟨typedView, notedView, by simp [typedView, notedView, typedFirst, notedFirst, node?], hxy,
    hwithout _ _ hxy⟩

/-- Nodes that have shapes are equal, attributes included, if and only if the shapes become
    the same when attribute keys lose their uris and the floats among the numbers the signs
    of their zeros. -/
theorem equals_iff_shapes (x y : View) {v w : Json} (hv : x.arena.toShape x.id = .ok v)
    (hw : y.arena.toShape y.id = .ok w) :
    x.equals y true = true ↔ Wire.coarse v = Wire.coarse w := by
  rw [toShape_eq x.tree?_eq] at hv
  rw [toShape_eq y.tree?_eq] at hw
  exact x.shaped.equals_iff_coarse_shape y.shaped x.acceptable y.acceptable hv hw

/-- A zero with one attribute. -/
def annotatedZero (negative : Bool) (uri : Option String) : Arena where
  places := #[some ⟨.float (.zero negative), [(typeKey uri, 1)], none⟩, some ⟨.var "y", [], some 0⟩]

theorem reachable_annotatedZero (negative : Bool) (uri : Option String) :
    (annotatedZero negative uri).Reachable :=
  .step (c := .setAttribute 0 (typeKey uri) 1) (r := .ok ())
    (.step (c := .var "y") (r := .ok ())
      (b := ⟨#[some ⟨.float (.zero negative), [], none⟩, some ⟨.var "y", [], none⟩]⟩)
      (.step (c := .float (.zero negative)) (r := .ok ())
        (b := ⟨#[some ⟨.float (.zero negative), [], none⟩]⟩)
        .empty (by cases negative <;> cbv)) (by cbv)) (by cbv)

/-- A zero with an attribute, as a view. -/
def zeroView (negative : Bool) (uri : Option String) : View :=
  ⟨annotatedZero negative uri, 0, reachable_annotatedZero negative uri, rfl⟩

/-- The two zeros, with one attribute, the key of which has a uri once, are written in
    different ways and are equal. -/
theorem equals_iff_shapes_zeros : ∃ x y : View,
    x.arena.encode x.id ≠ y.arena.encode y.id ∧ x.equals y true = true := by
  obtain ⟨v, hv⟩ : ∃ v, (annotatedZero true (some "u")).toShape 0 = .ok v := ⟨_, by cbv⟩
  obtain ⟨w, hw⟩ : ∃ w, (annotatedZero false none).toShape 0 = .ok w := ⟨_, by cbv⟩
  have hcoarse : Wire.coarse v = Wire.coarse w := by
    cbv at hv hw
    cases hv
    cases hw
    cbv
  refine ⟨zeroView true (some "u"), zeroView false none, ?_, (equals_iff_shapes _ _ hv hw).2 hcoarse⟩
  cbv
  simp

end View

end OpenMath.Arena
