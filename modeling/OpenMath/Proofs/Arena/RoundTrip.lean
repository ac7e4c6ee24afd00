/-
  Nodes are read back from their texts.

  * `Reachable.written`: what is known of the shape of a node;
  * `Wf.decode_ok`: the text of a valid shape that does not nest too deep is
    decoded, in whatever arena;
  * `Planted.of_toShape`: a tree that is made of the shape of another one;
  * `decode_encode_node`: what is decoded from the text of a node equals the node, and
    has the same text.
-/
import OpenMath.Proofs.Arena.Payloads
import OpenMath.Proofs.Wire.RoundTrip

namespace OpenMath.Arena

variable {a b : Arena} {id : NodeId} {t : Tree NodeId} {v : Json}

theorem toShape_eq (ht : a.tree? id = some t) : a.toShape id = t.toShape := by
  rw [toShape, ht]

theorem encode_eq (h : a.toShape id = .ok v) : a.encode id = .ok v.compact := by
  rw [encode, h]
  rfl

/-- A node whose tree is whole has a valid shape. -/
theorem Reachable.written (h : a.Reachable) (ht : a.tree? id = some t) (hw : t.Whole) : t.Written :=
  (h.wf.shaped ht).written (h.acceptable.tree ht) hw

/-- The text of a valid shape is decoded. -/
theorem Wf.decode_ok (w : b.Wf) (hv : Wire.Valid v) (hr : Json.Parser.Readable v.nesting v)
    (hn : v.nesting ≤ Json.Parser.maxDepth) :
    ∃ u c, decode v.compact b = some (.ok u.label, c) ∧ Planted b c [u] ∧
      Wire.build v = .ok u.toTerm := by
  have hshape : (readJson v.compact >>= Wire.validated) = .ok v := by
    rw [readJson, Json.parse?_compact (hr.mono hn)]
    exact Wire.validated_eq_ok.2 ⟨hv, rfl⟩
  obtain ⟨u, c, hm, hp, hb⟩ := w.make_ok hshape hv
  exact ⟨u, c, decode_eq v.compact ▸ hm, hp, hb⟩

section
variable {ι : Type} {t : Tree ι} {u : Tree NodeId} (ht : t.Shaped) (hv : t.toShape = .ok v)
include ht hv

theorem toShape_of_arranged (hu : a.tree? id = some u) (h : u.toTerm = t.arranged) :
    a.toShape id = .ok v := by
  rw [toShape_eq hu, ← Tree.toShape_mapLabels fun _ => (), ← Tree.toTerm, h]
  exact ht.toShape_arranged hv

/-- A tree that is made of the shape of a tree is that tree, in order, and has the same
    shape. -/
theorem Planted.of_toShape (h : Planted a b [u]) (hb : Wire.build v = .ok u.toTerm) :
    u.toTerm = t.arranged ∧ b.toShape u.label = .ok v := by
  have hterm : u.toTerm = t.arranged := Except.ok.inj (hb.symm.trans (ht.build_toShape hv))
  exact ⟨hterm, toShape_of_arranged ht hv (h.tree u (List.mem_singleton_self u)) hterm⟩

end

/-- A node whose tree is whole has a text.  If this does not nest too deep, it is
    decoded in every arena; what comes of it equals the node, attributes included,
    and has the same text.  Of reading JSON it is assumed that the floats in the tree are read
    back from their texts. -/
theorem Reachable.decode_encode_node (h : a.Reachable) (ht : a.tree? id = some t) (hw : t.Whole)
    (hf : t.All Kind.RoundTrips) :
    ∃ v, a.toShape id = .ok v ∧ a.encode id = .ok v.compact ∧
      (v.nesting ≤ Json.Parser.maxDepth → ∀ b, b.Reachable →
        ∃ x c u, decode v.compact b = some (.ok x, c) ∧ c.tree? x = some u ∧
          u.equals true t = true ∧ c.encode x = .ok v.compact ∧
          (b = a → c.equals x id true = true)) := by
  have hs := h.wf.shaped ht
  have hwritten := h.written ht hw
  have hshape := (toShape_eq ht).trans hwritten.toShape
  refine ⟨t.shape, hshape, encode_eq hshape, fun hn b hb => ?_⟩
  have hreadable := hs.readable (h.acceptable.tree ht) hw hf
  obtain ⟨u, c, hrun, hp, hbuild⟩ := hb.wf.decode_ok hwritten.valid hreadable hn
  have hu : c.tree? u.label = some u := hp.tree u (List.mem_singleton_self u)
  -- the shape of a tree describes the tree but for labels and the order of attributes
  obtain ⟨hterm, hback⟩ := Planted.of_toShape hs hwritten.toShape hp hbuild
  have hall := acceptable_of_ofValid ⟨_, hwritten.valid, hbuild⟩
  have heq := (hp.wf.shaped hu).equals_of_arranged hall hs hterm true
  refine ⟨u.label, c, u, hrun, hu, heq, encode_eq hback, ?_⟩
  rintro rfl
  rw [equals, hu, hp.tree?_old ht]
  exact heq

/-- An arena with a variable that has a float as an attribute. -/
def measured : Arena where
  places := #[some ⟨.var "x", [(typeKey none, 1)], none⟩,
    some ⟨.float ⟨0x3FF8000000000000⟩, [], some 0⟩]

theorem reachable_measured : measured.Reachable :=
  .step (c := .setAttribute 0 (typeKey none) 1) (r := .ok ())
    (.step (c := .float ⟨0x3FF8000000000000⟩) (r := .ok ())
      (b := ⟨(detached ["x"]).places.push (some ⟨.float ⟨0x3FF8000000000000⟩, [], none⟩)⟩)
      (.step (c := .var "x") (r := .ok ()) (b := detached ["x"]) .empty (by cbv)) (by cbv)) (by cbv)

/-- The tree of the variable. -/
def measuredTree : Tree NodeId :=
  .rooted 0 (.var "x") [(typeKey none, .rooted 1 (.float ⟨0x3FF8000000000000⟩) [])]

theorem whole_measuredTree : measuredTree.Whole := by
  simp [measuredTree, Tree.whole_rooted, Content.structural, Content.children, Content.head?,
    Content.bound, Content.body?, Content.Complete, Content.kind]

theorem roundTrips_measuredTree : measuredTree.All Kind.RoundTrips := by
  have h : Json.RoundTrips ⟨0x3FF8000000000000⟩ := by
    refine Json.Parser.roundTrips_of_short (by decide) ?_ ?_ <;> decide +kernel
  simp [measuredTree, Tree.all_rooted, Content.structural, Content.children, Content.head?,
    Content.bound, Content.body?, Content.kind, Kind.RoundTrips, h]

/-- A variable with a float as an attribute is read back. -/
theorem decode_encode_annotated :
    ∃ (a c : Arena) (v : Json) (x : NodeId), a.Reachable ∧ a.encode 0 = .ok v.compact ∧
      decode v.compact a = some (.ok x, c) ∧ c.equals x 0 true = true ∧
      c.encode x = .ok v.compact := by
  obtain ⟨v, hv, he, hread⟩ := reachable_measured.decode_encode_node
    (by cbv : measured.tree? 0 = some measuredTree) whole_measuredTree roundTrips_measuredTree
  have hn : v.nesting ≤ Json.Parser.maxDepth := by
    cbv at hv
    cases hv
    decide
  obtain ⟨x, c, u, hc, -, -, hx, hequals⟩ := hread hn _ reachable_measured
  exact ⟨_, c, v, x, reachable_measured, he, hc, hequals rfl, hx⟩

end OpenMath.Arena
