/-
  Decoding normalises.

  A shape is decoded if it is valid, and what is decoded is written as the normal form of
  the shape.  So two shapes with one normal form are not told apart once they are decoded.

  * `decodeShape_isOk_iff`: which shapes are decoded;
  * `Wf.toShape_decoded`: what is written after decoding;
  * `Reachable.decodeShape_normalises`: both, and normal forms are fixed points.
-/
import OpenMath.Proofs.Arena.RoundTrip
import OpenMath.Proofs.Wire.Normalising

namespace OpenMath.Arena

variable {a : Arena} {v : Json}

/-- A shape is decoded if and only if it is valid. -/
theorem Wf.decodeShape_isOk_iff (w : a.Wf) (v : Json) :
    (∃ x b, decodeShape v a = some (.ok x, b)) ↔ Wire.Valid v := by
  constructor
  · rintro ⟨x, b, h⟩
    cases hs : Wire.validated v with
    | ok u => exact (Wire.validated_eq_ok.1 hs).1
    | error e =>
      rw [decodeShape, make_error hs] at h
      cases h
  · intro hv
    obtain ⟨u, b, hm, -⟩ := w.make_ok (Wire.validated_eq_ok.2 ⟨hv, rfl⟩) hv
    exact ⟨u.label, b, hm⟩

/-- What is decoded is written as the normal form of the shape if no two keys agree. -/
theorem Wf.toShape_decoded (w : a.Wf) (hv : Wire.Valid v) (hk : Wire.KeysApart v) :
    ∃ x b, decodeShape v a = some (.ok x, b) ∧ b.toShape x = .ok (Wire.normal v) := by
  obtain ⟨u, b, hm, hp, hb⟩ := w.make_ok (Wire.validated_eq_ok.2 ⟨hv, rfl⟩) hv
  refine ⟨u.label, b, hm, ?_⟩
  rw [toShape_eq (hp.tree u (List.mem_singleton_self u)), ← Tree.toShape_mapLabels fun _ => (),
    ← Tree.toTerm, Wire.toShape_build hv hb, Wire.shape_build hv hk hb]

/-- Decoding normalises, and nothing else.  Which values are decoded does not depend on the
    arena; these are written as their normal forms afterwards if no two keys of an attribute
    map agree.  The normal form of a valid shape is valid, and normal forms are their own. -/
theorem Reachable.decodeShape_normalises (h : a.Reachable) (v : Json) :
    ((∃ x b, decodeShape v a = some (.ok x, b)) ↔ Wire.validate v = .ok ()) ∧
      (Wire.validate v = .ok () → Wire.KeysApart v →
        ∃ x b, decodeShape v a = some (.ok x, b) ∧ b.toShape x = .ok (Wire.normal v)) ∧
      (Wire.validate v = .ok () → Wire.validate (Wire.normal v) = .ok ()) ∧
      Wire.normal (Wire.normal v) = Wire.normal v :=
  ⟨h.wf.decodeShape_isOk_iff v, fun hv hk => h.wf.toShape_decoded hv hk, Wire.valid_normal,
    Wire.normal_normal v⟩

/-- A text of a key, with a null uri. -/
def wordyKey : String := "\x7b\"t\":\"sy\",\"n\":\"type\",\"cd\":\"sts\",\"uri\":null\x7d"

/-- The text of this key as it is written. -/
def terseKey : String := "\x7b\"cd\":\"sts\",\"n\":\"type\",\"t\":\"sy\"\x7d"

/-- A variable with an attribute whose key and whose value have parts that say nothing. -/
def wordy : Json :=
  .obj [("a", .obj [(wordyKey, .obj [("a", .obj []), ("n", .str "y"), ("t", .str "v")])]),
    ("n", .str "x"), ("t", .str "v")]

theorem normal_wordy : Wire.normal wordy =
    .obj [("a", .obj [(terseKey, .obj [("n", .str "y"), ("t", .str "v")])]), ("n", .str "x"),
      ("t", .str "v")] := by
  cbv

theorem valid_wordy : Wire.Valid wordy := by
  have hkey : Json.parse? wordyKey =
      some (.obj [("cd", .str "sts"), ("n", .str "type"), ("t", .str "sy"), ("uri", .null)]) := by
    cbv
  refine Wire.valid_iff.2 ⟨_, rfl, .inr ⟨_, rfl, ?_⟩, .var, rfl, by decide, "x", rfl, rfl⟩
  intro e he
  cases List.mem_singleton.1 he
  exact ⟨_, hkey, rfl, show Wire.validate _ = _ by cbv, show Wire.validate _ = _ by cbv⟩

theorem keysApart_wordy : Wire.KeysApart wordy := by
  intro fs h
  simp only [wordy, Json.holds_obj, Json.holds_str, List.mem_cons, List.not_mem_nil, or_false,
    exists_eq_or_imp, exists_eq_left, Json.obj.injEq, reduceCtorEq, false_and, exists_false] at h
  rcases h with rfl | rfl | rfl | rfl
  · exact List.pairwise_singleton ..
  · exact List.Pairwise.nil
  · exact List.Pairwise.nil
  · exact List.Pairwise.nil

/-- The variable is written without the parts that say nothing. -/
theorem decodeShape_normalises_wordy : ∃ x b, decodeShape wordy empty = some (.ok x, b) ∧
    b.toShape x = .ok (.obj [("a", .obj [(terseKey, .obj [("n", .str "y"), ("t", .str "v")])]),
      ("n", .str "x"), ("t", .str "v")]) := by
  obtain ⟨-, hd, -⟩ := Reachable.empty.decodeShape_normalises wordy
  rw [← normal_wordy]
  exact hd valid_wordy keysApart_wordy

end OpenMath.Arena
