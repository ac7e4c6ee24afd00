/-
  The keys of attributes as texts.

  A key is written as the text of its symbol, from which the symbol is read back.
  The shape of a node lists its attributes in the order of these texts.

  * `readKey_encode`: reading back a key;
  * `sortKeys`: attributes in the order of the texts of their keys;
  * `ofList_sortKeys`: this is the order in which the fields of a shape stand.
-/
import OpenMath.Proofs.Json.Reading
import OpenMath.Proofs.Wire.Building
import Mathlib.Data.List.Sort

namespace OpenMath

/-! ## Reading back -/

namespace Symbol

variable {s t : Symbol}

theorem field?_toShape (s : Symbol) :
    s.toShape.field? "t" = some (.str NodeType.symbol.tag) ∧ s.toShape.field? "n" = some (.str s.name) ∧
      s.toShape.field? "cd" = some (.str s.cd) ∧ s.toShape.field? "uri" = s.uri.map .str := by
  cases h : s.uri <;>
    simp [toShape, shapeOf, Json.ofFields, Json.field?, Json.fields?, Json.Fields.ofList, h]

theorem nodeType?_toShape (s : Symbol) : s.toShape.nodeType? = some .symbol := by
  rw [Json.nodeType?, s.field?_toShape.1]
  exact NodeType.ofTag?_eq_some_iff.2 rfl

theorem ofShape_toShape (s : Symbol) : ofShape s.toShape = .ok s := by
  obtain ⟨-, hn, hc, hu⟩ := s.field?_toShape
  rw [Wire.ofShape_eq s.nodeType?_toShape hn hc s.nameOk s.cdOk, hu]
  obtain ⟨name, cd, uri, _, _⟩ := s
  cases uri <;> rfl

theorem readable_toShape (s : Symbol) (depth : Nat) :
    Json.Parser.Readable (depth + 1) s.toShape := by
  refine .obj (Json.Fields.ascending_ofList _) fun f hf => ?_
  obtain ⟨text, ht⟩ : ∃ text, f.2 = .str text := by
    rcases List.mem_append.1 (Json.Fields.mem_ofList hf) with hf | hf
    · simp only [List.mem_cons, List.not_mem_nil, or_false] at hf
      rcases hf with rfl | rfl | rfl <;> exact ⟨_, rfl⟩
    · simp only [Option.mem_toList, Option.map_eq_some_iff] at hf
      obtain ⟨uri, -, rfl⟩ := hf
      exact ⟨_, rfl⟩
  rw [ht]
  exact .str

theorem parse?_encode (s : Symbol) : Json.parse? s.encode = some s.toShape :=
  Json.parse?_compact (s.readable_toShape _)

end Symbol

namespace Wire

/-- The key that the text of a symbol writes. -/
theorem readKey_encode (s : Symbol) : readKey s.encode = .ok s := by
  rw [readKey, s.parse?_encode]
  exact s.ofShape_toShape

end Wire

namespace Symbol

theorem encode_injective : Function.Injective encode := fun s t h => by
  have hs := Wire.readKey_encode s
  rw [h, Wire.readKey_encode t] at hs
  exact (Except.ok.inj hs).symm

end Symbol

/-! ## Attributes in the order of their keys -/

namespace Wire

variable {α β : Type} {as : List (Symbol × α)}

/-- Attributes in the order of the texts of their keys. -/
def sortKeys (as : List (Symbol × α)) : List (Symbol × α) :=
  as.insertionSort fun d e => d.1.encode ≤ e.1.encode

theorem sortKeys_perm (as : List (Symbol × α)) : (sortKeys as).Perm as :=
  List.perm_insertionSort ..

theorem sortKeys_pairwise (as : List (Symbol × α)) :
    (sortKeys as).Pairwise fun d e => d.1.encode ≤ e.1.encode := by
  have : Std.Total fun d e : Symbol × α => d.1.encode ≤ e.1.encode :=
    ⟨fun d e => le_total d.1.encode e.1.encode⟩
  have : IsTrans (Symbol × α) fun d e => d.1.encode ≤ e.1.encode :=
    ⟨fun _ _ _ h h' => le_trans h h'⟩
  exact List.pairwise_insertionSort ..

theorem sortKeys_map (f : α → β) (as : List (Symbol × α)) :
    sortKeys (as.map fun e => (e.1, f e.2)) = (sortKeys as).map fun e => (e.1, f e.2) :=
  (List.map_insertionSort (fun d e : Symbol × α => d.1.encode ≤ e.1.encode) _
    (fun e => (e.1, f e.2)) as fun _ _ _ _ => Iff.rfl).symm

theorem sortKeys_sortKeys (as : List (Symbol × α)) : sortKeys (sortKeys as) = sortKeys as :=
  (sortKeys_pairwise as).insertionSort_eq

theorem encode_nodup (h : Keyed as) : (as.map fun e => e.1.encode).Nodup := by
  rw [List.Nodup, List.pairwise_map]
  refine h.imp fun {d e} hk he => ?_
  rw [Symbol.encode_injective he] at hk
  simp at hk

/-- The fields that attributes are written as stand in the order of their keys. -/
theorem ofList_sortKeys (h : Keyed as) (f : α → Json) :
    Json.Fields.ofList (as.map fun e => (e.1.encode, f e.2)) =
      (sortKeys as).map fun e => (e.1.encode, f e.2) := by
  have hn (bs : List (Symbol × α)) (hk : Keyed bs) :
      ((bs.map fun e => (e.1.encode, f e.2)).map Prod.fst).Nodup := by
    simpa [Function.comp_def] using encode_nodup hk
  have hs := hn _ (h.perm (sortKeys_perm as).symm)
  have lt_asymm : ∀ d e : String × Json, d.1 < e.1 → e.1 < d.1 → d = e := fun d e hd he =>
    absurd (hd.trans he) (lt_irrefl _)
  refine List.Perm.eq_of_pairwise (fun d e _ _ => lt_asymm d e) (Json.Fields.ascending_ofList _) ?_ ?_
  · rw [List.Nodup, List.pairwise_map] at hs
    refine List.Pairwise.imp₂ (fun _ _ hle hne => lt_of_le_of_ne hle hne) ?_ hs
    exact List.pairwise_map.2 (sortKeys_pairwise as)
  · exact (Json.Fields.perm_ofList (hn _ h)).trans ((sortKeys_perm as).map _).symm

end Wire

end OpenMath
