/-
  Identifiers that stand for arbitrary texts.

  A text is escaped by four digits for each of its 16-bit units.  The groups of digits are
  read as the units, and the units as the text, whose surrogates come in pairs; so no two
  texts have the same escape.

  * `Utf16.lt_of_mem_encode`: four digits are enough for a unit;
  * `readGroups?_flatMap`: reading back the groups of digits;
  * `isIdentifier_escape`, `unescape?_escape`: an escape is an identifier, from which the
    text is recovered.
-/
import OpenMath.Identifier
import Mathlib.Data.List.Basic

namespace OpenMath

/-! ## Units -/

theorem Utf16.lt_of_mem_encodeChar {c : Char} {u : Nat} (h : u ∈ encodeChar c) : u < 0x10000 := by
  have hc := toNat_scalar c
  unfold encodeChar at h
  split at h
  · next hlt => exact List.mem_singleton.1 h ▸ hlt
  · simp only [List.mem_cons, List.not_mem_nil, or_false] at h
    omega

theorem Utf16.lt_of_mem_encode {s : List Char} {u : Nat} (h : u ∈ encode s) : u < 0x10000 := by
  obtain ⟨c, -, hc⟩ := List.mem_flatMap.1 h
  exact lt_of_mem_encodeChar hc

namespace Identifier

/-! ## Characters of identifiers -/

theorem isContinue_of_mem {s : String} {c : Char} (h : isIdentifier s = true)
    (hc : c ∈ s.toList) : isContinue c = true := by
  unfold isIdentifier at h
  cases hs : s.toList with
  | nil =>
    rw [hs] at hc
    cases hc
  | cons d ds =>
    rw [hs] at h hc
    obtain ⟨hstart, hrest⟩ := Bool.and_eq_true_iff.1 h
    rcases List.mem_cons.1 hc with rfl | hc
    · simp [isContinue, hstart]
    · exact List.all_eq_true.1 hrest c hc

theorem not_mem_of_isIdentifier {s : String} {c : Char} (hc : isContinue c = false)
    (h : isIdentifier s = true) : c ∉ s.toList := fun hm => by
  rw [isContinue_of_mem h hm] at hc
  cases hc

/-! ## Groups of digits -/

theorem isContinue_char : ∀ d < 16, isContinue (Hex.char d) = true ∧ Hex.char d ≠ '+' := by decide

theorem isContinue_of_mem_four {n : Nat} {c : Char} (h : c ∈ Hex.four n) : isContinue c = true := by
  have digit (k : Nat) : isContinue (Hex.char (k % 16)) = true :=
    (isContinue_char _ (Nat.mod_lt k (by decide))).1
  simp only [Hex.four, List.mem_cons, List.not_mem_nil, or_false] at h
  rcases h with rfl | rfl | rfl | rfl <;> exact digit _

theorem readGroup?_four {u : Nat} (h : u < 0x10000) : readGroup? (Hex.four u) = some u := by
  have hplus : Hex.char (u / 4096 % 16) ≠ '+' :=
    (isContinue_char _ (Nat.mod_lt _ (by decide))).2
  unfold readGroup?
  split
  · next ds hds => exact absurd (List.cons.inj hds).1 hplus
  · exact Hex.read?_four h

theorem readGroups?_flatMap {us : List Nat} (h : ∀ u ∈ us, u < 0x10000) :
    readGroups? (us.flatMap Hex.four) = some us := by
  induction us with
  | nil => rfl
  | cons u us ih =>
    obtain ⟨hu, hus⟩ := List.forall_mem_cons.1 h
    have hgroup := readGroup?_four hu
    rw [Hex.four] at hgroup
    rw [List.flatMap_cons, Hex.four]
    simp only [List.cons_append, List.nil_append, readGroups?, hgroup, ih hus]
    rfl

/-! ## Escapes -/

/-- An escape has the form of an identifier, since its mark and its digits may stand in one. -/
theorem isIdentifier_escape (text : String) : isIdentifier (escape text) = true := by
  have hmark (cs : List Char) : isName (mark ++ cs) = cs.all isContinue := rfl
  rw [isIdentifier, escape, String.toList_ofList, hmark, List.all_eq_true]
  intro c hc
  obtain ⟨u, -, hu⟩ := List.mem_flatMap.1 hc
  exact isContinue_of_mem_four hu

/-- What is read off an escape is the text that was escaped. -/
theorem unescape?_escape (text : String) : unescape? (escape text) = some text := by
  have hmark (cs : List Char) : dropMark? (mark ++ cs) = some cs := rfl
  have hunits := readGroups?_flatMap fun u (h : u ∈ Utf16.encode text.toList) =>
    Utf16.lt_of_mem_encode h
  rw [unescape?, escape, String.toList_ofList, hmark]
  simp only [Option.bind_eq_bind, Option.bind_some, hunits, Utf16.decode_encode, Option.pure_def,
    String.ofList_toList]

/-- Every text is escaped by an identifier from which the text is recovered; so different texts
    have different escapes. -/
theorem escape_faithful :
    (∀ text, isIdentifier (escape text) = true ∧ unescape? (escape text) = some text) ∧
      Function.Injective escape := by
  refine ⟨fun text => ⟨isIdentifier_escape text, unescape?_escape text⟩, fun s t h => ?_⟩
  have hs := unescape?_escape s
  rw [h, unescape?_escape t] at hs
  exact (Option.some.inj hs).symm

/-- A character beyond `0xFFFF` is escaped by a pair of surrogates. -/
example : escape "a 😀" = "id_00610020d83dde00" := by decide +kernel

end Identifier

end OpenMath
