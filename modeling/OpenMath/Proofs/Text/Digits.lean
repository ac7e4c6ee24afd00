/-
  Sequences of digits.

  * `value_append`: the number that two sequences write together;
  * `signedValue_chars`: an integer from its digits and its sign;
  * `leading_append`: the digits that a text starts with, if it is known where
    they end;
  * `exists_splitSign`: a text is a sign, or nothing, and what is left without it;
  * `splitSign_of_isDigit`, `splitSign_of_isNumeral`: digits have no sign.
-/
import OpenMath.Text.Digits
import Mathlib

namespace OpenMath

/-- Where the first part of a text ends, if all of it passes a test and what
    follows does not. -/
theorem span_append {p : Char → Bool} {w cs : List Char} (hw : ∀ c ∈ w, p c = true)
    (hc : ∀ c ∈ cs.head?, p c = false) :
    (w ++ cs).takeWhile p = w ∧ (w ++ cs).dropWhile p = cs := by
  have hcs : cs.takeWhile p = [] ∧ cs.dropWhile p = cs := by
    cases cs with
    | nil => exact ⟨rfl, rfl⟩
    | cons c cs => simp [hc c rfl]
  rw [List.takeWhile_append_of_pos hw, List.dropWhile_append_of_pos hw, hcs.1, hcs.2,
    List.append_nil]
  exact ⟨rfl, rfl⟩

theorem exists_span (p : Char → Bool) (cs : List Char) :
    ∃ w r, cs = w ++ r ∧ (∀ c ∈ w, p c = true) ∧ ∀ c ∈ r.head?, p c = false := by
  refine ⟨cs.takeWhile p, cs.dropWhile p, List.takeWhile_append_dropWhile.symm,
    fun c => List.mem_takeWhile_imp, fun c hc => ?_⟩
  have hnot := List.head?_dropWhile_not p cs
  rw [Option.mem_def.1 hc] at hnot
  exact hnot

namespace Digits

variable {cs ds : List Char}

/-! ## Values -/

theorem value_append (ds es : List Char) : value (ds ++ es) = value ds * 10 ^ es.length + value es := by
  rw [value, Nat.ofDigitChars_append, Nat.ofDigitChars_eq_ofDigitChars_zero, Nat.mul_comm]
  rfl

theorem value_replicate_zero (n : Nat) : value (List.replicate n '0') = 0 := by
  induction n with
  | zero => rfl
  | succ n ih =>
    rw [List.replicate_succ, ← List.singleton_append, value_append, ih, show value ['0'] = 0 from rfl,
      Nat.zero_mul]

/-! ## Written numbers -/

theorem isDigit_chars {n : Nat} {c : Char} (h : c ∈ chars n) : c.isDigit = true :=
  Nat.isDigit_of_mem_toDigits (by decide) (by decide) h

theorem chars_ne_nil (n : Nat) : chars n ≠ [] := Nat.toDigits_ne_nil

/-- The digits of the amount of an integer write the integer with its sign. -/
theorem signedValue_chars (e : Int) :
    signedValue (decide (e < 0)) (chars e.natAbs) = e := by
  rw [signedValue, value_chars]
  split
  · next h =>
    simp only [decide_eq_true_eq] at h
    omega
  · next h =>
    simp only [decide_eq_true_eq] at h
    omega

theorem head?_chars {n : Nat} (h : n ≠ 0) : (chars n).head? ≠ some '0' := by
  induction n using Nat.strongRecOn with
  | _ n ih =>
    rw [chars, Nat.toDigits_eq_if (by decide)]
    split
    · next hn =>
      have key : ∀ k < 10, k ≠ 0 → k.digitChar ≠ '0' := by decide
      simpa using key n hn h
    · next hn =>
      rw [List.head?_append_of_ne_nil _ Nat.toDigits_ne_nil]
      exact ih (n / 10) (by omega) (by omega)

/-! ## Texts that start with digits -/

/-- No digit comes next. -/
def Ends (cs : List Char) : Prop := ∀ c ∈ cs.head?, c.isDigit = false

theorem ends_rest (cs : List Char) : Ends (rest cs) := by
  intro c hc
  have hnot := List.head?_dropWhile_not Char.isDigit cs
  rw [show cs.dropWhile Char.isDigit = rest cs from rfl, Option.mem_def.1 hc] at hnot
  exact hnot

theorem isDigit_of_mem_leading {c : Char} (h : c ∈ leading cs) : c.isDigit = true :=
  List.mem_takeWhile_imp h

theorem leading_append (h : ∀ c ∈ ds, c.isDigit = true) (hc : Ends cs) :
    leading (ds ++ cs) = ds ∧ rest (ds ++ cs) = cs :=
  span_append h hc

theorem isNumeral_iff : isNumeral ds = true ↔ ds ≠ [] ∧ ∀ c ∈ ds, c.isDigit = true := by
  simp [isNumeral]

theorem isNumeral_chars (n : Nat) : isNumeral (chars n) = true :=
  isNumeral_iff.2 ⟨chars_ne_nil n, fun _ => isDigit_chars⟩

/-- What is split off a text in front is a sign, or nothing. -/
theorem exists_splitSign (cs : List Char) :
    ∃ sign ∈ [[], ['+'], ['-']], cs = sign ++ (splitSign cs).2 := by
  unfold splitSign
  split <;> simp

/-- A text that starts with a digit has no sign. -/
theorem splitSign_of_isDigit {c : Char} (h : c.isDigit = true) (cs : List Char) :
    splitSign (c :: cs) = (false, c :: cs) := by
  unfold splitSign
  split
  · next e => cases e; cases h
  · next e => cases e; cases h
  · rfl

theorem splitSign_of_isNumeral (h : isNumeral ds = true) : splitSign ds = (false, ds) := by
  cases ds with
  | nil => cases h
  | cons c cs => exact splitSign_of_isDigit ((isNumeral_iff.1 h).2 c (List.mem_cons_self ..)) cs

end Digits

end OpenMath
