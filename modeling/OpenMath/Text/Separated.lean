/-
  Texts in a row.

  * `commaSeparated`: texts with a comma between any two;
  * `sorted`: texts in ascending order, each once.
-/

namespace OpenMath.Text

/-- Texts with a comma between any two. -/
def commaSeparated : List (List Char) → List Char
  | [] => []
  | [t] => t
  | t :: ts => t ++ ',' :: commaSeparated ts

/-- Puts a text at its place in an ascending list, unless it is there. -/
def insert (s : String) : List String → List String
  | [] => [s]
  | t :: ts =>
    if s < t then s :: t :: ts else if s = t then t :: ts else t :: insert s ts

/-- Texts in ascending order of their code points, each once. -/
def sorted (ts : List String) : List String := ts.foldr insert []

theorem mem_insert {s t : String} {ts : List String} : t ∈ insert s ts ↔ t = s ∨ t ∈ ts := by
  induction ts with
  | nil => simp [insert]
  | cons u us ih =>
    unfold insert
    split
    · simp
    · split
      · next e => subst e; simp
      · simp only [List.mem_cons, ih]
        exact ⟨fun h => h.elim (.inr ∘ .inl) (·.imp id .inr), fun h =>
          h.elim (.inr ∘ .inl) (·.elim .inl (.inr ∘ .inr))⟩

theorem mem_sorted {t : String} {ts : List String} : t ∈ sorted ts ↔ t ∈ ts := by
  induction ts with
  | nil => rfl
  | cons u us ih => rw [sorted, List.foldr_cons, mem_insert, List.mem_cons, ← sorted, ih]

end OpenMath.Text
