/-
  Reading back what was printed.

  A value that is printed is read as itself, if it does not nest too deep, its
  fields are in order, and its numbers are read as themselves.

  * `string_quoted`: texts in quotes;
  * `Readable`: the values that are read as themselves;
  * `parse?_compact`: reading back the text of one.
-/
import OpenMath.Json.Parser
import OpenMath.Json.Printer
import OpenMath.Proofs.Json.Fields

namespace OpenMath.Json

namespace Parser

/-! ## Strings -/

theorem units_short {l : Char} {u : Nat} (h : escaped? l = some u) (cs : List Char) :
    units ('\\' :: l :: cs) = (units cs).map fun p => (u :: p.1, p.2) := by
  have hu : l ≠ 'u' := by rintro rfl; cases h
  rw [units.eq_4 _ _ (by rintro _ _ _ _ _ rfl; exact absurd rfl hu), h]
  cases units cs <;> rfl

theorem units_escapeChar (c : Char) (cs : List Char) :
    units (escapeChar c ++ cs) = (units cs).map fun p => (Utf16.encodeChar c ++ p.1, p.2) := by
  unfold escapeChar
  split
  · next l hl =>
    unfold shortEscape? at hl
    split at hl <;> cases hl <;> exact units_short rfl cs
  · next hc =>
    split_ifs with h
    · have e : Utf16.encodeChar c = [c.toNat] := by
        rw [Utf16.encodeChar, if_pos (by omega)]
      have r := Hex.read?_four (n := c.toNat) (by omega)
      simp only [Hex.four] at r ⊢
      simp only [List.cons_append, List.nil_append, units, r, e]
      cases units cs <;> rfl
    · have hq : c ≠ '"' := by rintro rfl; cases hc
      have hb : c ≠ '\\' := by rintro rfl; cases hc
      rw [List.singleton_append, units]
      · rw [if_neg (not_or.2 ⟨h, hb⟩)]
        cases units cs <;> rfl
      all_goals simp [hq, hb]

theorem units_escaped (s rest : List Char) :
    units (s.flatMap escapeChar ++ '"' :: rest) = some (Utf16.encode s, rest) := by
  induction s with
  | nil => rfl
  | cons c s ih =>
    rw [List.flatMap_cons, List.append_assoc, units_escapeChar, ih]
    rfl

/-- A text in quotes is read, quotes and all. -/
theorem string_quoted (s : String) (rest : List Char) :
    string (s.toList.flatMap escapeChar ++ '"' :: rest) = some (s, rest) := by
  rw [string, units_escaped]
  show (Utf16.decode _ >>= _) = _
  rw [Utf16.decode_encode]
  simp

/-! ## Values that are read as themselves -/

/-- What may follow a value: the end of the text, a comma, or a closing
    character. -/
def Closes (cs : List Char) : Prop := ∀ c ∈ cs.head?, c = ',' ∨ c = ']' ∨ c = '\x7d'

/-- A number is read as itself. -/
structure ReadsBack (n : Number) : Prop where
  start : ∃ c cs, n.chars = c :: cs ∧ (c.isDigit = true ∨ c = '-')
  reads : ∀ rest, Closes rest → number (n.chars ++ rest) = some (n, rest)

/-- Values that nest at most `depth` deep, whose fields are in order and whose
    numbers are read as themselves. -/
inductive Readable : Nat → Json → Prop
  | null {depth} : Readable depth .null
  | bool {depth b} : Readable depth (.bool b)
  | number {depth n} : ReadsBack n → Readable depth (.number n)
  | str {depth s} : Readable depth (.str s)
  | arr {depth xs} : (∀ x ∈ xs, Readable depth x) → Readable (depth + 1) (.arr xs)
  | obj {depth fs} : Fields.Ascending fs → (∀ f ∈ fs, Readable depth f.2) →
      Readable (depth + 1) (.obj fs)

theorem skipBlanks_cons {c : Char} {cs : List Char} (h : isBlank c = false) :
    skipBlanks (c :: cs) = c :: cs := by
  simp [skipBlanks, h]

theorem value_scalar {c : Char} {cs : List Char} (hb : isBlank c = false) (ha : c ≠ '[')
    (ho : c ≠ '\x7b') (depth : Nat) : value depth (c :: cs) = scalar (c :: cs) := by
  cases depth with
  | zero => exact congrArg scalar (skipBlanks_cons hb)
  | succ depth => simp [value, skipBlanks_cons hb, ha, ho]

/-! ## Arrays and objects -/

/-- A reader reads an item off the text of the item. -/
def Reads {α : Type} (item : Reader α) (text : α → List Char) (x : α) : Prop :=
  ∀ rest, Closes rest → item (text x ++ rest) = some (x, rest)

section
variable {α : Type} {item : Reader α} {text : α → List Char} {close : Char}

theorem items_separated (hc : close = ']' ∨ close = '\x7d') {x : α} {xs : List α}
    (h : ∀ y ∈ x :: xs, Reads item text y) {fuel : Nat} (hf : xs.length < fuel) (rest : List Char) :
    items item close fuel (Text.commaSeparated ((x :: xs).map text) ++ close :: rest) =
      some (x :: xs, rest) := by
  induction fuel generalizing x xs with
  | zero => cases hf
  | succ fuel ih =>
    have hx := h x (List.mem_cons_self ..)
    have hblank : isBlank close = false := by rcases hc with rfl | rfl <;> rfl
    have hcomma : close ≠ ',' := by rcases hc with rfl | rfl <;> decide
    cases xs with
    | nil =>
      have hr : Closes (close :: rest) := by simpa [Closes] using .inr hc
      simp [items, Text.commaSeparated, hx _ hr, skipBlanks_cons hblank, hcomma]
    | cons y ys =>
      have hr : Closes (',' :: (Text.commaSeparated ((y :: ys).map text) ++ close :: rest)) := by
        simp [Closes]
      have hys := ih (fun z hz => h z (List.mem_cons_of_mem x hz)) (Nat.lt_of_succ_lt_succ hf)
      have htext : Text.commaSeparated ((x :: y :: ys).map text) ++ close :: rest =
          text x ++ ',' :: (Text.commaSeparated ((y :: ys).map text) ++ close :: rest) := by
        simp [Text.commaSeparated]
      have hb : isBlank ',' = false := rfl
      rw [htext, items, hx _ hr]
      simp only [Option.bind_eq_bind, Option.bind_some, skipBlanks_cons hb, if_true, hys]
      rfl

/-- A group is read if its items are, and if no text of an item is empty, begins
    with a blank, or begins with the closing character. -/
theorem group_separated (hc : close = ']' ∨ close = '\x7d') {xs : List α}
    (h : ∀ x ∈ xs, Reads item text x)
    (hs : ∀ x ∈ xs, ∃ c cs, text x = c :: cs ∧ isBlank c = false ∧ c ≠ close)
    (rest : List Char) :
    group item close (Text.commaSeparated (xs.map text) ++ close :: rest) = some (xs, rest) := by
  cases xs with
  | nil =>
    have hblank : isBlank close = false := by rcases hc with rfl | rfl <;> rfl
    simp [group, Text.commaSeparated, skipBlanks_cons hblank]
  | cons x xs =>
    obtain ⟨c, cs, hx, hb, hne⟩ := hs x (List.mem_cons_self ..)
    have hlen : xs.length < (Text.commaSeparated ((x :: xs).map text) ++ close :: rest).length := by
      have key : ∀ ts : List (List Char), ts.length ≤ (Text.commaSeparated ts).length + 1 := by
        intro ts
        induction ts with
        | nil => simp
        | cons t ts ih =>
          cases ts with
          | nil => simp
          | cons u us =>
            simp only [Text.commaSeparated, List.length_append, List.length_cons] at ih ⊢
            omega
      have := key ((x :: xs).map text)
      simp only [List.length_map, List.length_cons, List.length_append] at this ⊢
      omega
    have hi := items_separated hc h hlen rest
    obtain ⟨ds, hd⟩ : ∃ ds, Text.commaSeparated ((x :: xs).map text) ++ close :: rest = c :: ds := by
      cases xs <;> simp [Text.commaSeparated, hx]
    rw [hd] at hi ⊢
    rw [group, skipBlanks_cons hb]
    exact (if_neg hne).trans hi

end

theorem itemChars_eq (xs : List Json) : itemChars xs = xs.map chars := by
  induction xs with
  | nil => rfl
  | cons x xs ih => rw [itemChars, ih, List.map_cons]

/-- The text of a field. -/
def fieldText (f : String × Json) : List Char := quoted f.1.toList ++ ':' :: f.2.chars

theorem fieldChars_eq (fs : List (String × Json)) : fieldChars fs = fs.map fieldText := by
  induction fs with
  | nil => rfl
  | cons f fs ih =>
    obtain ⟨k, v⟩ := f
    rw [fieldChars, ih, List.map_cons, fieldText]

/-! ## Values -/

/-- The text of a readable value begins with a character that neither is blank
    nor closes anything. -/
theorem Readable.chars_eq {depth : Nat} {v : Json} (h : Readable depth v) :
    ∃ c cs, v.chars = c :: cs ∧ isBlank c = false ∧ c ≠ ']' := by
  cases h with
  | null => exact ⟨_, _, rfl, rfl, by decide⟩
  | @bool _ b => cases b <;> exact ⟨_, _, rfl, rfl, by decide⟩
  | number hn =>
    obtain ⟨c, cs, hc, hd⟩ := hn.start
    refine ⟨c, cs, hc, ?_, ?_⟩
    · simp only [isBlank, Bool.or_eq_false_iff, beq_eq_false_iff_ne]
      refine ⟨⟨⟨?_, ?_⟩, ?_⟩, ?_⟩ <;> rintro rfl <;> exact absurd hd (by decide)
    · rintro rfl
      exact absurd hd (by decide)
  | str => exact ⟨_, _, rfl, rfl, by decide⟩
  | arr => exact ⟨_, _, rfl, rfl, by decide⟩
  | obj => exact ⟨_, _, rfl, rfl, by decide⟩

theorem scalar_number {c : Char} {cs : List Char} (h : c.isDigit = true ∨ c = '-') :
    scalar (c :: cs) = (number (c :: cs)).map fun p => (.number p.1, p.2) := by
  rw [scalar.eq_def]
  split
  · next e => cases e; exact absurd h (by decide)
  · next e => cases e; exact absurd h (by decide)
  · next e => cases e; exact absurd h (by decide)
  · next e => cases e; exact absurd h (by decide)
  · rfl

theorem value_of_number {c : Char} {cs : List Char} (h : c.isDigit = true ∨ c = '-') (depth : Nat) :
    value depth (c :: cs) = (number (c :: cs)).map fun p => (.number p.1, p.2) := by
  rw [value_scalar, scalar_number h]
  · simp only [isBlank, Bool.or_eq_false_iff, beq_eq_false_iff_ne]
    refine ⟨⟨⟨?_, ?_⟩, ?_⟩, ?_⟩ <;> rintro rfl <;> exact absurd h (by decide)
  · rintro rfl
    exact absurd h (by decide)
  · rintro rfl
    exact absurd h (by decide)

theorem value_number {n : Number} (h : ReadsBack n) (depth : Nat) :
    Reads (value depth) chars (.number n) := by
  intro rest hr
  have hn := h.reads rest hr
  obtain ⟨c, cs, hc, hd⟩ := h.start
  have hch : (Json.number n).chars = c :: cs := hc
  rw [hc] at hn
  rw [hch, List.cons_append, value_of_number hd, ← List.cons_append, hn]
  rfl

theorem member_fieldText {item : Reader Json} {f : String × Json} (h : Reads item chars f.2) :
    Reads (member item) fieldText f := by
  intro rest hr
  have ht : fieldText f ++ rest =
      '"' :: (f.1.toList.flatMap escapeChar ++ '"' :: ':' :: (f.2.chars ++ rest)) := by
    simp [fieldText, quoted]
  have hq : isBlank '"' = false := rfl
  have hc : isBlank ':' = false := rfl
  simp [ht, member, skipBlanks_cons hq, string_quoted, skipBlanks_cons hc, h rest hr]

/-- A readable value is read as itself. -/
theorem Readable.reads {depth : Nat} {v : Json} (h : Readable depth v) :
    Reads (value depth) chars v := by
  induction h with
  | null => exact fun rest hr => value_scalar rfl (by decide) (by decide) _
  | @bool _ b =>
    cases b <;> exact fun rest hr => value_scalar rfl (by decide) (by decide) _
  | number hn => exact value_number hn _
  | @str _ s =>
    intro rest hr
    have ht : (Json.str s).chars ++ rest =
        '"' :: (s.toList.flatMap escapeChar ++ '"' :: rest) := by
      simp [chars, quoted]
    rw [ht, value_scalar rfl (by decide) (by decide), scalar, string_quoted]
    rfl
  | @arr depth xs hx ih =>
    intro rest hr
    have ht : (Json.arr xs).chars ++ rest =
        '[' :: (Text.commaSeparated (xs.map chars) ++ ']' :: rest) := by
      simp [chars, itemChars_eq]
    have hb : isBlank '[' = false := rfl
    have hg := group_separated (.inl rfl) ih (fun x hm => (hx x hm).chars_eq) rest
    rw [ht, value]
    simp only [skipBlanks_cons hb, hg, Option.map_some]
  | @obj depth fs ha hf ih =>
    intro rest hr
    have ht : (Json.obj fs).chars ++ rest =
        '\x7b' :: (Text.commaSeparated (fs.map fieldText) ++ '\x7d' :: rest) := by
      simp [chars, fieldChars_eq]
    have hb : isBlank '\x7b' = false := rfl
    have hm (f : String × Json) (hf : f ∈ fs) : Reads (member (value depth)) fieldText f :=
      member_fieldText (ih f hf)
    have hg := group_separated (.inr rfl) hm (fun f _ => ⟨'"', _, rfl, rfl, by decide⟩) rest
    rw [ht, value]
    simp only [skipBlanks_cons hb, hg, Option.map_some, ofFields, Fields.ofList_of_ascending ha]

end Parser

/-- Reading back the text of a readable value gives the value. -/
theorem parse?_compact {v : Json} (h : Parser.Readable Parser.maxDepth v) :
    parse? v.compact = some v := by
  have hr := h.reads [] (by simp [Parser.Closes])
  rw [List.append_nil] at hr
  rw [parse?, compact, String.toList_ofList, hr]
  rfl

end OpenMath.Json
