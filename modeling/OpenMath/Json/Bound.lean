/-
  How much a text holds.

  Every part of a JSON value is written by characters of its own, so that a
  value weighs at most as much as the text it was read from is long.  This is
  what bounds recursion through a text found inside of a value: the value that
  such a text writes is lighter than the one it was found in.

  * `Parser.Bounded`: a reader takes at least as many characters as the weight
    of what it reads;
  * `weight_le_of_parse?`: the bound for whole texts.
-/
import OpenMath.Json.Parser

namespace OpenMath.Json

namespace Parser

/-- The reader takes at least `w x` characters to read `x`. -/
def Bounded {α : Type} (w : α → Nat) (p : Reader α) : Prop :=
  ∀ cs x rest, p cs = some (x, rest) → w x + rest.length ≤ cs.length

theorem length_skipBlanks_le (cs : List Char) : (skipBlanks cs).length ≤ cs.length :=
  (List.dropWhile_sublist _).length_le

theorem length_lt_of_skipBlanks {cs r : List Char} {c : Char} (h : skipBlanks cs = c :: r) :
    r.length + 1 ≤ cs.length := by
  have := length_skipBlanks_le cs
  rw [h, List.length_cons] at this
  exact this

/-! ## Strings -/

/-- How many characters a sequence of units stands for at most: a unit that
    closes a surrogate pair adds none. -/
def characters (us : List Nat) : Nat := us.countP fun u => !Utf16.isLow u

theorem length_le_characters {us : List Nat} {s : List Char} (h : Utf16.decode us = some s) :
    s.length ≤ characters us := by
  fun_induction Utf16.decode us generalizing s with
  | case1 => simp_all [characters]
  | case2 u hu => cases h
  | case3 u hu =>
    simp only [Bool.or_eq_true, not_or, Bool.not_eq_true] at hu
    cases h
    simp [characters, hu.2]
  | case4 u v us hu hv ih =>
    obtain ⟨t, ht, rfl⟩ := Option.map_eq_some_iff.1 h
    have l : Utf16.isLow u = false := by
      simp only [Utf16.isHigh, Utf16.isLow, Bool.and_eq_true, decide_eq_true_eq] at hu ⊢
      simp; omega
    have := ih ht
    simp only [characters, List.countP_cons, l, hv] at this ⊢
    simp only [List.length_cons, Bool.not_true, Bool.not_false, Bool.false_eq_true, ite_true,
      ite_false]
    omega
  | case5 => cases h
  | case6 => cases h
  | case7 u v us hu hl ih =>
    obtain ⟨t, ht, rfl⟩ := Option.map_eq_some_iff.1 h
    have l : Utf16.isLow u = false := by simpa using hl
    have := ih ht
    unfold characters at this ⊢
    rw [List.countP_cons, l, List.length_cons]
    simp only [Bool.not_false, ite_true]
    omega

theorem characters_encodeChar (c : Char) : characters (Utf16.encodeChar c) = 1 := by
  have s := Utf16.toNat_scalar c
  unfold Utf16.encodeChar
  split
  · have l : Utf16.isLow c.toNat = false := by simp [Utf16.isLow]; omega
    simp [characters, l]
  · have h : Utf16.isLow (0xD800 + (c.toNat - 0x10000) / 0x400) = false := by
      simp [Utf16.isLow]; omega
    have l : Utf16.isLow (0xDC00 + (c.toNat - 0x10000) % 0x400) = true := by
      simp [Utf16.isLow]; omega
    simp [characters, h, l]

theorem characters_cons_le (u : Nat) (us : List Nat) :
    characters (u :: us) ≤ characters us + 1 := by
  unfold characters
  rw [List.countP_cons]
  split <;> omega

theorem units_bounded : Bounded (fun us => characters us + 1) units := by
  intro cs us rest h
  fun_induction units cs generalizing us rest with
  | case1 => cases h
  | case2 => cases h; simp [characters]; omega
  | case3 a b c d cs ih =>
    simp only [Option.bind_eq_bind, Option.bind_eq_some_iff, Prod.exists, Option.pure_def,
      Option.some.injEq, Prod.mk.injEq] at h
    obtain ⟨u, -, vs, r, hr, rfl, rfl⟩ := h
    have : characters vs + 1 + r.length ≤ cs.length := ih _ _ hr
    have := characters_cons_le u vs
    simp only [List.length_cons]; omega
  | case4 c cs _ ih =>
    simp only [Option.bind_eq_bind, Option.bind_eq_some_iff, Prod.exists, Option.pure_def,
      Option.some.injEq, Prod.mk.injEq] at h
    obtain ⟨u, -, vs, r, hr, rfl, rfl⟩ := h
    have : characters vs + 1 + r.length ≤ cs.length := ih _ _ hr
    have := characters_cons_le u vs
    simp only [List.length_cons]; omega
  | case5 => cases h
  | case6 c cs _ _ _ _ ih =>
    simp only [Option.bind_eq_bind, Option.bind_eq_some_iff, Prod.exists, Option.pure_def,
      Option.some.injEq, Prod.mk.injEq] at h
    obtain ⟨vs, r, hr, rfl, rfl⟩ := h
    have : characters vs + 1 + r.length ≤ cs.length := ih _ _ hr
    have e := characters_encodeChar c
    have a : characters (Utf16.encodeChar c ++ vs) = characters (Utf16.encodeChar c) +
        characters vs := List.countP_append
    simp only [List.length_cons]; omega

theorem string_bounded : Bounded (fun s => s.length + 1) string := by
  intro cs s rest h
  simp only [string, Option.bind_eq_bind, Option.bind_eq_some_iff, Prod.exists, Option.pure_def,
    Option.some.injEq, Prod.mk.injEq] at h
  obtain ⟨us, r, hr, t, ht, rfl, rfl⟩ := h
  have : characters us + 1 + r.length ≤ cs.length := units_bounded _ _ _ hr
  have := length_le_characters ht
  simp only [String.length_ofList]; omega

/-! ## Numbers -/

theorem fraction_bounded : Bounded (fun _ => 0) fraction := by
  intro cs x rest h
  unfold fraction at h
  split at h
  · next cs =>
    have := Digits.length_leading_add cs
    split at h
    · cases h
    · cases h; simp only [List.length_cons]; omega
  · cases h; simp

theorem exponent_bounded : Bounded (fun _ => 0) exponent := by
  intro cs x rest h
  unfold exponent at h
  split at h
  · cases h; simp
  · next c cs =>
    split at h
    · have := Digits.length_splitSign_le cs
      have := Digits.length_leading_add (Digits.splitSign cs).2
      simp only at h
      split at h
      · cases h
      · cases h; simp only [List.length_cons]; omega
    · cases h; simp

theorem unsigned_bounded (negative : Bool) : Bounded (fun _ => 1) (unsigned negative) := by
  intro cs x rest h
  have s := Digits.length_leading_add cs
  unfold unsigned at h
  split at h
  · next hw =>
    simp only [Option.bind_eq_bind, Option.bind_eq_some_iff, Prod.exists, Option.pure_def,
      Option.some.injEq, Prod.mk.injEq] at h
    obtain ⟨f, r, hf, e, r', he, n, -, rfl, rfl⟩ := h
    have : 0 + r.length ≤ (Digits.rest cs).length := fraction_bounded _ _ _ hf
    have : 0 + r'.length ≤ r.length := exponent_bounded _ _ _ he
    have : (Digits.leading cs).length ≠ 0 := by
      intro z
      simp [isWhole, List.eq_nil_of_length_eq_zero z] at hw
    show 1 + r'.length ≤ cs.length
    omega
  · cases h

theorem number_bounded : Bounded (fun _ => 1) number := by
  intro cs x rest h
  unfold number at h
  split at h
  · have := unsigned_bounded _ _ _ _ h
    simp only [List.length_cons]; omega
  · exact unsigned_bounded _ _ _ _ h

theorem scalar_bounded : Bounded weight scalar := by
  intro cs x rest h
  unfold scalar at h
  split at h
  · cases h; simp [weight]; omega
  · cases h; simp [weight]; omega
  · cases h; simp [weight]; omega
  · obtain ⟨⟨s, r⟩, hs, e⟩ := Option.map_eq_some_iff.1 h
    cases e
    have : s.length + 1 + rest.length ≤ _ := string_bounded _ _ _ hs
    simp only [weight, List.length_cons]; omega
  · obtain ⟨⟨n, r⟩, hn, e⟩ := Option.map_eq_some_iff.1 h
    cases e
    exact number_bounded _ _ _ hn

/-! ## Arrays and objects -/

/-- A weight of lists to which every item adds its own. -/
structure Sums {α : Type} (w : α → Nat) (total : List α → Nat) : Prop where
  nil : total [] = 0
  cons : ∀ x xs, total (x :: xs) = w x + total xs

section
variable {α : Type} {w : α → Nat} {total : List α → Nat} {p : Reader α}

theorem items_bounded (hw : Sums w total) (hp : Bounded w p) (close : Char) (fuel : Nat) :
    Bounded (fun xs => total xs + 1) (items p close fuel) := by
  induction fuel with
  | zero => intro cs x rest h; cases h
  | succ fuel ih =>
    intro cs xs rest h
    simp only [items, Option.bind_eq_bind, Option.bind_eq_some_iff, Prod.exists] at h
    obtain ⟨x, r, hx, h⟩ := h
    have bx := hp _ _ _ hx
    split at h
    · cases h
    · next c r' hr =>
      have := length_lt_of_skipBlanks hr
      split at h
      · simp only [Option.bind_eq_some_iff, Prod.exists, Option.pure_def, Option.some.injEq,
          Prod.mk.injEq] at h
        obtain ⟨ys, r'', hy, rfl, rfl⟩ := h
        have : total ys + 1 + r''.length ≤ r'.length := ih _ _ _ hy
        simp only [hw.cons]; omega
      · split at h
        · cases h; simp only [hw.cons, hw.nil]; omega
        · cases h

theorem group_bounded (hw : Sums w total) (hp : Bounded w p) (close : Char) :
    Bounded (fun xs => total xs + 1) (group p close) := by
  intro cs xs rest h
  unfold group at h
  split at h
  · cases h
  · next c r hr =>
    have := length_lt_of_skipBlanks hr
    split at h
    · cases h; simp only [hw.nil]; omega
    · exact items_bounded hw hp close _ _ _ _ h

end

theorem member_bounded {p : Reader Json} (hp : Bounded weight p) :
    Bounded (fun f => f.1.length + 3 + f.2.weight) (member p) := by
  intro cs f rest h
  unfold member at h
  split at h
  · next r hr =>
    have := length_lt_of_skipBlanks hr
    simp only [Option.bind_eq_bind, Option.bind_eq_some_iff, Prod.exists] at h
    obtain ⟨k, r', hk, h⟩ := h
    have : k.length + 1 + r'.length ≤ r.length := string_bounded _ _ _ hk
    split at h
    · next r'' hr' =>
      have := length_lt_of_skipBlanks hr'
      simp only [Option.bind_eq_some_iff, Prod.exists, Option.pure_def, Option.some.injEq,
        Prod.mk.injEq] at h
      obtain ⟨v, s, hv, rfl, rfl⟩ := h
      have := hp _ _ _ hv
      simp only; omega
    · cases h
  · cases h

theorem sums_weightItems : Sums weight weightItems where
  nil := by rw [weightItems]
  cons _ _ := by rw [weightItems]

theorem sums_weightFields :
    Sums (fun f : String × Json => f.1.length + 3 + f.2.weight) weightFields where
  nil := by rw [weightFields]
  cons _ _ := by rw [weightFields]

theorem value_bounded (depth : Nat) : Bounded weight (value depth) := by
  induction depth with
  | zero =>
    intro cs x rest h
    have := scalar_bounded _ _ _ h
    have := length_skipBlanks_le cs
    omega
  | succ depth ih =>
    intro cs x rest h
    unfold value at h
    split at h
    · next r hr =>
      have := length_lt_of_skipBlanks hr
      obtain ⟨⟨xs, s⟩, hx, e⟩ := Option.map_eq_some_iff.1 h
      cases e
      have : weightItems xs + 1 + rest.length ≤ r.length :=
        group_bounded sums_weightItems ih _ _ _ _ hx
      simp only [weight]; omega
    · next r hr =>
      have := length_lt_of_skipBlanks hr
      obtain ⟨⟨fs, s⟩, hf, e⟩ := Option.map_eq_some_iff.1 h
      cases e
      have : weightFields fs + 1 + rest.length ≤ r.length :=
        group_bounded sums_weightFields (member_bounded ih) _ _ _ _ hf
      have := weightFields_ofList_le fs
      simp only [ofFields, weight]; omega
    · have := scalar_bounded _ _ _ h
      have := length_skipBlanks_le cs
      omega

end Parser

/-- A value weighs at most as much as its text is long. -/
theorem weight_le_of_parse? {s : String} {v : Json} (h : parse? s = some v) :
    v.weight ≤ s.length := by
  simp only [parse?, Option.bind_eq_bind, Option.bind_eq_some_iff, Prod.exists] at h
  obtain ⟨x, r, hx, h⟩ := h
  split at h
  · cases h
    have := Parser.value_bounded _ _ _ _ hx
    rw [String.length_toList] at this
    omega
  · cases h

end OpenMath.Json
