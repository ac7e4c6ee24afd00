/-
  Reading back the text of a number.

  A number is written as a numeral: digits, a point with digits behind it, and an
  exponent, where the point and the exponent may be missing.

  * `Numeral`: a numeral by its parts, with `Numeral.chars` and `Numeral.value`;
  * `Decimal.numeral`: the numeral that a decimal is written as;
  * `ofText?_toText`: the number that the text of a finite number writes.
-/
import Mathlib
import OpenMath.Double.Text
import OpenMath.Proofs.Double.Shortest
import OpenMath.Proofs.Text.Digits

namespace OpenMath

/-! ## Numerals -/

/-- The parts of a numeral without a sign. -/
structure Numeral where
  whole : List Char
  frac : List Char
  exponent : Option Int
deriving DecidableEq

namespace Numeral

variable {n : Numeral} {rest : List Char}

/-- A point with digits behind it, unless there are none. -/
def fracChars (n : Numeral) : List Char := if n.frac.isEmpty then [] else '.' :: n.frac

/-- The letter of an exponent, its sign and its digits, if there is one. -/
def exponentChars (n : Numeral) : List Char :=
  match n.exponent with
  | none => []
  | some e => 'e' :: (if e < 0 then '-' else '+') :: Digits.chars e.natAbs

/-- The text of a numeral without its sign. -/
def chars (n : Numeral) : List Char := n.whole ++ (n.fracChars ++ n.exponentChars)

theorem chars_of_none (w f : List Char) :
    chars ⟨w, f, none⟩ = w ++ if f.isEmpty then [] else '.' :: f := by
  simp [chars, fracChars, exponentChars]

theorem chars_of_point {n : Numeral} (he : n.exponent = none) (hf : n.frac ≠ []) :
    n.chars = n.whole ++ '.' :: n.frac := by
  simp [chars, fracChars, exponentChars, he, hf]

/-- The number that a numeral writes, which is not rounded. -/
def value (n : Numeral) : ℚ :=
  Digits.value (n.whole ++ n.frac) * 10 ^ (n.exponent.getD 0 - n.frac.length)

/-- There are digits in front of the point, no zero in front of others, and behind
    the point there are only digits. -/
structure Ok (n : Numeral) : Prop where
  whole : ∀ c ∈ n.whole, c.isDigit = true
  frac : ∀ c ∈ n.frac, c.isDigit = true
  ne_nil : n.whole ≠ []
  zero : n.whole.head? = some '0' → n.whole = ['0']

theorem splitSign_exponent (e : Int) (cs : List Char) :
    Digits.splitSign ((if e < 0 then '-' else '+') :: cs) = (decide (e < 0), cs) := by
  split <;> simp_all [Digits.splitSign]

theorem ends_exponentChars (n : Numeral) (h : Digits.Ends rest) :
    Digits.Ends (n.exponentChars ++ rest) := by
  unfold exponentChars
  split
  · exact h
  · rintro c ⟨⟩
    rfl

theorem ends_fracChars (n : Numeral) (h : Digits.Ends rest) :
    Digits.Ends (n.fracChars ++ (n.exponentChars ++ rest)) := by
  unfold fracChars
  split
  · exact ends_exponentChars n h
  · rintro c ⟨⟩
    rfl

end Numeral

namespace Double

theorem splitFraction_chars {n : Numeral} (h : n.Ok) :
    splitFraction (n.fracChars ++ n.exponentChars) = (n.frac, n.exponentChars) := by
  unfold Numeral.fracChars
  split
  · next hf =>
    rw [List.isEmpty_iff.1 hf, List.nil_append]
    unfold Numeral.exponentChars
    split <;> rfl
  · have hexp : Digits.Ends (n.exponentChars ++ []) := n.ends_exponentChars nofun
    rw [List.append_nil] at hexp
    obtain ⟨hlead, hrest⟩ := Digits.leading_append h.frac hexp
    rw [List.cons_append, splitFraction, hlead, hrest]

theorem readExponent?_chars (n : Numeral) :
    readExponent? n.exponentChars = some (n.exponent.getD 0) := by
  unfold Numeral.exponentChars
  cases n.exponent with
  | none => rfl
  | some e =>
    simp only [readExponent?, Numeral.splitSign_exponent, Digits.isNumeral_chars,
      Digits.signedValue_chars]
    rfl

theorem readNumeral?_chars (negative : Bool) {n : Numeral} (h : n.Ok) :
    readNumeral? negative n.chars = some (nearest negative n.value) := by
  have hfrac : Digits.Ends (n.fracChars ++ (n.exponentChars ++ [])) := n.ends_fracChars nofun
  rw [List.append_nil] at hfrac
  obtain ⟨hlead, hrest⟩ := Digits.leading_append h.whole hfrac
  have hne : n.whole.isEmpty = false := by simpa using h.ne_nil
  simp only [readNumeral?, Numeral.chars, hlead, hrest, splitFraction_chars h, readExponent?_chars,
    Option.bind_eq_bind, Option.bind_some, hne, Bool.false_and, Bool.false_eq_true, if_false,
    ofDecimal_eq, Numeral.value]

end Double

/-! ## The numeral of a decimal -/

namespace Decimal

variable (d : Decimal)

/-- How many of the digits stand in front of the point. -/
def point : Int := ((Digits.chars d.digits).length : Int) + d.exponent

/-- The numeral of digits and point, with digits that stand behind the point of an
    integral value. -/
def positionalNumeral (integralFrac : List Char) : Numeral :=
  if 0 ≤ d.exponent then ⟨Digits.chars d.digits ++ zeros d.exponent.toNat, integralFrac, none⟩
  else if 0 < d.point then
    ⟨(Digits.chars d.digits).take d.point.toNat, (Digits.chars d.digits).drop d.point.toNat, none⟩
  else ⟨['0'], zeros (-d.point).toNat ++ Digits.chars d.digits, none⟩

/-- The numeral of one digit, the others, and an exponent. -/
def scientificNumeral : Numeral :=
  ⟨(Digits.chars d.digits).take 1, (Digits.chars d.digits).drop 1, some d.leadingExponent⟩

variable {d}

theorem length_chars_pos (n : Nat) : 0 < (Digits.chars n).length :=
  List.length_pos_iff.2 (Digits.chars_ne_nil n)

theorem drop_point_ne_nil (he : d.exponent < 0) : (Digits.chars d.digits).drop d.point.toNat ≠ [] := by
  have := length_chars_pos d.digits
  rw [ne_eq, List.drop_eq_nil_iff, point]
  omega

theorem positional_cases (d : Decimal) (integralEnd : List Char) :
    d.positional integralEnd =
      if 0 ≤ d.exponent then Digits.chars d.digits ++ zeros d.exponent.toNat ++ integralEnd
      else if 0 < d.point then
        (Digits.chars d.digits).take d.point.toNat ++
          '.' :: (Digits.chars d.digits).drop d.point.toNat
      else '0' :: '.' :: zeros (-d.point).toNat ++ Digits.chars d.digits := rfl

theorem positional_eq (d : Decimal) (f : List Char) :
    d.positional (if f.isEmpty then [] else '.' :: f) = (d.positionalNumeral f).chars := by
  rw [positional_cases, positionalNumeral]
  split
  · rw [Numeral.chars_of_none]
  · next he =>
    split
    · have hne := drop_point_ne_nil (not_le.1 he)
      rw [Numeral.chars_of_none, if_neg (mt List.isEmpty_iff.1 hne)]
    · have hne : zeros (-d.point).toNat ++ Digits.chars d.digits ≠ [] := by
        simp [Digits.chars_ne_nil]
      rw [Numeral.chars_of_none, if_neg (mt List.isEmpty_iff.1 hne)]
      rfl

/-- Digits stand behind the point of a number that is no integer, and of an
    integral one if they are asked for. -/
theorem frac_positionalNumeral {f : List Char} (h : d.exponent < 0 ∨ f ≠ []) :
    (d.positionalNumeral f).frac ≠ [] := by
  unfold positionalNumeral
  split
  · next he => exact h.resolve_left (not_lt.2 he)
  · next he =>
    split
    · exact drop_point_ne_nil (not_le.1 he)
    · simp [Digits.chars_ne_nil]

theorem exponent_positionalNumeral (f : List Char) : (d.positionalNumeral f).exponent = none := by
  unfold positionalNumeral
  split
  · rfl
  · split <;> rfl

theorem scientific_eq (d : Decimal) : d.scientific = d.scientificNumeral.chars := by
  rw [scientific, scientificNumeral, Numeral.chars, Numeral.fracChars, Numeral.exponentChars]
  rcases Digits.chars d.digits with _ | ⟨c, _ | ⟨c', cs⟩⟩ <;> rfl

/-! ## The rules for numerals -/

theorem isDigit_of_mem_zeros {n : Nat} {c : Char} (h : c ∈ zeros n) : c.isDigit = true := by
  rw [List.eq_of_mem_replicate h]
  rfl

theorem chars_eq_of_head? {n : Nat} (h : (Digits.chars n).head? = some '0') : n = 0 := by
  by_contra hn
  exact Digits.head?_chars hn h

theorem ok_positionalNumeral {f : List Char} (hf : ∀ c ∈ f, c.isDigit = true)
    (hd : d.digits = 0 → d.exponent ≤ 0) : (d.positionalNumeral f).Ok := by
  have hne := Digits.chars_ne_nil d.digits
  have hdigit : ∀ c ∈ Digits.chars d.digits, c.isDigit = true := fun c => Digits.isDigit_chars
  unfold positionalNumeral
  split
  · next he =>
    refine ⟨?_, hf, by simp [hne], fun h => ?_⟩
    · exact List.forall_mem_append.2 ⟨hdigit, fun c => isDigit_of_mem_zeros⟩
    · rw [List.head?_append_of_ne_nil _ hne] at h
      have hz := chars_eq_of_head? h
      have hexp : d.exponent = 0 := le_antisymm (hd hz) he
      rw [hz, hexp]
      rfl
  · split
    · next hp =>
      have htake : (Digits.chars d.digits).take d.point.toNat ≠ [] := by
        rw [ne_eq, List.take_eq_nil_iff]
        rintro (h | h)
        · omega
        · exact hne h
      refine ⟨fun c hc => hdigit c (List.mem_of_mem_take hc),
        fun c hc => hdigit c (List.mem_of_mem_drop hc), htake, fun h => ?_⟩
      rw [List.head?_take, if_neg (show ¬ d.point.toNat = 0 by omega)] at h
      -- zero has but one digit
      have hz : Digits.chars d.digits = ['0'] := by rw [chars_eq_of_head? h]; rfl
      have htail : (['0'] : List Char).take d.point.toNat = ['0'] :=
        List.take_of_length_le (by simp only [List.length_singleton]; omega)
      rw [hz, htail]
    · refine ⟨by simp, ?_, by simp, fun _ => rfl⟩
      exact List.forall_mem_append.2 ⟨fun c => isDigit_of_mem_zeros, hdigit⟩

theorem ok_scientificNumeral (d : Decimal) : d.scientificNumeral.Ok := by
  have hne := Digits.chars_ne_nil d.digits
  have hdigit : ∀ c ∈ Digits.chars d.digits, c.isDigit = true := fun c => Digits.isDigit_chars
  refine ⟨fun c hc => hdigit c (List.mem_of_mem_take hc), fun c hc => hdigit c (List.mem_of_mem_drop hc),
    ?_, fun h => ?_⟩
  · simpa [scientificNumeral] using hne
  · rw [scientificNumeral] at h ⊢
    cases hc : Digits.chars d.digits <;> simp_all

/-! ## Values -/

theorem value_positionalNumeral (d : Decimal) (k : Nat) :
    (d.positionalNumeral (zeros k)).value = d.value := by
  unfold positionalNumeral
  split
  · next he =>
    obtain ⟨e, he⟩ := Int.eq_ofNat_of_zero_le he
    simp only [Numeral.value, Decimal.value, zeros, he, Int.toNat_natCast, Digits.value_append,
      Digits.value_replicate_zero, Digits.value_chars, List.length_replicate, Option.getD_none]
    push_cast
    rw [zero_sub, zpow_neg, zpow_natCast, zpow_natCast]
    field_simp
    ring
  · next he =>
    have hlen := length_chars_pos d.digits
    split
    · next hp =>
      have hfrac : (0 : Int) - ((Digits.chars d.digits).drop d.point.toNat).length = d.exponent := by
        rw [List.length_drop]
        unfold point at *
        omega
      rw [Numeral.value, List.take_append_drop, Digits.value_chars, Option.getD_none, hfrac,
        Decimal.value]
    · next hp =>
      have hfrac : (0 : Int) - (zeros (-d.point).toNat ++ Digits.chars d.digits).length =
          d.exponent := by
        rw [List.length_append, zeros, List.length_replicate]
        unfold point at *
        omega
      have hvalue : Digits.value (['0'] ++ (zeros (-d.point).toNat ++ Digits.chars d.digits)) =
          d.digits := by
        rw [← List.append_assoc, Digits.value_append, Digits.value_chars]
        have hz := Digits.value_replicate_zero ((-d.point).toNat + 1)
        rw [List.replicate_succ] at hz
        rw [zeros, List.singleton_append, hz, zero_mul, zero_add]
      rw [Numeral.value, hvalue, Option.getD_none, hfrac, Decimal.value]

theorem value_scientificNumeral (d : Decimal) : d.scientificNumeral.value = d.value := by
  have hlen := length_chars_pos d.digits
  have hexp : d.leadingExponent - (((Digits.chars d.digits).drop 1).length : Int) = d.exponent := by
    rw [List.length_drop, leadingExponent]
    omega
  rw [Numeral.value, scientificNumeral, List.take_append_drop, Digits.value_chars, Option.getD_some,
    hexp, Decimal.value]

end Decimal

/-! ## Texts of numbers -/

namespace Double

variable {x : Double}

/-- The decimal that a number is written as. -/
def written (x : Double) (tie : Decimal.Tie) : Decimal := if x.isZero then ⟨0, 0⟩ else x.shortest tie

theorem nearest_written (hx : x.isFinite = true) (tie : Decimal.Tie) :
    nearest x.isNegative (x.written tie).value = x := by
  unfold written
  split
  · next hz =>
    rw [Decimal.value, Nat.cast_zero, zero_mul, ← value_of_isZero hz]
    exact nearest_value hx
  · exact nearest_shortest hx tie

theorem exponent_written_le (hx : x.isFinite = true) {tie : Decimal.Tie}
    (h : (x.written tie).digits = 0) : (x.written tie).exponent ≤ 0 := by
  unfold written at *
  split
  · exact le_rfl
  · next hz =>
    rw [if_neg hz] at h
    exact absurd h (digits_shortest_ne_zero hx (by simpa using hz) tie)

/-- The sign of a number, if that is a minus. -/
def signChars (x : Double) : List Char := if x.isNegative then ['-'] else []

theorem toText_eq (hx : x.isFinite = true) (style : NumberStyle) :
    (x.toText style).toList = x.signChars ++
      if style.positional (x.written style.tie).leadingExponent then
        (x.written style.tie).positional style.integralEnd
      else (x.written style.tie).scientific := by
  have hn : x.isNaN = false := by
    simp only [isFinite, isNaN, decide_eq_true_eq, decide_eq_false_iff_not] at *
    omega
  simp only [toText, hn, hx, Bool.false_eq_true, if_false, Bool.not_true, String.toList_ofList]
  rfl

/-- The numeral that follows the sign, with zeros behind the point of an integral
    value. -/
def numeral (x : Double) (style : NumberStyle) (ends : Nat) : Numeral :=
  if style.positional (x.written style.tie).leadingExponent then
    (x.written style.tie).positionalNumeral (Decimal.zeros ends)
  else (x.written style.tie).scientificNumeral

/-- How many zeros stand behind the point of an integral value. -/
def EndsIn (style : NumberStyle) (ends : Nat) : Prop :=
  style.integralEnd = if (Decimal.zeros ends).isEmpty then [] else '.' :: Decimal.zeros ends

theorem endsIn_plain : EndsIn .plain 0 := rfl

theorem endsIn_json : EndsIn .json 1 := rfl

variable {style : NumberStyle} {ends : Nat}

theorem toText_numeral (hx : x.isFinite = true) (hs : EndsIn style ends) :
    (x.toText style).toList = x.signChars ++ (x.numeral style ends).chars := by
  rw [toText_eq hx, numeral, hs]
  split
  · rw [Decimal.positional_eq]
  · rw [Decimal.scientific_eq]

theorem ok_numeral (hx : x.isFinite = true) : (x.numeral style ends).Ok := by
  unfold numeral
  split
  · exact Decimal.ok_positionalNumeral (fun c => Decimal.isDigit_of_mem_zeros)
      (exponent_written_le hx)
  · exact Decimal.ok_scientificNumeral _

theorem nearest_numeral (hx : x.isFinite = true) :
    nearest x.isNegative (x.numeral style ends).value = x := by
  have hvalue : (x.numeral style ends).value = (x.written style.tie).value := by
    unfold numeral
    split
    · exact Decimal.value_positionalNumeral _ ends
    · exact Decimal.value_scientificNumeral _
  rw [hvalue, nearest_written hx]

/-! ## Reading texts of numbers -/

theorem toLower_of_isDigit {c : Char} (h : c.isDigit = true) : c.toLower = c := by
  simp only [Char.isDigit, Bool.and_eq_true, decide_eq_true_eq, UInt32.le_iff_toNat_le, ge_iff_le] at h
  rw [Char.toLower, dif_neg]
  simp only [ge_iff_le, UInt32.le_iff_toNat_le]
  rintro ⟨h', -⟩
  have : (65 : Nat) ≤ c.val.toNat := h'
  have : c.val.toNat ≤ 57 := h.2
  omega

theorem exists_chars_eq_cons {n : Numeral} (h : n.Ok) :
    ∃ c cs, n.chars = c :: cs ∧ c.isDigit = true := by
  obtain ⟨c, cs, hw⟩ := List.exists_cons_of_ne_nil h.ne_nil
  exact ⟨c, _, by rw [Numeral.chars, hw, List.cons_append], h.whole c (by simp [hw])⟩

theorem splitSign_signChars (x : Double) {n : Numeral} (h : n.Ok) (rest : List Char) :
    Digits.splitSign (x.signChars ++ (n.chars ++ rest)) = (x.isNegative, n.chars ++ rest) := by
  obtain ⟨c, cs, hc, hd⟩ := exists_chars_eq_cons h
  unfold signChars
  cases x.isNegative with
  | true => rfl
  | false =>
    rw [hc]
    exact Digits.splitSign_of_isDigit hd _

/-- The text of a finite number is read as the number. -/
theorem ofText?_toText (hx : x.isFinite = true) (hs : EndsIn style ends) :
    ofText? (x.toText style) = some x := by
  have hok : (x.numeral style ends).Ok := ok_numeral hx
  have hsign := splitSign_signChars x hok []
  rw [List.append_nil] at hsign
  obtain ⟨c, cs, hc, hd⟩ := exists_chars_eq_cons hok
  -- no digit is a letter of the other names
  have hname (l : Char) (ls : List Char) (hl : l.isDigit = false) :
      ((x.numeral style ends).chars.map Char.toLower == l :: ls) = false := by
    rw [hc, List.map_cons, toLower_of_isDigit hd, beq_eq_false_iff_ne]
    rintro ⟨⟩
    rw [hd] at hl
    cases hl
  rw [ofText?, toText_numeral hx hs, hsign]
  simp only [hname 'i' ['n', 'f'] rfl, hname 'i' ['n', 'f', 'i', 'n', 'i', 't', 'y'] rfl,
    hname 'n' ['a', 'n'] rfl, Bool.or_self, Bool.false_eq_true, if_false]
  rw [readNumeral?_chars _ hok, nearest_numeral hx]

end Double

end OpenMath
