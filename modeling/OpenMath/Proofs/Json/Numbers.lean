/-
  Reading back the text of a number.

  An integer is written as its digits, and read as an integer if these fit 64 bits.
  A double is written with a point or an exponent, which keeps it from being read as
  an integer, but it may be read as one of its neighbours.

  * `unsigned_chars`, `value_chars`: a numeral is read by its parts;
  * `readsBack_integer`: an integer is read as itself;
  * `RoundTrips`, `readsBack_real`: the doubles that are read as themselves;
  * `roundTrips_of_short`: the doubles with few digits are among them.
-/
import Mathlib
import OpenMath.Proofs.Double.Numerals
import OpenMath.Proofs.Double.Products
import OpenMath.Proofs.Json.Reading

namespace OpenMath.Json.Parser

variable {n : Numeral} {rest : List Char}

/-! ## Numerals -/

theorem Closes.ends (h : Closes rest) : Digits.Ends rest := by
  intro c hc
  obtain rfl | rfl | rfl := h c hc <;> rfl

theorem isWhole_of_ok (h : n.Ok) : isWhole n.whole = true := by
  have hlen : n.whole.head? = some '0' → n.whole.length = 1 := fun hz => by rw [h.zero hz]; rfl
  simp only [isWhole, Bool.and_eq_true, Bool.not_eq_true', List.isEmpty_eq_false_iff, Bool.or_eq_true,
    bne_iff_ne, beq_iff_eq]
  exact ⟨h.ne_nil, Decidable.not_or_of_imp hlen⟩

theorem exponentChars_ne_point (n : Numeral) (hr : Closes rest) (cs : List Char) :
    n.exponentChars ++ rest ≠ '.' :: cs := by
  unfold Numeral.exponentChars
  split
  · rintro rfl
    rcases hr '.' rfl with h | h | h <;> cases h
  · rintro ⟨⟩

theorem fraction_chars (h : n.Ok) (hr : Closes rest) :
    fraction (n.fracChars ++ (n.exponentChars ++ rest)) = some (n.frac, n.exponentChars ++ rest) := by
  have hends := n.ends_exponentChars hr.ends
  unfold Numeral.fracChars
  split
  · next hf =>
    rw [List.isEmpty_iff.1 hf, List.nil_append, fraction]
    exact exponentChars_ne_point n hr
  · next hf =>
    obtain ⟨hlead, hrest⟩ := Digits.leading_append h.frac hends
    rw [List.cons_append, fraction, hlead, hrest, if_neg hf]

/-- The exponent is read. -/
theorem exponent_chars (n : Numeral) (hr : Closes rest) :
    exponent (n.exponentChars ++ rest) = some (n.exponent, rest) := by
  unfold Numeral.exponentChars
  split
  · next he =>
    rw [he, List.nil_append]
    cases rest with
    | nil => rfl
    | cons c cs =>
      rw [exponent, if_neg]
      obtain rfl | rfl | rfl := hr c rfl <;> decide
  · next e he =>
    obtain ⟨hlead, hrest⟩ := Digits.leading_append
      (fun c (hc : c ∈ Digits.chars e.natAbs) => Digits.isDigit_chars hc) hr.ends
    have hne : (Digits.chars e.natAbs).isEmpty = false := by simpa using Digits.chars_ne_nil _
    rw [he, List.cons_append, List.cons_append, exponent]
    simp only [Numeral.splitSign_exponent, hlead, hrest, hne, Digits.signedValue_chars]
    rfl

/-- A numeral is read by its parts. -/
theorem unsigned_chars (h : n.Ok) (negative : Bool) (hr : Closes rest) :
    unsigned negative (n.chars ++ rest) =
      (ofParts? negative n.whole n.frac n.exponent).map fun x => (x, rest) := by
  have hends := n.ends_fracChars hr.ends
  obtain ⟨hlead, hrest⟩ := Digits.leading_append h.whole hends
  rw [Numeral.chars, List.append_assoc, List.append_assoc, unsigned, hlead, hrest,
    if_pos (isWhole_of_ok h), fraction_chars h hr]
  simp only [exponent_chars n hr, Option.bind_eq_bind, Option.bind_some]
  cases ofParts? negative n.whole n.frac n.exponent <;> rfl

/-- A numeral with a sign is read as a number. -/
theorem number_chars (h : n.Ok) (negative : Bool) (hr : Closes rest) :
    number ((if negative then ['-'] else []) ++ (n.chars ++ rest)) =
      (ofParts? negative n.whole n.frac n.exponent).map fun x => (x, rest) := by
  rw [← unsigned_chars h negative hr]
  cases negative with
  | true => rfl
  | false =>
    obtain ⟨c, cs, hc, hd⟩ := Double.exists_chars_eq_cons h
    rw [hc]
    show number (c :: (cs ++ rest)) = unsigned false (c :: (cs ++ rest))
    unfold number
    split
    · next e => cases e; cases hd
    · rfl

theorem exists_signed_chars (h : n.Ok) (negative : Bool) :
    ∃ c cs, (if negative then ['-'] else []) ++ n.chars = c :: cs ∧ (c.isDigit = true ∨ c = '-') := by
  obtain ⟨c, cs, hc, hd⟩ := Double.exists_chars_eq_cons h
  cases negative with
  | true => exact ⟨'-', n.chars, rfl, .inr rfl⟩
  | false => exact ⟨c, cs, hc, .inl hd⟩

/-- As a value a numeral is its number. -/
theorem value_chars (h : n.Ok) (negative : Bool) (depth : Nat) (hr : Closes rest) :
    value depth ((if negative then ['-'] else []) ++ (n.chars ++ rest)) =
      (ofParts? negative n.whole n.frac n.exponent).map fun x => (.number x, rest) := by
  obtain ⟨c, cs, hc, hd⟩ := exists_signed_chars h negative
  have hread := number_chars h negative hr
  rw [← List.append_assoc, hc, List.cons_append] at hread ⊢
  rw [value_of_number hd, hread, Option.map_map]
  rfl

theorem readsBack_of_numeral {x : Number} (negative : Bool) (h : n.Ok)
    (hc : x.chars = (if negative then ['-'] else []) ++ n.chars)
    (hx : ofParts? negative n.whole n.frac n.exponent = some x) : ReadsBack x where
  start := hc ▸ exists_signed_chars h negative
  reads rest hr := by
    rw [hc, List.append_assoc, number_chars h negative hr, hx]
    rfl

/-! ## Integers -/

theorem le_ofDigitChars (ds : List Char) (m : Nat) : m ≤ Nat.ofDigitChars 10 ds m := by
  rw [Nat.ofDigitChars_eq_ofDigitChars_zero]
  exact (Nat.le_mul_of_pos_left m (by positivity)).trans (Nat.le_add_right ..)

theorem absorb_of_lt {ds : List Char} {m : Nat} (h : Nat.ofDigitChars 10 ds m < UInt64.size) :
    absorb m ds = (Nat.ofDigitChars 10 ds m, []) := by
  induction ds generalizing m with
  | nil => rw [absorb, Nat.ofDigitChars_nil]
  | cons d ds ih =>
    rw [← List.singleton_append, Nat.ofDigitChars_append] at h ⊢
    rw [List.singleton_append, absorb, if_pos ((le_ofDigitChars ds _).trans_lt h), ih h]

theorem ok_chars (k : Nat) : (⟨Digits.chars k, [], none⟩ : Numeral).Ok where
  whole _ := Digits.isDigit_chars
  frac _ h := by cases h
  ne_nil := Digits.chars_ne_nil k
  zero h := by
    rw [Decimal.chars_eq_of_head? h]
    rfl

/-- An integer is read as itself if it fits 64 bits, with or without a sign. -/
theorem readsBack_integer {k : Int} (hmin : Int64.minValue.toInt ≤ k) (hmax : k < UInt64.size) :
    ReadsBack (.integer k) := by
  refine readsBack_of_numeral (n := ⟨Digits.chars k.natAbs, [], none⟩) (decide (k < 0))
    (ok_chars _) ?_ ?_
  · simp only [Number.chars, Digits.ofInt, decide_eq_true_eq]
    split <;> simp [Numeral.chars, Numeral.fracChars, Numeral.exponentChars]
  · have hvalue : Nat.ofDigitChars 10 (Digits.chars k.natAbs) 0 = k.natAbs := Digits.value_chars _
    have hlt : k.natAbs < UInt64.size := by
      have : Int64.minValue.toInt = -2 ^ 63 := rfl
      have : UInt64.size = 2 ^ 64 := rfl
      omega
    have habsorb : absorb 0 (Digits.chars k.natAbs) = (k.natAbs, []) := by
      rw [absorb_of_lt (by rwa [hvalue]), hvalue]
    rw [ofParts?, habsorb]
    refine congrArg some ?_
    rw [ofWhole]
    by_cases h : k < 0
    · have he : -(k.natAbs : Int) = k := by omega
      rw [decide_eq_true h, if_pos rfl, he, if_pos ⟨by omega, hmin⟩]
    · have he : (k.natAbs : Int) = k := by omega
      rw [decide_eq_false h, if_neg (by decide), he]

/-! ## Doubles -/

theorem chars_real {x : Double} (h : x.isFinite = true) :
    (Number.real x).chars = (if x.isNegative then ['-'] else []) ++ (x.numeral .json 1).chars :=
  Double.toText_numeral h Double.endsIn_json

end Parser

/-- The text of a double is read as the double.  The doubles with few digits are like that, but
    not all: where the digits are rounded, and then what they are scaled to, the errors may add
    up. -/
def RoundTrips (x : Double) : Prop :=
  parse? (Json.number (.real x)).compact = some (.number (.real x))

namespace Parser

theorem parse?_real {x : Double} (h : x.isFinite = true) :
    parse? (Json.number (.real x)).compact = (ofParts? x.isNegative (x.numeral .json 1).whole
      (x.numeral .json 1).frac (x.numeral .json 1).exponent).map .number := by
  have hok : (x.numeral .json 1).Ok := Double.ok_numeral h
  have hclose : Closes [] := nofun
  have hvalue := value_chars hok x.isNegative maxDepth hclose
  rw [List.append_nil, ← chars_real h] at hvalue
  rw [parse?, compact, String.toList_ofList, chars, hvalue]
  cases ofParts? x.isNegative (x.numeral .json 1).whole (x.numeral .json 1).frac
    (x.numeral .json 1).exponent <;> rfl

/-- A double whose text is read as the double is read as itself, whatever follows it. -/
theorem readsBack_real {x : Double} (hx : x.isFinite = true) (h : RoundTrips x) :
    ReadsBack (.real x) := by
  rw [RoundTrips, parse?_real hx, Option.map_eq_some_iff] at h
  obtain ⟨m, hm, heq⟩ := h
  cases heq
  exact readsBack_of_numeral x.isNegative (Double.ok_numeral hx) (chars_real hx) hm

/-! ## Doubles with few digits -/

theorem powerOfTen_eq (k : Nat) : powerOfTen k = Double.ofInt (10 ^ k : Nat) := rfl

theorem value_powerOfTen {k : Nat} (hk : k ≤ 22) : (powerOfTen k).value = 10 ^ k := by
  have h : ∀ k < 23, (powerOfTen k).numerator = 10 ^ k * (powerOfTen k).denominator := by
    decide +kernel
  rw [Double.value_eq_div, div_eq_iff (Double.cast_denominator_ne_zero _), h k (by omega)]
  push_cast
  rfl

theorem isNegative_powerOfTen (k : Nat) : (powerOfTen k).isNegative = false := by
  rw [powerOfTen_eq, Double.ofInt_natCast, Double.isNegative_nearest]

/-- Digits of at most 53 bits are scaled by a small power of ten in one rounding. -/
theorem scale?_of_short {m : Nat} {e : Int} (hm : m < 2 ^ 53) (he : e.natAbs ≤ 22) :
    scale? (Double.ofInt m) e = some (Double.nearest false (m * 10 ^ e)) := by
  have hsign : (Double.ofInt m).isNegative = false := by
    rw [Double.ofInt_natCast, Double.isNegative_nearest]
  have hvalue := value_powerOfTen he
  rw [scale?, if_pos (he.trans (by decide))]
  rcases Int.lt_or_le e 0 with h | h
  · have hzero : (powerOfTen e.natAbs).isZero = false := by
      by_contra hz
      rw [Double.value_of_isZero (by simpa using hz)] at hvalue
      exact absurd hvalue (by positivity)
    have hexp : (10 : ℚ) ^ e = (10 ^ e.natAbs)⁻¹ := by
      rw [← zpow_natCast, ← zpow_neg]
      congr 1
      omega
    rw [if_pos h, Double.div_eq _ hzero, hsign, isNegative_powerOfTen, Double.value_ofInt hm, hvalue,
      hexp]
    rfl
  · have hexp : (10 : ℚ) ^ e = 10 ^ e.natAbs := by
      rw [← zpow_natCast]
      congr 1
      omega
    have hmul : (Double.ofInt m).mul (powerOfTen e.natAbs) = Double.nearest false (m * 10 ^ e) := by
      rw [Double.mul_eq, hsign, isNegative_powerOfTen, Double.value_ofInt hm, hvalue, hexp]
      rfl
    have hlt : (m * 10 ^ e.natAbs : ℚ) < 2 ^ (127 : Int) := by
      calc (m * 10 ^ e.natAbs : ℚ) < 2 ^ 53 * 10 ^ e.natAbs := by
            gcongr
            exact_mod_cast hm
        _ ≤ 2 ^ 53 * 10 ^ 22 := by gcongr; norm_num
        _ ≤ 2 ^ (127 : Int) := by norm_num
    have hnonneg : (0 : ℚ) ≤ m * 10 ^ e := by positivity
    have hpow : (2 : ℚ) ^ (127 : Int) < 2 ^ (1023 : Int) := zpow_lt_zpow_right₀ one_lt_two (by decide)
    rw [← hexp] at hlt
    have hfinite := Double.isFinite_nearest false hnonneg (hlt.trans hpow)
    simp only [if_neg (not_lt.2 h), hmul, hfinite, if_true]

/-- Digits that fit 64 bits, with a point or an exponent, are scaled once. -/
theorem ofParts?_of_lt {negative : Bool} {n : Numeral} (hp : (n.frac.isEmpty && n.exponent.isNone) = false)
    (hn : Digits.value (n.whole ++ n.frac) < UInt64.size) :
    ofParts? negative n.whole n.frac n.exponent =
      (scale? (Double.ofInt (Digits.value (n.whole ++ n.frac)))
        (n.exponent.getD 0 - n.frac.length)).map fun x => .real (x.withSign negative) := by
  have hlt : Nat.ofDigitChars 10 n.frac (Nat.ofDigitChars 10 n.whole 0) < UInt64.size := by
    rwa [← Nat.ofDigitChars_append]
  have hwhole : absorb 0 n.whole = (Nat.ofDigitChars 10 n.whole 0, []) :=
    absorb_of_lt ((le_ofDigitChars _ _).trans_lt hlt)
  have hfrac : absorb (Nat.ofDigitChars 10 n.whole 0) n.frac =
      (Digits.value (n.whole ++ n.frac), []) := by
    rw [absorb_of_lt hlt, Digits.value, Nat.ofDigitChars_append]
  have hexp : ((([] : List Char).length : Int) - (n.frac.length - ([] : List Char).length) +
      n.exponent.getD 0) = n.exponent.getD 0 - n.frac.length := by
    simp
    omega
  simp only [ofParts?, hwhole, hfrac, hexp, List.isEmpty_nil, Bool.true_and, hp, Bool.false_eq_true,
    if_false]

theorem point_numeral (x : Double) :
    ((x.numeral .json 1).frac.isEmpty && (x.numeral .json 1).exponent.isNone) = false := by
  unfold Double.numeral
  split
  · have := Decimal.frac_positionalNumeral (d := x.written NumberStyle.json.tie)
      (f := Decimal.zeros 1) (.inr (by decide))
    rw [Bool.and_eq_false_iff]
    exact .inl (by simpa using this)
  · exact Bool.and_false _

/-- A double is read back if the digits of its text make 53 bits at most, and its exponent,
    which counts from behind them, is small. -/
theorem roundTrips_of_short {x : Double} (hx : x.isFinite = true)
    (hm : Digits.value ((x.numeral .json 1).whole ++ (x.numeral .json 1).frac) < 2 ^ 53)
    (he : ((x.numeral .json 1).exponent.getD 0 - (x.numeral .json 1).frac.length).natAbs ≤ 22) :
    RoundTrips x := by
  have hnear : Double.nearest x.isNegative (x.numeral .json 1).value = x := Double.nearest_numeral hx
  rw [Numeral.value] at hnear
  rw [RoundTrips, parse?_real hx, ofParts?_of_lt (point_numeral x) (hm.trans (by decide)),
    scale?_of_short hm he, Option.map_some, Option.map_some, Double.withSign_nearest, hnear]

/-- Not every double is read back.  The digits of this one make 54 bits: they are rounded, and so
    is their quotient by a power of ten. -/
theorem exists_not_roundTrips : ∃ x : Double, x.isFinite = true ∧ ¬ RoundTrips x := by
  refine ⟨⟨4606711114233179263⟩, by decide, ?_⟩
  have hn : (⟨4606711114233179263⟩ : Double).numeral .json 1 =
      ⟨['0'], "9476746818285305".toList, none⟩ := by decide +kernel
  have hscale : scale? (Double.ofInt 9476746818285305) (-16) = some ⟨4606711114233179262⟩ := by
    rw [scale?]
    decide +kernel
  have hdigits : Digits.value (['0'] ++ "9476746818285305".toList) = 9476746818285305 := by
    decide +kernel
  have hexp : ((none : Option Int).getD 0 - "9476746818285305".toList.length) = -16 := by
    decide +kernel
  have hparts := @ofParts?_of_lt false _ (hn ▸ point_numeral _) (by rw [hdigits]; decide)
  rw [hdigits, hexp, Nat.cast_ofNat, hscale] at hparts
  have hsign : (⟨4606711114233179263⟩ : Double).isNegative = false := by decide
  rw [RoundTrips, parse?_real (by decide), hn, hsign, hparts]
  simp only [Option.map_some, Option.some.injEq, Json.number.injEq, Number.real.injEq]
  decide +kernel

end Parser

end OpenMath.Json
