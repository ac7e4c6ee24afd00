/-
  Integers as literals.

  The literal of an integer is read as a number that fits 64 bits, with or without a sign, or
  else as a double that is near to it.  The first is the integer itself; the second is an
  integer too, but in general another one.  It need not be the nearest double: the digits that
  do not fit 64 bits are passed over, and what is left of them is rounded twice.

  * `Literal`: the literals, with their texts and the integers that they write;
  * `approximation`: the double of an integer that does not fit 64 bits;
  * `held?`: the integer that is left of an integer in a number;
  * `absorb_eq`: the digits that are passed over;
  * `map_ofNumber?_ofParts?`: the integer of the number that digits are read as;
  * `Literal.parse?_text`, `parse?_integerObject`: reading a literal, by itself and as the value
    of an integer object.
-/
import OpenMath.Proofs.Double.Products
import OpenMath.Proofs.Integer
import OpenMath.Proofs.Json.Numbers

namespace OpenMath.Json

/-! ## Literals -/

/-- The literal of an integer: digits, no zero in front of others, behind a minus or not. -/
structure Literal where
  negative : Bool
  digits : List Char
  numeral : Digits.isNumeral digits = true
  zero : digits.head? = some '0' → digits = ['0']

namespace Literal

/-- The characters of a literal, the sign in front. -/
def chars (l : Literal) : List Char := (if l.negative then ['-'] else []) ++ l.digits

/-- A literal as a text. -/
def text (l : Literal) : String := String.ofList l.chars

/-- The integer that the literal writes. -/
def value (l : Literal) : Int := Digits.signedValue l.negative l.digits

theorem ok (l : Literal) : (⟨l.digits, [], none⟩ : Numeral).Ok where
  whole := (Digits.isNumeral_iff.1 l.numeral).2
  frac _ h := by cases h
  ne_nil := (Digits.isNumeral_iff.1 l.numeral).1
  zero := l.zero

theorem splitSign_chars (l : Literal) : Digits.splitSign l.chars = (l.negative, l.digits) := by
  unfold chars
  cases l.negative with
  | true => rfl
  | false => exact Digits.splitSign_of_isNumeral l.numeral

theorem isIntegerText_text (l : Literal) : Identifier.isIntegerText l.text = true := by
  rw [Identifier.isIntegerText, text, String.toList_ofList, splitSign_chars]
  exact l.numeral

theorem readText?_text (l : Literal) : Integer.readText? l.text = some l.value := by
  rw [Integer.readText?, if_pos l.isIntegerText_text, text, String.toList_ofList, splitSign_chars]
  rfl

end Literal

/-! ## Numbers -/

theorem exists_div_pow_lt (n : Nat) : ∃ k, n / 10 ^ k < UInt64.size :=
  ⟨n, by rw [Nat.div_eq_of_lt (Nat.lt_pow_self (by decide))]; decide⟩

/-- How many digits at the end of a number are too many for 64 bits. -/
def surplus (n : Nat) : Nat := Nat.find (exists_div_pow_lt n)

/-- The double that an integer is held as which does not fit 64 bits.  The digits at its end that
    are too many are taken for zeros.  Those in front of them and the power of ten that the
    zeros make are rounded, each by itself, and their product is rounded again; where the power
    is infinite, so is the product. -/
def approximation (n : Int) : Double :=
  (Double.ofInt (n.tdiv (10 ^ surplus n.natAbs : Nat))).mul
    (Double.ofInt (10 ^ surplus n.natAbs : Nat))

/-- What is held for an integer in a number: the integer if it fits 64 bits, with or without a
    sign, and otherwise its approximation, which is an integer unless it is infinite. -/
def held? (n : Int) : Option Int :=
  if Int64.minValue.toInt ≤ n ∧ n < UInt64.size then some n else (approximation n).toInt?

theorem surplus_eq_iff {n k : Nat} :
    surplus n = k ↔ n / 10 ^ k < UInt64.size ∧ ∀ j < k, UInt64.size ≤ n / 10 ^ j := by
  simp only [surplus, Nat.find_eq_iff, not_lt]

theorem surplus_of_lt {n : Nat} (h : n < UInt64.size) : surplus n = 0 :=
  surplus_eq_iff.2 ⟨by simpa using h, fun j hj => absurd hj (Nat.not_lt_zero j)⟩

namespace Parser

variable {ds : List Char}

/-- Digits behind a number are taken off by as many divisions. -/
theorem ofDigitChars_div (hd : ∀ d ∈ ds, d.isDigit = true) (n : Nat) :
    Nat.ofDigitChars 10 ds n / 10 ^ ds.length = n := by
  induction ds generalizing n with
  | nil => simp
  | cons d ds ih =>
    have hlt : d.toNat - '0'.toNat < 10 := by
      have hdigit := hd d (List.mem_cons_self ..)
      simp only [Char.isDigit, Bool.and_eq_true, decide_eq_true_eq, UInt32.le_iff_toNat_le] at hdigit
      have : d.val.toNat ≤ 57 := hdigit.2
      show d.val.toNat - 48 < 10
      omega
    rw [Nat.ofDigitChars_cons, List.length_cons, pow_succ, ← Nat.div_div_eq_div_mul,
      ih fun e he => hd e (List.mem_cons_of_mem d he)]
    omega

/-- The digits that are left over are those that are too many, and the others make the number. -/
theorem absorb_eq (hd : ∀ d ∈ ds, d.isDigit = true) {n : Nat} (hn : n < UInt64.size) :
    surplus (Nat.ofDigitChars 10 ds n) = (absorb n ds).2.length ∧
      Nat.ofDigitChars 10 ds n / 10 ^ (absorb n ds).2.length = (absorb n ds).1 := by
  induction ds generalizing n with
  | nil => exact ⟨surplus_of_lt hn, by simp [absorb]⟩
  | cons d ds ih =>
    have hcons : Nat.ofDigitChars 10 (d :: ds) n = Nat.ofDigitChars 10 ds (Nat.ofDigitChars 10 [d] n) :=
      Nat.ofDigitChars_append (l := [d]) n
    have hrest := fun e he => hd e (List.mem_cons_of_mem d he)
    rw [absorb]
    split
    · next hlt =>
      rw [hcons]
      exact ih hrest hlt
    · next hge =>
      -- the digits from here on are left over, and one less would be one too many
      have hdiv : Nat.ofDigitChars 10 (d :: ds) n / 10 ^ (d :: ds).length = n := ofDigitChars_div hd n
      refine ⟨surplus_eq_iff.2 ⟨by rwa [hdiv], fun j hj => ?_⟩, hdiv⟩
      calc UInt64.size ≤ Nat.ofDigitChars 10 [d] n := not_lt.1 hge
        _ = Nat.ofDigitChars 10 (d :: ds) n / 10 ^ ds.length := by rw [hcons, ofDigitChars_div hrest]
        _ ≤ Nat.ofDigitChars 10 (d :: ds) n / 10 ^ j :=
          Nat.div_le_div_left (Nat.pow_le_pow_right (by decide) (by simpa using hj)) (by positivity)

/-! ## Doubles of integers -/

theorem isFinite_powerOfTen {k : Nat} (hk : k ≤ 308) : (powerOfTen k).isFinite = true := by
  have h : ∀ k < 309, (powerOfTen k).isFinite = true := by decide +kernel
  exact h k (Nat.lt_succ_of_le hk)

theorem powerOfTen_of_lt {k : Nat} (hk : 308 < k) : powerOfTen k = Double.infinity false := by
  rw [powerOfTen_eq, Double.ofInt_natCast]
  refine Double.nearest_large false ?_
  calc (2 : ℚ) ^ (1024 : Int) ≤ 10 ^ (309 : Int) := by
        exact_mod_cast (by decide +kernel : 2 ^ 1024 ≤ 10 ^ 309)
    _ ≤ 10 ^ (k : Int) := zpow_le_zpow_right₀ (by norm_num) (by omega)
    _ = (10 ^ k : Nat) := by push_cast; rfl

theorem exists_value_ofInt {n : Nat} (h : (Double.ofInt n).isFinite = true) :
    ∃ m : Nat, (Double.ofInt n).value = m := by
  rw [Double.ofInt_natCast] at h ⊢
  exact Double.exists_value_nearest_natCast false n h

/-- Digits that make no zero are scaled by a power of ten to the rounded product, if this is
    finite, and it is an integer then. -/
theorem scale?_ofInt {s : Nat} (hs : s ≠ 0) (hlt : s < UInt64.size) (k : Nat) :
    scale? (Double.ofInt s) k =
      (if ((Double.ofInt s).mul (powerOfTen k)).isFinite then
        some ((Double.ofInt s).mul (powerOfTen k)) else none) ∧
    (((Double.ofInt s).mul (powerOfTen k)).isFinite = true →
      ∃ m : Nat, ((Double.ofInt s).mul (powerOfTen k)).value = m) := by
  obtain ⟨m, hm⟩ := exists_value_ofInt (Double.isFinite_ofInt hlt)
  have hzero : (Double.ofInt s).isZero = false := by
    rw [Double.ofInt_natCast]
    exact Double.isZero_nearest false (by exact_mod_cast Nat.one_le_iff_ne_zero.2 hs)
  rw [scale?]
  by_cases hk : k ≤ 308
  · obtain ⟨p, hp⟩ : ∃ p : Nat, (powerOfTen k).value = p :=
      exists_value_ofInt (isFinite_powerOfTen hk)
    refine ⟨?_, fun h => ?_⟩
    · rw [Int.natAbs_natCast, if_pos hk, if_neg (by omega)]
    · rw [Double.mul_eq, hm, hp, ← Nat.cast_mul] at h ⊢
      exact Double.exists_value_nearest_natCast _ _ h
  · -- the power is infinite, and so is the product
    have hone : (1 : ℚ) ≤ (Double.ofInt s).value := by
      have hpos := Double.value_pos hzero
      rw [hm] at hpos ⊢
      exact_mod_cast hpos
    have hinf : (Double.infinity (Double.ofInt s).isNegative).isFinite = false := by
      cases (Double.ofInt s).isNegative <;> rfl
    rw [powerOfTen_of_lt (not_le.1 hk), Double.mul_infinity hone, hinf]
    refine ⟨?_, fun h => absurd h Bool.false_ne_true⟩
    rw [Int.natAbs_natCast, if_neg hk, hzero, if_neg (by decide), if_pos (by omega), if_neg (by decide)]

/-! ## Integers of doubles -/

/-- A double that is an integer if it is finite is the number of that integer, or none. -/
theorem map_ofNumber?_real {x : Double} (h : x.isFinite = true → ∃ m : Nat, x.value = m) :
    (if x.isFinite then some (Number.real x) else none).map Integer.ofNumber? =
      x.toInt?.map fun k => some (Integer.ofInt k) := by
  split
  · next hx =>
    obtain ⟨m, hm⟩ := h hx
    obtain ⟨k, hk⟩ := Option.isSome_iff_exists.1 (Double.toInt?_isSome hx hm)
    simp [Integer.ofNumber?, Integer.ofDouble?_eq, hk]
  · next hx =>
    cases hk : x.toInt? with
    | none => rfl
    | some k => exact absurd (Double.isFinite_of_toInt? (by rw [hk]; rfl)) hx

theorem ofInt_signed (negative : Bool) {m : Nat} (hm : m ≠ 0) :
    Double.ofInt (if negative then -(m : Int) else m) = (Double.ofInt m).withSign negative := by
  have hsign : decide ((if negative then -(m : Int) else m) < 0) = negative := by
    cases negative with
    | true => simpa using Nat.pos_of_ne_zero hm
    | false => simp
  have habs : (if negative then -(m : Int) else m).natAbs = m := by
    cases negative <;> simp
  rw [Double.ofInt_eq_nearest, hsign, habs, Double.ofInt_natCast, Double.withSign_nearest]

theorem div_surplus_ne_zero {m : Nat} (hm : m ≠ 0) : m / 10 ^ surplus m ≠ 0 := by
  obtain ⟨-, hleast⟩ := surplus_eq_iff.1 (rfl : surplus m = surplus m)
  cases hk : surplus m with
  | zero => simpa using hm
  | succ k =>
    have hsize : UInt64.size ≤ m / 10 ^ k := hleast k (by omega)
    have : 10 ≤ UInt64.size := by decide
    rw [pow_succ, ← Nat.div_div_eq_div_mul]
    omega

/-- The approximation of an integer has the sign of the integer. -/
theorem approximation_eq (negative : Bool) {m : Nat} (hm : m ≠ 0) :
    approximation (if negative then -(m : Int) else m) =
      ((Double.ofInt (m / 10 ^ surplus m : Nat)).mul (powerOfTen (surplus m))).withSign negative := by
  have habs : (if negative then -(m : Int) else m).natAbs = m := by
    cases negative <;> simp
  have hdiv : (if negative then -(m : Int) else m).tdiv (10 ^ surplus m : Nat) =
      if negative then -((m / 10 ^ surplus m : Nat) : Int) else (m / 10 ^ surplus m : Nat) := by
    cases negative with
    | true => exact (Int.neg_tdiv ..).trans (congrArg _ (Int.ofNat_tdiv ..).symm)
    | false => exact (Int.ofNat_tdiv ..).symm
  rw [approximation, habs, hdiv, ofInt_signed negative (div_surplus_ne_zero hm), ← powerOfTen_eq,
    Double.withSign_mul _ _ (isNegative_powerOfTen _)]

/-- Digits that fit 64 bits are the integer, unless they follow a minus and the integer is too
    small; what they are then is the approximation of the integer. -/
theorem map_ofNumber?_ofWhole (negative : Bool) {m : Nat} (hm : m < UInt64.size) :
    some (Integer.ofNumber? (ofWhole negative m)) =
      (held? (if negative then -(m : Int) else m)).map fun k => some (Integer.ofInt k) := by
  have hmin : Int64.minValue.toInt ≤ 0 := by decide
  have hsize : (0 : Int) < UInt64.size := by decide
  cases negative with
  | false =>
    simp only [ofWhole, held?, Bool.false_eq_true, if_false]
    rw [if_pos ⟨by omega, by exact_mod_cast hm⟩]
    rfl
  | true =>
    simp only [ofWhole, held?, if_true]
    rcases eq_or_ne m 0 with rfl | hne
    · rw [if_neg (fun h => h.1 rfl)]
      decide +kernel
    · by_cases h : Int64.minValue.toInt ≤ -(m : Int)
      · rw [if_pos ⟨hne, h⟩, if_pos ⟨h, by omega⟩]
        rfl
      · rw [if_neg (fun h' => h h'.2), if_neg (fun h' => h h'.1)]
        have hsurplus := surplus_of_lt hm
        have hfinite : (Double.ofInt m).isFinite = true := Double.isFinite_ofInt hm
        have happ : approximation (-m) = (Double.ofInt m).withSign true := by
          have := approximation_eq true hne
          rwa [hsurplus, pow_zero, Nat.div_one, powerOfTen_eq, pow_zero, Nat.cast_one,
            Double.mul_one_of_isFinite hfinite] at this
        have hvalue : ∃ k : Nat, ((Double.ofInt m).withSign true).value = k := by
          rw [Double.value_withSign]
          exact exists_value_ofInt hfinite
        rw [happ, ← map_ofNumber?_real fun _ => hvalue, Double.isFinite_withSign, if_pos hfinite]
        rfl

/-- The number that digits are read as is that of the integer that is held for them. -/
theorem map_ofNumber?_ofParts? (negative : Bool) (hd : ∀ d ∈ ds, d.isDigit = true) :
    (ofParts? negative ds [] none).map Integer.ofNumber? =
      (held? (Digits.signedValue negative ds)).map fun k => some (Integer.ofInt k) := by
  obtain ⟨hsurplus, hdiv⟩ := absorb_eq hd (by decide : 0 < UInt64.size)
  rw [ofParts?, Digits.signedValue, Digits.value]
  generalize Nat.ofDigitChars 10 ds 0 = m at *
  generalize absorb 0 ds = p at *
  obtain ⟨s, left⟩ := p
  obtain ⟨hfits, hleast⟩ := surplus_eq_iff.1 hsurplus
  simp only at hdiv hfits hleast hsurplus ⊢
  cases left with
  | nil =>
    simp only [List.length_nil, pow_zero, Nat.div_one] at hdiv hfits
    rw [← hdiv]
    exact map_ofNumber?_ofWhole negative hfits
  | cons d left =>
    have hlarge : UInt64.size ≤ m := by simpa using hleast 0 (by simp)
    have hne : m ≠ 0 := by
      have : 0 < UInt64.size := by decide
      omega
    have hrange : ¬ (Int64.minValue.toInt ≤ (if negative then -(m : Int) else m) ∧
        (if negative then -(m : Int) else m) < UInt64.size) := by
      have : Int64.minValue.toInt = -2 ^ 63 := rfl
      have : UInt64.size = 2 ^ 64 := rfl
      cases negative <;> simp <;> omega
    have hzero : s ≠ 0 := by
      rw [← hdiv, ← hsurplus]
      exact div_surplus_ne_zero hne
    obtain ⟨hscale, hvalue⟩ := scale?_ofInt hzero (hdiv ▸ hfits) (d :: left).length
    have hexp : ((d :: left).length - (([] : List Char).length - ([] : List Char).length) +
        (none : Option Int).getD 0 : Int) = (d :: left).length := by simp
    simp only [absorb, List.isEmpty_cons, Bool.false_and, Bool.false_eq_true, if_false]
    rw [hexp, hscale, held?, if_neg hrange, approximation_eq negative hne, hsurplus, hdiv,
      ← map_ofNumber?_real, Double.isFinite_withSign]
    · split <;> rfl
    · rw [Double.isFinite_withSign, Double.value_withSign]
      exact hvalue

end Parser

/-- The nearest double to this integer would be `18446744073709555712`. -/
example : held? 18446744073709553665 = some 18446744073709551616 := by decide +kernel

/-! ## Reading literals -/

namespace Literal

variable {rest : List Char}

/-- The number that a literal is read as, if it is not too large. -/
def number? (l : Literal) : Option Json :=
  (Parser.ofParts? l.negative l.digits [] none).map .number

theorem value_chars (l : Literal) (depth : Nat) (hr : Parser.Closes rest) :
    Parser.value depth (l.chars ++ rest) = l.number?.map fun v => (v, rest) := by
  have hread := Parser.value_chars l.ok l.negative depth hr
  rw [Numeral.chars_of_none, List.isEmpty_nil, if_pos rfl, List.append_nil,
    ← List.append_assoc] at hread
  rw [chars, hread, number?, Option.map_map]
  rfl

theorem parse?_text (l : Literal) : parse? l.text = l.number? := by
  have h : Parser.value Parser.maxDepth (l.chars ++ []) = l.number?.map fun v => (v, []) :=
    l.value_chars Parser.maxDepth nofun
  rw [List.append_nil] at h
  rw [parse?, text, String.toList_ofList, h]
  cases l.number? <;> rfl

end Literal

/-- The text of an integer object whose value has a given text. -/
def integerObject (value : String) : String := "\x7b\"t\":\"i\",\"v\":" ++ value ++ "\x7d"

/-- The text of a field with a given text as its value. -/
def fieldOf (key : String) (value : List Char) : List Char := quoted key.toList ++ ':' :: value

theorem toList_integerObject (value : String) : (integerObject value).toList =
    '\x7b' :: (fieldOf "t" ['"', 'i', '"'] ++ ',' :: (fieldOf "v" value.toList ++ ['\x7d'])) := by
  simp [integerObject]
  rfl

/-- A field of a literal is read as the field of the number. -/
theorem member_fieldOf (l : Literal) (key : String) (depth : Nat) {rest : List Char}
    (hr : Parser.Closes rest) : Parser.member (Parser.value depth) (fieldOf key l.chars ++ rest) =
      l.number?.map fun v => ((key, v), rest) := by
  have ht : fieldOf key l.chars ++ rest =
      '"' :: (key.toList.flatMap escapeChar ++ '"' :: ':' :: (l.chars ++ rest)) := by
    simp [fieldOf, quoted]
  have hq : Parser.isBlank '"' = false := rfl
  have hc : Parser.isBlank ':' = false := rfl
  rw [ht, Parser.member, Parser.skipBlanks_cons hq]
  simp only [Parser.string_quoted, Option.bind_eq_bind, Option.bind_some, Parser.skipBlanks_cons hc,
    l.value_chars depth hr]
  cases l.number? <;> rfl

/-- The fields of an integer object are read, its value last. -/
theorem items_integerObject (l : Literal) (depth fuel : Nat) :
    Parser.items (Parser.member (Parser.value depth)) '\x7d' (fuel + 2)
      (fieldOf "t" ['"', 'i', '"'] ++ ',' :: (fieldOf "v" l.chars ++ ['\x7d'])) =
    l.number?.map fun v => ([("t", .str "i"), ("v", v)], []) := by
  have htag (rest : List Char) : Parser.member (Parser.value depth)
      (fieldOf "t" ['"', 'i', '"'] ++ ',' :: rest) = some (("t", .str "i"), ',' :: rest) :=
    Parser.member_fieldText (f := ("t", .str "i")) Parser.Readable.str.reads (',' :: rest)
      (by simp [Parser.Closes])
  have hvalue : Parser.member (Parser.value depth) (fieldOf "v" l.chars ++ ['\x7d']) =
      l.number?.map fun v => (("v", v), ['\x7d']) :=
    member_fieldOf l "v" depth (by simp [Parser.Closes])
  have hcomma : Parser.isBlank ',' = false := rfl
  have hclose : Parser.isBlank '\x7d' = false := rfl
  rw [Parser.items, htag]
  simp only [Option.bind_eq_bind, Option.bind_some, Parser.skipBlanks_cons hcomma, if_true,
    Parser.items, hvalue]
  cases l.number? with
  | none => rfl
  | some v => simp [Parser.skipBlanks_cons hclose]

/-- The integer object of a literal is read as the object of the number. -/
theorem parse?_integerObject (l : Literal) : parse? (integerObject l.text) =
    l.number?.map fun v => .obj [("t", .str "i"), ("v", v)] := by
  have hopen : Parser.isBlank '\x7b' = false := rfl
  have hquote : Parser.isBlank '"' = false := rfl
  -- the fields start with a quote, and there are more characters than fields
  obtain ⟨cs, hcs, fuel, hfuel⟩ : ∃ cs, fieldOf "t" ['"', 'i', '"'] ++
      ',' :: (fieldOf "v" l.chars ++ ['\x7d']) = '"' :: cs ∧ ∃ k, ('"' :: cs).length = k + 2 :=
    ⟨_, rfl, _, rfl⟩
  have hgroup : Parser.group (Parser.member (Parser.value 126)) '\x7d' ('"' :: cs) =
      l.number?.map fun v => ([("t", .str "i"), ("v", v)], []) := by
    rw [Parser.group, Parser.skipBlanks_cons hquote]
    simp only [Char.reduceEq, if_false]
    rw [hfuel, ← hcs, items_integerObject]
  have hvalue : Parser.value Parser.maxDepth (integerObject l.text).toList =
      (l.number?.map fun v => ([("t", .str "i"), ("v", v)], [])).map
        (Prod.map ofFields id) := by
    rw [toList_integerObject, Literal.text, String.toList_ofList, hcs, ← hgroup]
    show Parser.value (126 + 1) _ = _
    rw [Parser.value]
    simp only [Parser.skipBlanks_cons hopen]
    rfl
  have hfields (v : Json) :
      ofFields [("t", .str "i"), ("v", v)] = .obj [("t", .str "i"), ("v", v)] := by
    have hlt : "t" < "v" := by decide
    have hasc : Fields.Ascending [("t", .str "i"), ("v", v)] := by
      simpa [Fields.Ascending] using hlt
    rw [ofFields, Fields.ofList_of_ascending hasc]
  rw [parse?, hvalue]
  cases l.number? with
  | none => rfl
  | some v => exact congrArg some (hfields v)

end OpenMath.Json
