/-
  Finding tokens in a text.

  A lexeme is found again in front of what does not carry it on.  A comma, a bracket and
  the end of the text carry no token on.

  * `Token.Delimited`: the texts that carry no token on;
  * `scan_of_lexeme`: a lexeme that ends is found;
  * `scan_var`, `scan_symbol`, `scan_integer`, `scan_float`, `scan_string`: the
    token at the start of a text, in front of what carries none on;
  * `EvenBackslashes`: the strings that are read as they are written;
  * `Scanned.legible`: what is found in a text can be written such that it is found again;
  * `Token.Lexes`: the tokens that a text is read as.
-/
import Mathlib
import OpenMath.Proofs.Compact.Tokens

namespace OpenMath.Token

/-! ## Ends of tokens -/

/-- A text that is empty or starts with a comma or a bracket. -/
def Delimited (cs : List Char) : Prop := ∀ c ∈ cs.head?, c ∈ [',', '(', ')', '[', ']']

variable {rest w sign ds : List Char}

theorem delimited_nil : Delimited [] := nofun

theorem delimited_cons {c : Char} (h : c ∈ [',', '(', ')', '[', ']']) : Delimited (c :: rest) := by
  rintro d ⟨⟩
  exact h

theorem Delimited.forall {P : Char → Prop} (h : Delimited rest)
    (hp : P ',' ∧ P '(' ∧ P ')' ∧ P '[' ∧ P ']') : ∀ c ∈ rest.head?, P c := by
  intro c hc
  have hm := h c hc
  simp only [List.mem_cons, List.not_mem_nil, or_false] at hm
  obtain rfl | rfl | rfl | rfl | rfl := hm
  exacts [hp.1, hp.2.1, hp.2.2.1, hp.2.2.2.1, hp.2.2.2.2]

theorem Delimited.not_isWordPart (h : Delimited rest) : ∀ c ∈ rest.head?, isWordPart c = false :=
  h.forall (by decide)

theorem Delimited.ends (h : Delimited rest) : Digits.Ends rest := h.forall (by decide)

theorem Delimited.ne_point (h : Delimited rest) (cs : List Char) : rest ≠ '.' :: cs := by
  rintro rfl
  exact h.forall (P := (· ≠ '.')) (by decide) '.' rfl rfl

theorem Delimited.closed (h : Delimited rest) : (t : Token) → Closed t rest
  | symbol .. => h.not_isWordPart
  | var _ => ⟨h.not_isWordPart, fun _ _ e => absurd e (h.ne_point _)⟩
  | float _ => h.ends
  | integer _ => ⟨h.ends, h.ne_point⟩
  | string _ | comma | openParen | closeParen | openBracket | closeBracket => trivial

/-! ## Words -/

theorem splitWord_append (h : isWord w = true) (hr : WordEnds rest) :
    splitWord (w ++ rest) = some (w, rest) :=
  splitWord_eq_some_iff.2 ⟨h, rfl, hr⟩

theorem splitWord_eq_none {cs : List Char} (h : ∀ c ∈ cs.head?, isWordStart c = false) :
    splitWord cs = none := by
  cases cs with
  | nil => rfl
  | cons c cs => rw [splitWord, h c rfl]; rfl

theorem scan_eq_of_not_isWordStart {cs : List Char} (h : ∀ c ∈ cs.head?, isWordStart c = false) :
    scan cs = (scanFloat cs).or ((scanInteger cs).or ((scanString cs).or (scanPunctuation cs))) := by
  rw [scan, scanSymbol, scanVar, splitWord_eq_none h]
  rfl

theorem scan_var_closed (h : isWord w = true) (hr : Closed (var (String.ofList w)) rest) :
    scan (w ++ rest) = some (var (String.ofList w), rest) := by
  have hsplit := splitWord_append h hr.1
  have hsymbol : scanSymbol (w ++ rest) = none := by
    rw [scanSymbol, hsplit]
    split
    · next e =>
      cases e
      rw [splitWord_eq_none]
      · rfl
      · intro c hc
        obtain ⟨ds, rfl⟩ := List.head?_eq_some_iff.1 hc
        exact hr.2 c ds rfl
    · rfl
  rw [scan, hsymbol, scanVar, hsplit]
  rfl

theorem scan_symbol_closed {cd name : List Char} (hcd : isWord cd = true) (hn : isWord name = true)
    (hr : WordEnds rest) :
    scan (cd ++ '.' :: (name ++ rest)) =
      some (symbol (String.ofList cd) (String.ofList name), rest) := by
  have hpoint : WordEnds ('.' :: (name ++ rest)) := by
    rintro c ⟨⟩
    rfl
  rw [scan, scanSymbol, splitWord_append hcd hpoint]
  simp only [splitWord_append hn hr]
  rfl

/-! ## Numbers -/

theorem not_isWordStart_of_isDigit {c : Char} (h : c.isDigit = true) : isWordStart c = false := by
  have hval : c.val.toNat ≤ 57 := by
    simp only [Char.isDigit, Bool.and_eq_true, decide_eq_true_eq, UInt32.le_iff_toNat_le] at h
    exact h.2
  rw [Bool.eq_false_iff]
  simp only [isWordStart, Char.isAlpha, Char.isUpper, Char.isLower, Bool.or_eq_true, Bool.and_eq_true,
    decide_eq_true_eq, beq_iff_eq, ge_iff_le, UInt32.le_iff_toNat_le, ne_eq]
  rintro (((⟨h', -⟩ | ⟨h', -⟩) | rfl) | rfl)
  · exact absurd (h'.trans hval) (by decide)
  · exact absurd (h'.trans hval) (by decide)
  · cases h
  · cases h

theorem exists_sign (cs : List Char) : ∃ sign, IsSign sign ∧ cs = sign ++ (Digits.splitSign cs).2 := by
  unfold Digits.splitSign
  split
  · exact ⟨['-'], .inr (.inr rfl), rfl⟩
  · exact ⟨['+'], .inr (.inl rfl), rfl⟩
  · exact ⟨[], .inl rfl, rfl⟩

/-- What stands behind the sign of a numeral: a text that starts with a digit or with a point. -/
def Unsigned (cs : List Char) : Prop := ∃ c r, cs = c :: r ∧ (c.isDigit = true ∨ c = '.')

theorem unsigned_digits (hd : ∀ c ∈ ds, c.isDigit = true) (hne : ds ≠ []) (rest : List Char) :
    Unsigned (ds ++ rest) := by
  obtain ⟨c, cs, rfl⟩ := List.exists_cons_of_ne_nil hne
  exact ⟨c, cs ++ rest, rfl, .inl (hd c (List.mem_cons_self ..))⟩

theorem unsigned_point (hd : ∀ c ∈ ds, c.isDigit = true) (rest : List Char) :
    Unsigned (ds ++ '.' :: rest) := by
  cases ds with
  | nil => exact ⟨'.', rest, rfl, .inr rfl⟩
  | cons c cs => exact unsigned_digits hd (List.cons_ne_nil c cs) _

theorem Unsigned.takeSign_append {cs : List Char} (h : Unsigned cs) (hs : IsSign sign) :
    takeSign (sign ++ cs) = (sign, cs) := by
  obtain ⟨c, r, rfl, hc⟩ := h
  obtain rfl | rfl | rfl := hs
  · unfold takeSign
    split
    · next e => cases e; simp at hc
    · next e => cases e; simp at hc
    · rfl
  · rfl
  · rfl

theorem Unsigned.not_isWordStart {cs : List Char} (h : Unsigned cs) (hs : IsSign sign) :
    ∀ c ∈ (sign ++ cs).head?, isWordStart c = false := by
  obtain ⟨c, r, rfl, hc⟩ := h
  obtain rfl | rfl | rfl := hs
  · rintro d ⟨⟩
    obtain hc | rfl := hc
    · exact not_isWordStart_of_isDigit hc
    · rfl
  · rintro d ⟨⟩
    rfl
  · rintro d ⟨⟩
    rfl

theorem scan_integer_closed (hs : IsSign sign) (hd : ∀ c ∈ ds, c.isDigit = true) (hne : ds ≠ [])
    (hr : Closed (integer (String.ofList (sign ++ ds))) rest) :
    scan (sign ++ (ds ++ rest)) = some (integer (String.ofList (sign ++ ds)), rest) := by
  have hstart := unsigned_digits hd hne rest
  obtain ⟨hlead, hrest⟩ := Digits.leading_append hd hr.1
  have hsign := hstart.takeSign_append hs
  have hfloat : scanFloat (sign ++ (ds ++ rest)) = none := by
    simp only [scanFloat, hsign, hrest]
    split
    · exact absurd rfl (hr.2 _)
    · rfl
  have hempty : ds.isEmpty = false := by simpa using hne
  rw [scan_eq_of_not_isWordStart (hstart.not_isWordStart hs), hfloat]
  simp only [scanInteger, hsign, hlead, hrest, hempty]
  rfl

theorem scan_float_closed {frac : List Char} (hs : IsSign sign) (hd : ∀ c ∈ ds, c.isDigit = true)
    (hf : ∀ c ∈ frac, c.isDigit = true) (hne : ds ≠ [] ∨ frac ≠ []) (hr : Digits.Ends rest) :
    scan (sign ++ (ds ++ '.' :: (frac ++ rest))) =
      some (float (String.ofList (sign ++ ds ++ '.' :: frac)), rest) := by
  have hstart := unsigned_point hd (frac ++ rest)
  have hpoint : Digits.Ends ('.' :: (frac ++ rest)) := by
    rintro c ⟨⟩
    rfl
  obtain ⟨hlead, hrest⟩ := Digits.leading_append hd hpoint
  obtain ⟨hflead, hfrest⟩ := Digits.leading_append hf hr
  have hsign := hstart.takeSign_append hs
  have hempty : (ds.isEmpty && frac.isEmpty) = false := by
    rw [Bool.and_eq_false_iff]
    simpa using hne
  rw [scan_eq_of_not_isWordStart (hstart.not_isWordStart hs)]
  simp only [scanFloat, hsign, hlead, hrest, hflead, hfrest, hempty]
  rfl

/-! ## Strings -/

/-- Every run of backslashes is even that goes on neither to the left nor to the
    right. -/
def EvenBackslashes (cs : List Char) : Prop :=
  ∀ before n after, cs = before ++ (List.replicate n '\\' ++ after) → before.getLast? ≠ some '\\' →
    after.head? ≠ some '\\' → Even n

theorem evenBackslashes_of_cons {c : Char} {cs : List Char} (hc : c ≠ '\\')
    (h : EvenBackslashes (c :: cs)) : EvenBackslashes cs := by
  intro before n after e hb ha
  refine h (c :: before) n after (by rw [e, List.cons_append]) ?_ ha
  cases before with
  | nil => simpa using hc
  | cons d ds => rwa [List.getLast?_cons_cons]

theorem evenBackslashes_of_pair {cs : List Char} (h : EvenBackslashes ('\\' :: '\\' :: cs)) :
    EvenBackslashes cs := by
  intro before n after e hb ha
  cases before with
  | nil =>
    have hn : Even (n + 2) := h [] (n + 2) after (by rw [e]; rfl) hb ha
    simpa [Nat.even_add] using hn
  | cons d ds =>
    refine h ('\\' :: '\\' :: d :: ds) n after (by rw [e]; rfl) ?_ ha
    rwa [List.getLast?_cons_cons, List.getLast?_cons_cons]

theorem exists_pair {cs : List Char} (h : EvenBackslashes ('\\' :: cs)) : ∃ ds, cs = '\\' :: ds := by
  by_contra hne
  have hn : Even 1 := h [] 1 cs rfl nofun fun hh => by
    obtain ⟨ds, hds⟩ := List.head?_eq_some_iff.1 hh
    exact hne ⟨ds, hds⟩
  exact absurd hn (by decide)

/-- What passes from a text to the text with another character in front, or with
    two backslashes, holds of every text with even runs of backslashes. -/
@[elab_as_elim]
theorem EvenBackslashes.induction {P : List Char → Prop} (nil : P [])
    (pair : ∀ cs, P cs → P ('\\' :: '\\' :: cs)) (cons : ∀ c cs, c ≠ '\\' → P cs → P (c :: cs)) :
    ∀ cs, EvenBackslashes cs → P cs
  | [], _ => nil
  | c :: cs, h => by
    by_cases hc : c = '\\'
    · subst hc
      obtain ⟨ds, rfl⟩ := exists_pair h
      exact pair ds (EvenBackslashes.induction nil pair cons ds (evenBackslashes_of_pair h))
    · exact cons c cs hc (EvenBackslashes.induction nil pair cons cs (evenBackslashes_of_cons hc h))

theorem evenBackslashes_of_not_mem {cs : List Char} (h : '\\' ∉ cs) : EvenBackslashes cs := by
  rintro before n after rfl - -
  cases n with
  | zero => exact ⟨0, rfl⟩
  | succ n => exact absurd (by simp [List.replicate_succ]) h

theorem getLast?_ne_of_cons {c d : Char} {cs : List Char} (h : (c :: cs).getLast? ≠ some d) :
    cs.getLast? ≠ some d := by
  cases cs with
  | nil => nofun
  | cons c' cs => rwa [List.getLast?_cons_cons] at h

theorem evenBackslashes_cons {c : Char} {cs : List Char} (hc : c ≠ '\\') (h : EvenBackslashes cs) :
    EvenBackslashes (c :: cs) := by
  intro before n after e hb ha
  cases before with
  | nil =>
    cases n with
    | zero => exact ⟨0, rfl⟩
    | succ n =>
      rw [List.nil_append, List.replicate_succ, List.cons_append] at e
      exact absurd (List.cons.inj e).1 hc
  | cons d ds =>
    rw [List.cons_append] at e
    exact h ds n after (List.cons.inj e).2 (getLast?_ne_of_cons hb) ha

theorem evenBackslashes_pair {cs : List Char} (h : EvenBackslashes cs) :
    EvenBackslashes ('\\' :: '\\' :: cs) := by
  intro before n after e hb ha
  match before with
  | [] =>
    match n with
    | 0 => exact ⟨0, rfl⟩
    | 1 =>
      rw [List.nil_append, List.replicate_one, List.singleton_append] at e
      rw [← (List.cons.inj e).2] at ha
      exact absurd rfl ha
    | n + 2 =>
      simp only [List.nil_append, List.replicate_succ, List.cons_append, List.cons.injEq, true_and] at e
      have hn : Even n := h [] n after e hb ha
      exact hn.add (by decide)
  | [d] =>
    rw [List.singleton_append, List.cons.injEq] at e
    rw [← e.1] at hb
    exact absurd rfl hb
  | d :: d' :: ds =>
    simp only [List.cons_append, List.cons.injEq] at e
    exact h ds n after e.2.2 (getLast?_ne_of_cons (getLast?_ne_of_cons hb)) ha

/-- What stands between quotes has only even runs of backslashes when the escaped quotes are
    unescaped. -/
theorem evenBackslashes_read {quote : Char} (hq : quote ≠ '\\') {ps : List Piece}
    (h : ∀ p ∈ ps, p.Fits quote) : EvenBackslashes (ps.flatMap (Piece.read quote)) := by
  induction ps with
  | nil => exact evenBackslashes_of_not_mem (by simp)
  | cons p ps ih =>
    obtain ⟨hp, hps⟩ := List.forall_mem_cons.1 h
    rw [List.flatMap_cons]
    cases p with
    | plain c => exact evenBackslashes_cons hp.2 (ih hps)
    | quote => exact evenBackslashes_cons hq (ih hps)
    | backslash => exact evenBackslashes_pair (ih hps)

theorem escapeQuotes_cons (c : Char) (cs : List Char) :
    escapeQuotes (c :: cs) = (if c = '\'' then ['\\', '\''] else [c]) ++ escapeQuotes cs :=
  List.flatMap_cons

/-- A text with even runs of backslashes is written as parts that are read as the text. -/
theorem exists_pieces_escapeQuotes {cs : List Char} (h : EvenBackslashes cs) :
    ∃ ps : List Piece, (∀ p ∈ ps, p.Fits '\'') ∧ ps.flatMap (Piece.written '\'') = escapeQuotes cs ∧
      ps.flatMap (Piece.read '\'') = cs := by
  refine EvenBackslashes.induction ?nil ?pair ?cons cs h
  case nil => exact ⟨[], nofun, rfl, rfl⟩
  case pair =>
    rintro cs ⟨ps, hps, hw, hr⟩
    refine ⟨.backslash :: ps, List.forall_mem_cons.2 ⟨trivial, hps⟩, ?_, ?_⟩
    · rw [List.flatMap_cons, hw]
      rfl
    · rw [List.flatMap_cons, hr]
      rfl
  case cons =>
    rintro c cs hc ⟨ps, hps, hw, hr⟩
    rw [escapeQuotes_cons]
    split
    · next hq =>
      subst hq
      exact ⟨.quote :: ps, List.forall_mem_cons.2 ⟨trivial, hps⟩, by rw [List.flatMap_cons, hw]; rfl,
        by rw [List.flatMap_cons, hr]; rfl⟩
    · next hq =>
      exact ⟨.plain c :: ps, List.forall_mem_cons.2 ⟨⟨hq, hc⟩, hps⟩,
        by rw [List.flatMap_cons, hw]; rfl, by rw [List.flatMap_cons, hr]; rfl⟩

theorem scan_quote {quote : Char} (hq : quote = '"' ∨ quote = '\'') (cs : List Char) :
    scan (quote :: cs) = scanString (quote :: cs) := by
  obtain rfl | rfl := hq
  all_goals exact Option.or_none

theorem scan_string_pieces {quote : Char} (hq : quote = '"' ∨ quote = '\'') {ps : List Piece}
    (h : ∀ p ∈ ps, p.Fits quote) (rest : List Char) :
    scan (quote :: (ps.flatMap (Piece.written quote) ++ quote :: rest)) =
      some (string (String.ofList (ps.flatMap (Piece.read quote))), rest) := by
  have hne : quote ≠ '\\' := by rintro rfl; simp at hq
  obtain ⟨hsplit, hread⟩ := splitBody_pieces hne h rest
  rw [scan_quote hq, scanString, if_pos hq, hsplit]
  simp only [Option.map_some, hread]

/-! ## Lexemes -/

/-- What a token is written as is found again where nothing carries it on. -/
theorem scan_of_lexeme {t : Token} {l : List Char} (h : Lexeme t l) (hr : Closed t rest) :
    scan (l ++ rest) = some (t, rest) := by
  cases h with
  | symbol cdOk nameOk =>
    rw [List.append_assoc, List.cons_append]
    exact scan_symbol_closed cdOk nameOk hr
  | var wordOk => exact scan_var_closed wordOk hr
  | float signOk wholeOk fracOk ne_nil =>
    rw [List.append_assoc, List.append_assoc, List.cons_append]
    exact scan_float_closed signOk wholeOk fracOk ne_nil hr
  | integer signOk digitsOk ne_nil =>
    rw [List.append_assoc]
    exact scan_integer_closed signOk digitsOk ne_nil hr
  | string quoteOk piecesOk =>
    rw [List.cons_append, List.append_assoc, List.singleton_append]
    exact scan_string_pieces quoteOk piecesOk rest
  | comma | openParen | closeParen | openBracket | closeBracket => rfl

theorem scan_var (h : isWord w = true) (hr : Delimited rest) :
    scan (w ++ rest) = some (var (String.ofList w), rest) :=
  scan_of_lexeme (.var h) (hr.closed _)

theorem scan_symbol {cd name : List Char} (hcd : isWord cd = true) (hn : isWord name = true)
    (hr : Delimited rest) :
    scan (cd ++ '.' :: (name ++ rest)) =
      some (symbol (String.ofList cd) (String.ofList name), rest) :=
  scan_symbol_closed hcd hn hr.not_isWordPart

theorem scan_integer (hs : IsSign sign) (hd : Digits.isNumeral ds = true) (hr : Delimited rest) :
    scan (sign ++ (ds ++ rest)) = some (integer (String.ofList (sign ++ ds)), rest) := by
  obtain ⟨hne, hall⟩ := Digits.isNumeral_iff.1 hd
  exact scan_integer_closed hs hall hne (hr.closed _)

theorem scan_float {frac : List Char} (hs : IsSign sign) (hd : Digits.isNumeral ds = true)
    (hf : ∀ c ∈ frac, c.isDigit = true) (hr : Delimited rest) :
    scan (sign ++ (ds ++ '.' :: (frac ++ rest))) =
      some (float (String.ofList (sign ++ ds ++ '.' :: frac)), rest) := by
  obtain ⟨hne, hall⟩ := Digits.isNumeral_iff.1 hd
  exact scan_float_closed hs hall hf (.inl hne) hr.ends

theorem scan_string {cs : List Char} (h : EvenBackslashes cs) (rest : List Char) :
    scan (quoteText cs ++ rest) = some (string (String.ofList cs), rest) := by
  obtain ⟨ps, hps, hw, hr⟩ := exists_pieces_escapeQuotes h
  have hscan := scan_string_pieces (.inr rfl) hps rest
  rw [hw, hr] at hscan
  rw [← hscan, quoteText, List.cons_append, List.cons_append, List.append_assoc,
    List.singleton_append]

/-! ## Tokens of texts -/

/-- A token that can be written such that it is found again. -/
def Legible : Token → Prop
  | symbol cd name => isWord cd.toList = true ∧ isWord name.toList = true
  | var name => isWord name.toList = true
  | integer text => Identifier.isIntegerText text = true
  | string text => EvenBackslashes text.toList
  | _ => True

/-- Every token that is found in a text can be written again. -/
theorem Scanned.legible {t : Token} (h : t.Scanned) : t.Legible := by
  obtain ⟨l, hl⟩ := h.exists_lexeme
  cases hl with
  | symbol cdOk nameOk =>
    rw [Legible, String.toList_ofList, String.toList_ofList]
    exact ⟨cdOk, nameOk⟩
  | var wordOk =>
    rw [Legible, String.toList_ofList]
    exact wordOk
  | integer signOk digitsOk ne_nil => exact isIntegerText_append signOk digitsOk ne_nil
  | string quoteOk piecesOk =>
    rw [Legible, String.toList_ofList]
    exact evenBackslashes_read (by rintro rfl; simp at quoteOk) piecesOk
  | float | comma | openParen | closeParen | openBracket | closeBracket => trivial

/-! ## Texts -/

/-- A text is read as given tokens in front of all that carries no token on. -/
def Lexes (cs : List Char) (ts : List Token) : Prop :=
  ∀ rest us, Delimited rest → ofChars rest = .ok us → ofChars (cs ++ rest) = .ok (ts ++ us)

theorem ofChars_nil : ofChars [] = .ok [] := by
  rw [ofChars]
  rfl

/-- The tokens of a text are the one that it starts with, and those of the rest. -/
theorem ofChars_scan {cs : List Char} {t : Token} (h : scan cs = some (t, rest)) :
    ofChars cs = (ofChars rest).map (t :: ·) := by
  have hne : cs.isEmpty = false := by
    cases cs with
    | nil => cases h
    | cons => rfl
  rw [ofChars, hne]
  simp only [Bool.false_eq_true, if_false]
  split
  · next h' =>
    cases h.symm.trans h'
    cases ofChars rest <;> rfl
  · next h' => cases h.symm.trans h'

theorem ofChars_none {cs : List Char} (hne : cs ≠ []) (h : scan cs = none) :
    ofChars cs = .error (.unreadable (.noToken (String.ofList (cs.take shownLength)))) := by
  rw [ofChars, if_neg (by simpa using hne)]
  split
  · next h' => cases h.symm.trans h'
  · rfl

theorem ofChars_of_scan {cs : List Char} {t : Token} {us : List Token}
    (h : scan cs = some (t, rest)) (hr : ofChars rest = .ok us) : ofChars cs = .ok (t :: us) := by
  rw [ofChars_scan h, hr]
  rfl

theorem lexes_of_scan {cs : List Char} {t : Token}
    (h : ∀ rest, Delimited rest → scan (cs ++ rest) = some (t, rest)) : Lexes cs [t] :=
  fun rest _ hd hr => ofChars_of_scan (h rest hd) hr

theorem lexes_nil : Lexes [] [] := fun _ _ _ hr => hr

theorem Lexes.ofChars {cs : List Char} {ts : List Token} (h : Lexes cs ts) :
    ofChars cs = .ok ts := by
  have := h [] [] delimited_nil ofChars_nil
  rwa [List.append_nil, List.append_nil] at this

end OpenMath.Token
