/-
  What the tokens of a text are like.

  A token is found where a text starts with one of its lexemes, and where nothing that
  follows carries the lexeme on.

  * `Token.isWord`: the words that variables are, and the two parts of symbols;
  * `Piece`: the parts of what stands between quotes, as they are written and as they are read;
  * `Lexeme`: what a token is written as;
  * `Closed`: the texts in front of which a token ends;
  * `startsWith_of_scan`: what is found at the start of a text;
  * `Token.Scanned`: a token that some text starts with;
  * `Scanned.wellFormed`: such a token has names that are identifiers and numerals
    that are numerals.
-/
import OpenMath.Compact.Token
import OpenMath.Proofs.Text.Digits
import OpenMath.Proofs.Wire.Validity
import Mathlib.Data.List.TakeWhile
import Mathlib.Tactic.Tauto

namespace OpenMath

namespace Token

variable {cs rest w : List Char} {t : Token}

/-! ## Words -/

/-- A word: letters, digits and a few signs, not all of which may come first. -/
def isWord : List Char → Bool
  | [] => false
  | c :: cs => isWordStart c && cs.all isWordPart

/-- No part of a word comes next. -/
def WordEnds (cs : List Char) : Prop := ∀ c ∈ cs.head?, isWordPart c = false

/-- A text starts with a word if it is a word and a rest that does not carry it on. -/
theorem splitWord_eq_some_iff :
    splitWord cs = some (w, rest) ↔ isWord w = true ∧ cs = w ++ rest ∧ WordEnds rest := by
  constructor
  · intro h
    cases cs with
    | nil => cases h
    | cons c cs =>
      simp only [splitWord] at h
      split at h
      · next hc =>
        cases h
        refine ⟨?_, by rw [List.cons_append, List.takeWhile_append_dropWhile], fun d hd => ?_⟩
        · simp only [isWord, hc, Bool.true_and, List.all_eq_true]
          exact fun d hd => List.mem_takeWhile_imp hd
        · have hnot := List.head?_dropWhile_not isWordPart cs
          rw [Option.mem_def.1 hd] at hnot
          exact hnot
      · cases h
  · rintro ⟨hw, rfl, hr⟩
    cases w with
    | nil => cases hw
    | cons c cs =>
      simp only [isWord, Bool.and_eq_true, List.all_eq_true] at hw
      obtain ⟨htake, hdrop⟩ := span_append hw.2 hr
      rw [List.cons_append, splitWord, if_pos hw.1, htake, hdrop]

theorem isIdentifier_of_isWord (h : isWord w = true) :
    Identifier.isIdentifier (String.ofList w) = true := by
  rw [Identifier.isIdentifier, String.toList_ofList]
  cases w with
  | nil => cases h
  | cons c cs =>
    simp only [isWord, Bool.and_eq_true, List.all_eq_true] at h
    simp only [Identifier.isName, Bool.and_eq_true, List.all_eq_true]
    refine ⟨?_, fun d hd => ?_⟩
    · have := h.1
      simp only [isWordStart, Identifier.isStart, Bool.or_eq_true] at this ⊢
      tauto
    · have := h.2 d hd
      simp only [isWordPart, Char.isAlphanum, Identifier.isContinue, Identifier.isStart,
        Bool.or_eq_true] at this ⊢
      tauto

/-! ## Strings -/

/-- A part of what stands between quotes: a character that is neither the quote nor a
    backslash, or one of these two behind a backslash. -/
inductive Piece where
  | plain (c : Char)
  | quote
  | backslash

namespace Piece
variable (q : Char)

/-- What a part is written as. -/
def written : Piece → List Char
  | plain c => [c]
  | quote => ['\\', q]
  | backslash => ['\\', '\\']

/-- What a part is read as: only the quote loses its backslash. -/
def read : Piece → List Char
  | plain c => [c]
  | quote => [q]
  | backslash => ['\\', '\\']

/-- A part that may stand between quotes. -/
def Fits : Piece → Prop
  | plain c => c ≠ q ∧ c ≠ '\\'
  | quote | backslash => True

end Piece

variable {q : Char} {body : List Char}

/-- The closing quote is the first one that has no backslash of its own in front. -/
theorem exists_pieces (h : splitBody q cs = some (body, rest)) :
    ∃ ps : List Piece, (∀ p ∈ ps, p.Fits q) ∧ body = ps.flatMap (Piece.written q) ∧
      cs = body ++ q :: rest := by
  fun_induction splitBody q cs generalizing body with
  | case1 => cases h
  | case2 c cs hc ih =>
    obtain ⟨⟨b, r⟩, hb, e⟩ := Option.map_eq_some_iff.1 h
    cases e
    obtain ⟨ps, hps, rfl, rfl⟩ := ih hb
    rcases hc with rfl | rfl
    · exact ⟨.quote :: ps, List.forall_mem_cons.2 ⟨trivial, hps⟩, rfl, rfl⟩
    · exact ⟨.backslash :: ps, List.forall_mem_cons.2 ⟨trivial, hps⟩, rfl, rfl⟩
  | case3 => cases h
  | case4 => cases h; exact ⟨[], List.forall_mem_nil _, rfl, rfl⟩
  | case5 => cases h
  | case6 c cs _ hq hb ih =>
    obtain ⟨⟨b, r⟩, hr, e⟩ := Option.map_eq_some_iff.1 h
    cases e
    obtain ⟨ps, hps, rfl, rfl⟩ := ih hr
    exact ⟨.plain c :: ps, List.forall_mem_cons.2 ⟨⟨hq, hb⟩, hps⟩, rfl, rfl⟩

/-- What is written between quotes is found again, and the quotes in it lose their
    backslashes. -/
theorem splitBody_pieces (hq : q ≠ '\\') {ps : List Piece} (h : ∀ p ∈ ps, p.Fits q)
    (rest : List Char) :
    splitBody q (ps.flatMap (Piece.written q) ++ q :: rest) =
        some (ps.flatMap (Piece.written q), rest) ∧
      unescape q (ps.flatMap (Piece.written q)) = ps.flatMap (Piece.read q) := by
  induction ps with
  | nil => exact ⟨by simp [splitBody, hq], by simp [unescape]⟩
  | cons p ps ih =>
    obtain ⟨hp, hps⟩ := List.forall_mem_cons.1 h
    obtain ⟨hsplit, hread⟩ := ih hps
    simp only [List.flatMap_cons, List.append_assoc]
    cases p with
    | plain c =>
      simp only [Piece.written, Piece.read, List.singleton_append]
      exact ⟨by simp [splitBody, hsplit, hp.1, hp.2], by simp [unescape, hread, hp.2]⟩
    | quote =>
      simp only [Piece.written, Piece.read, List.cons_append, List.nil_append]
      exact ⟨by simp [splitBody, hsplit], by simp [unescape, hread]⟩
    | backslash =>
      simp only [Piece.written, Piece.read, List.cons_append, List.nil_append]
      exact ⟨by simp [splitBody, hsplit], by simp [unescape, hread, hq.symm]⟩

/-! ## Lexemes -/

/-- The sign of a numeral, if it has one. -/
def IsSign (sign : List Char) : Prop := sign = [] ∨ sign = ['+'] ∨ sign = ['-']

theorem isSign_takeSign (cs : List Char) : IsSign (takeSign cs).1 := by
  unfold takeSign
  split
  · exact .inr (.inl rfl)
  · exact .inr (.inr rfl)
  · exact .inl rfl

theorem takeSign_append_eq (cs : List Char) : (takeSign cs).1 ++ (takeSign cs).2 = cs := by
  unfold takeSign
  split <;> rfl

/-- What a token is written as. -/
inductive Lexeme : Token → List Char → Prop
  | symbol {cd name : List Char} (cdOk : isWord cd = true) (nameOk : isWord name = true) :
    Lexeme (.symbol (String.ofList cd) (String.ofList name)) (cd ++ '.' :: name)
  | var {w : List Char} (wordOk : isWord w = true) : Lexeme (.var (String.ofList w)) w
  | float {sign whole frac : List Char} (signOk : IsSign sign)
    (wholeOk : ∀ c ∈ whole, c.isDigit = true) (fracOk : ∀ c ∈ frac, c.isDigit = true)
    (ne_nil : whole ≠ [] ∨ frac ≠ []) :
    Lexeme (.float (String.ofList (sign ++ whole ++ '.' :: frac))) (sign ++ whole ++ '.' :: frac)
  | integer {sign ds : List Char} (signOk : IsSign sign) (digitsOk : ∀ c ∈ ds, c.isDigit = true)
    (ne_nil : ds ≠ []) : Lexeme (.integer (String.ofList (sign ++ ds))) (sign ++ ds)
  | string {quote : Char} {ps : List Piece} (quoteOk : quote = '"' ∨ quote = '\'')
    (piecesOk : ∀ p ∈ ps, p.Fits quote) :
    Lexeme (.string (String.ofList (ps.flatMap (Piece.read quote))))
      (quote :: (ps.flatMap (Piece.written quote) ++ [quote]))
  | comma : Lexeme .comma [',']
  | openParen : Lexeme .openParen ['(']
  | closeParen : Lexeme .closeParen [')']
  | openBracket : Lexeme .openBracket ['[']
  | closeBracket : Lexeme .closeBracket [']']

/-- Nothing at the start of a text carries on a token in front of it: no part of a word carries on
    a word, no point and name a variable, no digit a number, no point an integer. -/
def Closed : Token → List Char → Prop
  | .symbol .., cs => WordEnds cs
  | .var _, cs => WordEnds cs ∧ ∀ c r, cs = '.' :: c :: r → isWordStart c = false
  | .float _, cs => Digits.Ends cs
  | .integer _, cs => Digits.Ends cs ∧ ∀ r, cs ≠ '.' :: r
  | _, _ => True

/-! ## Finding lexemes -/

/-- A text starts with a lexeme of a token, which ends there. -/
def StartsWith (cs : List Char) (t : Token) (rest : List Char) : Prop :=
  ∃ l, cs = l ++ rest ∧ Lexeme t l ∧ Closed t rest

theorem startsWith_scanSymbol (h : scanSymbol cs = some (t, rest)) : StartsWith cs t rest := by
  unfold scanSymbol at h
  split at h
  · next cd r hcd =>
    obtain ⟨⟨name, r'⟩, hname, e⟩ := Option.map_eq_some_iff.1 h
    cases e
    obtain ⟨cdOk, rfl, -⟩ := splitWord_eq_some_iff.1 hcd
    obtain ⟨nameOk, rfl, hends⟩ := splitWord_eq_some_iff.1 hname
    exact ⟨_, by rw [List.append_assoc, List.cons_append], .symbol cdOk nameOk, hends⟩
  · cases h

theorem startsWith_scanVar (hno : scanSymbol cs = none) (h : scanVar cs = some (t, rest)) :
    StartsWith cs t rest := by
  obtain ⟨⟨w, r⟩, hw, e⟩ := Option.map_eq_some_iff.1 h
  cases e
  obtain ⟨hword, rfl, hends⟩ := splitWord_eq_some_iff.1 hw
  refine ⟨w, rfl, .var hword, hends, ?_⟩
  rintro c r rfl
  by_contra hc
  rw [Bool.not_eq_false] at hc
  rw [scanSymbol, hw] at hno
  simp [splitWord, hc] at hno

theorem startsWith_scanFloat (h : scanFloat cs = some (t, rest)) : StartsWith cs t rest := by
  have hsign := takeSign_append_eq cs
  have hwhole := Digits.leading_append_rest (takeSign cs).2
  simp only [scanFloat] at h
  split at h
  · next r hr =>
    split at h
    · cases h
    · next hne =>
      cases h
      refine ⟨(takeSign cs).1 ++ Digits.leading (takeSign cs).2 ++ '.' :: Digits.leading r, ?_,
        .float (isSign_takeSign cs) (fun _ => Digits.isDigit_of_mem_leading)
          (fun _ => Digits.isDigit_of_mem_leading) ?_, Digits.ends_rest r⟩
      · rw [hr] at hwhole
        rw [List.append_assoc, List.cons_append, Digits.leading_append_rest, List.append_assoc, hwhole,
          hsign]
      · simpa [or_iff_not_imp_left] using hne
  · cases h

/-- An integer is found if no float is. -/
theorem startsWith_scanInteger (hno : scanFloat cs = none) (h : scanInteger cs = some (t, rest)) :
    StartsWith cs t rest := by
  have hsign := takeSign_append_eq cs
  have hwhole := Digits.leading_append_rest (takeSign cs).2
  simp only [scanInteger] at h
  split at h
  · cases h
  · next hne =>
    cases h
    have hne' : Digits.leading (takeSign cs).2 ≠ [] := by simpa using hne
    refine ⟨(takeSign cs).1 ++ Digits.leading (takeSign cs).2, ?_,
      .integer (isSign_takeSign cs) (fun _ => Digits.isDigit_of_mem_leading) hne',
      Digits.ends_rest _, fun r hr => ?_⟩
    · rw [List.append_assoc, hwhole, hsign]
    · simp [scanFloat, hr, hne] at hno

theorem startsWith_scanString (h : scanString cs = some (t, rest)) : StartsWith cs t rest := by
  cases cs with
  | nil => cases h
  | cons q cs =>
    simp only [scanString] at h
    split at h
    · next hq =>
      obtain ⟨⟨body, r⟩, hb, e⟩ := Option.map_eq_some_iff.1 h
      cases e
      obtain ⟨ps, hps, rfl, rfl⟩ := exists_pieces hb
      have hne : q ≠ '\\' := by rintro rfl; simp at hq
      rw [(splitBody_pieces hne hps []).2]
      exact ⟨_, by simp, .string hq hps, trivial⟩
    · cases h

theorem startsWith_scanPunctuation (h : scanPunctuation cs = some (t, rest)) :
    StartsWith cs t rest := by
  unfold scanPunctuation at h
  split at h <;> cases h
  · exact ⟨_, rfl, .comma, trivial⟩
  · exact ⟨_, rfl, .openParen, trivial⟩
  · exact ⟨_, rfl, .closeParen, trivial⟩
  · exact ⟨_, rfl, .openBracket, trivial⟩
  · exact ⟨_, rfl, .closeBracket, trivial⟩

/-- What is found at the start of a text is a lexeme, and ends there. -/
theorem startsWith_of_scan (h : scan cs = some (t, rest)) : StartsWith cs t rest := by
  simp only [scan, Option.or_eq_some_iff] at h
  rcases h with h | ⟨hsymbol, h | ⟨-, h | ⟨hfloat, h | ⟨-, h | ⟨-, h⟩⟩⟩⟩⟩
  · exact startsWith_scanSymbol h
  · exact startsWith_scanVar hsymbol h
  · exact startsWith_scanFloat h
  · exact startsWith_scanInteger hfloat h
  · exact startsWith_scanString h
  · exact startsWith_scanPunctuation h

/-! ## Tokens of texts -/

/-- A token that some text starts with. -/
def Scanned (t : Token) : Prop := ∃ cs rest, scan cs = some (t, rest)

/-- The names of a token are identifiers, and its numerals are numerals. -/
def WellFormed : Token → Prop
  | symbol cd name => Identifier.isIdentifier cd = true ∧ Identifier.isIdentifier name = true
  | var name => Identifier.isIdentifier name = true
  | integer text => Identifier.isIntegerText text = true
  | _ => True

theorem scanned_of_ofChars {ts : List Token} (h : ofChars cs = .ok ts) : ∀ t ∈ ts, Scanned t := by
  fun_induction ofChars cs generalizing ts with
  | case1 cs hc => cases h; simp
  | case2 cs hc t rest hs ih =>
    obtain ⟨us, hr, h⟩ := Except.bind_eq_ok.1 h
    cases h
    exact List.forall_mem_cons.2 ⟨⟨cs, rest, hs⟩, ih hr⟩
  | case3 => cases h

theorem Scanned.exists_lexeme (h : Scanned t) : ∃ l, Lexeme t l := by
  obtain ⟨cs, rest, h⟩ := h
  obtain ⟨l, -, hl, -⟩ := startsWith_of_scan h
  exact ⟨l, hl⟩

theorem isIntegerText_append {sign ds : List Char} (hs : IsSign sign)
    (hd : ∀ c ∈ ds, c.isDigit = true) (hne : ds ≠ []) :
    Identifier.isIntegerText (String.ofList (sign ++ ds)) = true := by
  have hnum : Digits.isNumeral ds = true := Digits.isNumeral_iff.2 ⟨hne, hd⟩
  rw [Identifier.isIntegerText, String.toList_ofList]
  obtain rfl | rfl | rfl := hs
  · rw [List.nil_append, Digits.splitSign_of_isNumeral hnum]
    exact hnum
  · exact hnum
  · exact hnum

theorem Scanned.wellFormed (h : Scanned t) : t.WellFormed := by
  obtain ⟨l, hl⟩ := h.exists_lexeme
  cases hl with
  | symbol hcd hn => exact ⟨isIdentifier_of_isWord hcd, isIdentifier_of_isWord hn⟩
  | var hw => exact isIdentifier_of_isWord hw
  | integer hs hd hne => exact isIntegerText_append hs hd hne
  | _ => trivial

end Token

end OpenMath
