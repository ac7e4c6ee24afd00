/-
  Tokens of the compact notation.

  At each place the first of these that fits is taken: a symbol `cd.name`, a
  variable, a float, an integer, a string in quotes of either sort, a comma or a
  bracket.  Each takes as many characters as it can.  Blanks are no tokens.

  * `Token.scan`: the token at the start of a text, and the rest;
  * `Token.ofChars`: the tokens of a whole text;
  * `scan_shorter`: a token takes at least one character.
-/
import OpenMath.Error
import OpenMath.Text.Digits
import OpenMath.Compact.Printer

namespace OpenMath

/-- The tokens of compact texts. -/
inductive Token where
  | symbol (cd name : String)
  | var (name : String)
  | float (text : String)
  | integer (text : String)
  /-- the text between the quotes, with the escaped quotes unescaped -/
  | string (text : String)
  | comma
  | openParen
  | closeParen
  | openBracket
  | closeBracket
deriving DecidableEq

namespace Token

/-- A token as messages show it. -/
def toText : Token → String
  | symbol cd name => cd ++ "." ++ name
  | var text | float text | integer text => text
  | string text => String.ofList (quoteText text.toList)
  | comma => ","
  | openParen => "("
  | closeParen => ")"
  | openBracket => "["
  | closeBracket => "]"

/-! ## Words -/

/-- The characters that a word may start with. -/
def isWordStart (c : Char) : Bool := c.isAlpha || c == '_' || c == ':'

/-- The characters that a word may go on with. -/
def isWordPart (c : Char) : Bool := c.isAlphanum || c == '_' || c == ':' || c == '-'

/-- The word that a text starts with, and the rest. -/
def splitWord : List Char → Option (List Char × List Char)
  | [] => none
  | c :: cs =>
    if isWordStart c then some (c :: cs.takeWhile isWordPart, cs.dropWhile isWordPart) else none

/-- A dictionary, a point, and a name. -/
def scanSymbol (cs : List Char) : Option (Token × List Char) :=
  match splitWord cs with
  | some (cd, '.' :: r) =>
    (splitWord r).map fun (name, rest) => (symbol (String.ofList cd) (String.ofList name), rest)
  | _ => none

/-- A word, which is a variable where no symbol starts. -/
def scanVar (cs : List Char) : Option (Token × List Char) :=
  (splitWord cs).map fun (name, rest) => (var (String.ofList name), rest)

/-! ## Numbers -/

/-- The sign that a text starts with, and the rest. -/
def takeSign : List Char → List Char × List Char
  | '+' :: cs => (['+'], cs)
  | '-' :: cs => (['-'], cs)
  | cs => ([], cs)

/-- Digits with a point in front, inside or behind. -/
def scanFloat (cs : List Char) : Option (Token × List Char) :=
  let (sign, r) := takeSign cs
  let whole := Digits.leading r
  match Digits.rest r with
  | '.' :: r =>
    let frac := Digits.leading r
    if whole.isEmpty && frac.isEmpty then none
    else some (float (String.ofList (sign ++ whole ++ '.' :: frac)), Digits.rest r)
  | _ => none

/-- A sign, if there is one, and digits. -/
def scanInteger (cs : List Char) : Option (Token × List Char) :=
  let (sign, r) := takeSign cs
  let whole := Digits.leading r
  if whole.isEmpty then none
  else some (integer (String.ofList (sign ++ whole)), Digits.rest r)

/-! ## Strings -/

/-- The text up to the closing quote, and what follows it.  A backslash stands
    in front of a quote or of a backslash only. -/
def splitBody (quote : Char) : List Char → Option (List Char × List Char)
  | [] => none
  | '\\' :: c :: cs =>
    if c = quote ∨ c = '\\' then
      (splitBody quote cs).map fun (body, rest) => ('\\' :: c :: body, rest)
    else none
  | c :: cs =>
    if c = quote then some ([], cs)
    else if c = '\\' then none
    else (splitBody quote cs).map fun (body, rest) => (c :: body, rest)

/-- A text without the backslashes in front of the quote; a backslash in front
    of anything else stays. -/
def unescape (quote : Char) : List Char → List Char
  | '\\' :: c :: cs =>
    if c = quote then quote :: unescape quote cs else '\\' :: c :: unescape quote cs
  | c :: cs => c :: unescape quote cs
  | [] => []

/-- A text between quotes of either sort. -/
def scanString : List Char → Option (Token × List Char)
  | [] => none
  | c :: cs =>
    if c = '"' ∨ c = '\'' then
      (splitBody c cs).map fun (body, rest) => (string (String.ofList (unescape c body)), rest)
    else none

/-! ## Tokens -/

/-- A comma or a bracket. -/
def scanPunctuation : List Char → Option (Token × List Char)
  | ',' :: cs => some (comma, cs)
  | '(' :: cs => some (openParen, cs)
  | ')' :: cs => some (closeParen, cs)
  | '[' :: cs => some (openBracket, cs)
  | ']' :: cs => some (closeBracket, cs)
  | _ => none

/-- The token that a text starts with, and the rest. -/
def scan (cs : List Char) : Option (Token × List Char) :=
  (scanSymbol cs).or <| (scanVar cs).or <| (scanFloat cs).or <| (scanInteger cs).or <|
    (scanString cs).or (scanPunctuation cs)

/-! ## Progress -/

theorem length_splitWord {cs w rest : List Char} (h : splitWord cs = some (w, rest)) :
    rest.length < cs.length := by
  cases cs with
  | nil => cases h
  | cons c cs =>
    simp only [splitWord] at h
    split at h
    · cases h
      have := (List.dropWhile_sublist isWordPart (l := cs)).length_le
      simp only [List.length_cons]; omega
    · cases h

theorem length_takeSign_le (cs : List Char) : (takeSign cs).2.length ≤ cs.length := by
  unfold takeSign
  split <;> simp

theorem length_splitBody {quote : Char} {cs body rest : List Char}
    (h : splitBody quote cs = some (body, rest)) : rest.length < cs.length := by
  fun_induction splitBody quote cs generalizing body rest with
  | case1 => cases h
  | case2 c cs _ ih =>
    obtain ⟨⟨b, r⟩, hb, e⟩ := Option.map_eq_some_iff.1 h
    cases e
    have := ih hb
    simp only [List.length_cons]; omega
  | case3 => cases h
  | case4 => cases h; simp
  | case5 => cases h
  | case6 c cs _ _ _ ih =>
    obtain ⟨⟨b, r⟩, hb, e⟩ := Option.map_eq_some_iff.1 h
    cases e
    have := ih hb
    simp only [List.length_cons]; omega

theorem length_scanSymbol {cs rest : List Char} {t : Token} (h : scanSymbol cs = some (t, rest)) :
    rest.length < cs.length := by
  unfold scanSymbol at h
  split at h
  · next cd r hw =>
    obtain ⟨⟨n, r'⟩, hn, e⟩ := Option.map_eq_some_iff.1 h
    cases e
    have := length_splitWord hw
    have := length_splitWord hn
    simp only [List.length_cons] at *; omega
  · cases h

theorem length_scanVar {cs rest : List Char} {t : Token} (h : scanVar cs = some (t, rest)) :
    rest.length < cs.length := by
  obtain ⟨⟨n, r⟩, hn, e⟩ := Option.map_eq_some_iff.1 h
  cases e
  exact length_splitWord hn

theorem length_scanFloat {cs rest : List Char} {t : Token} (h : scanFloat cs = some (t, rest)) :
    rest.length < cs.length := by
  have a := length_takeSign_le cs
  have b := Digits.length_leading_add (takeSign cs).2
  simp only [scanFloat] at h
  split at h
  · next r hr =>
    have c := Digits.length_leading_add r
    rw [hr, List.length_cons] at b
    split at h
    · cases h
    · cases h; omega
  · cases h

theorem length_scanInteger {cs rest : List Char} {t : Token} (h : scanInteger cs = some (t, rest)) :
    rest.length < cs.length := by
  have a := length_takeSign_le cs
  have b := Digits.length_leading_add (takeSign cs).2
  simp only [scanInteger] at h
  split at h
  · cases h
  · next hw =>
    have : (Digits.leading (takeSign cs).2).length ≠ 0 := by
      intro z; exact hw (by simp [List.eq_nil_of_length_eq_zero z])
    cases h; omega

theorem length_scanString {cs rest : List Char} {t : Token} (h : scanString cs = some (t, rest)) :
    rest.length < cs.length := by
  cases cs with
  | nil => cases h
  | cons c cs =>
    simp only [scanString] at h
    split at h
    · obtain ⟨⟨b, r⟩, hb, e⟩ := Option.map_eq_some_iff.1 h
      cases e
      have := length_splitBody hb
      simp only [List.length_cons]; omega
    · cases h

theorem length_scanPunctuation {cs rest : List Char} {t : Token}
    (h : scanPunctuation cs = some (t, rest)) : rest.length < cs.length := by
  unfold scanPunctuation at h
  split at h <;> cases h <;> simp

/-- A token takes at least one character. -/
theorem scan_shorter {cs rest : List Char} {t : Token} (h : scan cs = some (t, rest)) :
    rest.length < cs.length := by
  simp only [scan, Option.or_eq_some_iff] at h
  rcases h with h | ⟨-, h | ⟨-, h | ⟨-, h | ⟨-, h | ⟨-, h⟩⟩⟩⟩⟩
  · exact length_scanSymbol h
  · exact length_scanVar h
  · exact length_scanFloat h
  · exact length_scanInteger h
  · exact length_scanString h
  · exact length_scanPunctuation h

/-! ## Whole texts -/

/-- How many characters a message shows of a place without a token. -/
def shownLength : Nat := 11

/-- The tokens of a text. -/
def ofChars (cs : List Char) : Except Error (List Token) :=
  if cs.isEmpty then return []
  else match _h : scan cs with
    | some (t, rest) => do
      let ts ← ofChars rest
      return t :: ts
    | none => .error (.unreadable (.noToken (String.ofList (cs.take shownLength))))
termination_by cs.length
decreasing_by exact scan_shorter _h

end Token

end OpenMath
