/-
  Reading the compact notation.

  An expression is a symbol, a variable, a number or a string, behind which any
  number of groups may stand: arguments in parentheses make an application,
  variables and a body in brackets a binding.  The reader keeps a stack of the
  expressions that it has read, some of which are marked as heads of groups that
  are still open.

  * `Compact.Reading`: where the reader is;
  * `Compact.Interpretation`: what the expressions are read as;
  * `Compact.run`: the reader on a list of tokens;
  * `Compact.parse`: the shape that a text writes;
  * `Arena.parse`: the same as a tree in an arena.
-/
import OpenMath.Compact.Token
import OpenMath.Arena.Construction

namespace OpenMath.Compact

/-! ## Where the reader is -/

/-- The two sorts of groups. -/
inductive Group where
  | application
  | binding
deriving DecidableEq

/-- The bracket that a group starts with. -/
def Group.opening : Group → Char
  | application => '('
  | binding => '['

/-- The bracket that a group ends with. -/
def Group.closing : Group → Char
  | application => ')'
  | binding => ']'

/-- What an expression was read as, and the group that it is the head of, if that
    is still open. -/
structure Entry (α : Type) where
  value : α
  opens : Option Group

/-- Where the reader is: an expression has to come next, or one has just ended.
    The stack below holds what was read before, the latest on top. -/
inductive Reading (α : Type) where
  | expecting (below : List (Entry α))
  | ended (top : α) (below : List (Entry α))

/-- What expressions are read as: single tokens, a head with operands, and a head
    with variables and a body. -/
structure Interpretation (α : Type) where
  atom : Token → Except Error α
  application : α → List α → Except Error α
  binding : α → List α → α → Except Error α

/-! ## Steps -/

/-- The error about a token that must not stand where it stands. -/
def unexpected {α : Type} (token : String) : Except Error α :=
  .error (.unreadable (.unexpected token))

/-- The error about a text that ends too early. -/
def endedEarly {α : Type} : Except Error α := .error (.unreadable .unexpectedEnd)

/-- The shape of a numeral, which is held as a number if it fits into 64 bits. -/
def integerAtom (text : String) : Except Error Json := do
  let v ← Integer.ofNumeral text
  Shape.integer v

/-- The shape of a numeral with a point, which is rounded to a double. -/
def floatAtom (text : String) : Except Error Json :=
  match Double.ofText? text with
  | some x => Shape.float x
  | none => unexpected text

/-- The shape of a single token. -/
def atom : Token → Except Error Json
  | .symbol cd name => Shape.symbol name cd none
  | .var name => Shape.var name
  | .integer text => integerAtom text
  | .float text => floatAtom text
  | .string text => Shape.string text
  | t => unexpected t.toText

/-- Expressions as shapes.  The parts of a group were checked when they were
    read. -/
def shapes : Interpretation Json where
  atom := atom
  application head operands := Shape.joinApplication (head :: operands)
  binding := Shape.joinBinding

section
variable {α : Type}

/-- What stands above the nearest open head: the group that the head opened, the
    head, the expressions behind it in order, and the stack below it. -/
def nearestHead (behind : List α) : List (Entry α) → Option (Group × α × List α × List (Entry α))
  | [] => none
  | ⟨value, some g⟩ :: below => some (g, value, behind, below)
  | ⟨value, none⟩ :: below => nearestHead (value :: behind) below

variable (I : Interpretation α)

/-- The expression that a closed group makes of its head, the expressions behind
    it, and the last of these. -/
def Group.join (g : Group) (head : α) (behind : List α) (last : α) : Except Error α :=
  match g with
  | application => I.application head (behind ++ [last])
  | binding => I.binding head behind last

/-- Closes the group of the nearest open head. -/
def close (g : Group) (top : α) (below : List (Entry α)) : Except Error (Reading α) :=
  match nearestHead [] below with
  | none => unexpected (String.singleton g.closing)
  | some (opened, head, behind, below) =>
    if opened = g then do
      let value ← g.join I head behind top
      return .ended value below
    else .error (.unreadable (.mismatch opened.opening g.closing))

/-- The reader on a list of tokens. -/
def run : Reading α → List Token → Except Error (Reading α)
  | r, [] => .ok r
  | .expecting below, t :: ts => do
    let value ← I.atom t
    run (.ended value below) ts
  | .ended top below, .comma :: ts => run (.expecting (⟨top, none⟩ :: below)) ts
  | .ended top below, .openParen :: .closeParen :: ts => do
    let value ← I.application top []
    run (.ended value below) ts
  | .ended top below, .openParen :: ts =>
    run (.expecting (⟨top, some .application⟩ :: below)) ts
  | .ended top below, .openBracket :: ts =>
    run (.expecting (⟨top, some .binding⟩ :: below)) ts
  | .ended top below, .closeParen :: ts => do
    let r ← close I .application top below
    run r ts
  | .ended top below, .closeBracket :: ts => do
    let r ← close I .binding top below
    run r ts
  | .ended _ _, t :: _ => unexpected t.toText

end

/-- The shape of a reader that is through: just one expression has ended. -/
def finish : Reading Json → Except Error Json
  | .ended top [] => Wire.validated top
  | _ => endedEarly

/-! ## Whole texts -/

/-- The shape that tokens write. -/
def parseTokens (ts : List Token) : Except Error Json := do
  let r ← run shapes (.expecting []) ts
  finish r

/-- The shape that a text writes. -/
def parse (text : String) : Except Error Json := do
  let ts ← Token.ofChars text.toList
  parseTokens ts

end OpenMath.Compact

namespace OpenMath

/-- Adds the tree that a text in compact notation writes. -/
def Arena.parse (text : String) : Edit NodeId := make (Compact.parse text)

end OpenMath
