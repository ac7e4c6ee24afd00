/-
  The compact text of a tree.

  An application is its head with its operands in parentheses, a binding its
  head with its variables and then its body in brackets.  The text leaves out
  attributes and uris, and shows byte arrays and errors by a fixed text each; a
  missing part is shown by `'?'`.

  * `Tree.compactChars`, `Tree.compact`: the text of a tree;
  * `compactChars_node`: its equation at a node.
-/
import OpenMath.Tree.Basic
import OpenMath.Text.Separated

namespace OpenMath

/-! ## Quoted texts -/

/-- A text with a backslash in front of every single quote. -/
def escapeQuotes (s : List Char) : List Char :=
  s.flatMap fun c => if c = '\'' then ['\\', '\''] else [c]

/-- A text between single quotes. -/
def quoteText (s : List Char) : List Char := '\'' :: escapeQuotes s ++ ['\'']

/-- What stands for a missing part. -/
def missingPart : List Char := ['\'', '?', '\'']

namespace Tree

variable {ι : Type}

/-! ## Trees -/

/-- The text of a node, given those of its owned trees. -/
def compactStep (k : Kind) (ss : Slots (List Char)) : List Char :=
  match k with
  | .integer v => v.toText.toList
  | .float x => x.plainText.toList
  | .string s => quoteText s.toList
  | .byteArray _ => quoteText "byte array".toList
  | .symbol s => s.toText.toList
  | .var name => name.toList
  | .application =>
    match ss.children with
    | [] => missingPart
    | head :: operands => head ++ '(' :: Text.commaSeparated operands ++ [')']
  | .binding =>
    ss.head?.getD missingPart ++
      '[' :: Text.commaSeparated (ss.bound ++ [ss.body?.getD missingPart]) ++ [']']
  | .error => quoteText "error".toList

/-- The compact text of a tree, as characters. -/
def compactChars : Tree ι → List Char := fold fun _ k ss => compactStep k ss

/-- The compact text of a tree. -/
def compact (t : Tree ι) : String := String.ofList t.compactChars

theorem compactChars_node (l : ι) (k : Kind) (ss : Slots (Tree ι)) :
    compactChars (.node l k ss) = compactStep k (ss.mapContent compactChars) := by
  rw [compactChars, fold_node]

end Tree

end OpenMath
