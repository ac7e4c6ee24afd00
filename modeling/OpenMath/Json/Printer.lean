/-
  The compact text of a JSON value.

  Nothing stands between the parts of a value, fields come in the order of
  their keys, and a string escapes the quote, the backslash and the control
  characters only.

  * `Json.chars`: the text of a value, as characters;
  * `Json.compact`: the same as a string;
  * `Json.Kind`, `Json.shown`: how messages name and quote a value.
-/
import OpenMath.Json.Basic
import OpenMath.Text.Hex
import OpenMath.Text.Separated
import OpenMath.Double.Text

namespace OpenMath.Json

/-! ## Scalars -/

/-- The letter that escapes a character in short form. -/
def shortEscape? : Char → Option Char
  | '"' => some '"'
  | '\\' => some '\\'
  | '\x08' => some 'b'
  | '\x0c' => some 'f'
  | '\n' => some 'n'
  | '\r' => some 'r'
  | '\t' => some 't'
  | _ => none

/-- A character as it stands inside of quotes. -/
def escapeChar (c : Char) : List Char :=
  match shortEscape? c with
  | some l => ['\\', l]
  | none => if c.toNat < 0x20 then '\\' :: 'u' :: Hex.four c.toNat else [c]

/-- A text between quotes, with escapes. -/
def quoted (s : List Char) : List Char := '"' :: s.flatMap escapeChar ++ ['"']

/-- The digits of an integer, or the shortest text of a double. -/
def Number.chars : Number → List Char
  | .integer n => Digits.ofInt n
  | .real x => (x.toText .json).toList

/-! ## Values -/

mutual

/-- The compact text of a value. -/
def chars : Json → List Char
  | .null => ['n', 'u', 'l', 'l']
  | .bool true => ['t', 'r', 'u', 'e']
  | .bool false => ['f', 'a', 'l', 's', 'e']
  | .number n => n.chars
  | .str s => quoted s.toList
  | .arr xs => '[' :: Text.commaSeparated (itemChars xs) ++ [']']
  | .obj fs => '\x7b' :: Text.commaSeparated (fieldChars fs) ++ ['\x7d']

/-- The texts of the items of an array. -/
def itemChars : List Json → List (List Char)
  | [] => []
  | x :: xs => chars x :: itemChars xs

/-- The texts of the fields of an object, each with its key. -/
def fieldChars : List (String × Json) → List (List Char)
  | [] => []
  | (k, v) :: fs => (quoted k.toList ++ ':' :: chars v) :: fieldChars fs

end

/-- The compact text of a value. -/
def compact (v : Json) : String := String.ofList v.chars

/-! ## Values in messages -/

/-- What kind of value stands in a place, if any does. -/
inductive Kind where
  | undefined | null | boolean | number | string | array | object
deriving DecidableEq

/-- The word for a kind in messages. -/
def Kind.name : Kind → String
  | undefined => "undefined"
  | null => "null"
  | boolean => "boolean"
  | number => "number"
  | string => "string"
  | array => "array"
  | object => "object"

/-- The kind of a value. -/
def kind : Json → Kind
  | .null => .null
  | .bool _ => .boolean
  | .number _ => .number
  | .str _ => .string
  | .arr _ => .array
  | .obj _ => .object

/-- The kind of the value in a place. -/
def kindOf (v : Option Json) : Kind := (v.map kind).getD .undefined

/-- A value as messages quote it: a string without its quotes, anything else in
    compact form. -/
def shown : Option Json → String
  | none => "undefined"
  | some (.str s) => s
  | some v => v.compact

end OpenMath.Json
