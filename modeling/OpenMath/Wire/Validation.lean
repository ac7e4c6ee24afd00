/-
  Validation of shapes.

  A shape is a JSON value that describes an object: `{"t": tag, …}` with the
  fields of its kind, and attributes under `"a"` whose keys are texts of symbol
  shapes.  Validation finds the first violation: attributes come before the
  type, the type before unknown fields, and those before the fields themselves,
  from left to right.

  * `checkNode`: the rules of one node, given checks for the shapes inside it;
  * `validate`: the rules of a node and of all shapes inside, where the shape
    that an attribute key writes counts as being inside;
  * `validateShallow`: the rules of a node whose parts are known to be valid.
-/
import OpenMath.Json.Bound
import OpenMath.Integer
import OpenMath.Symbol

namespace OpenMath.Wire

/-! ## Checks of parts -/

/-- A check for the values that are lighter than a given weight. -/
abbrev SubCheck (w : Nat) := (v : Json) → v.weight < w → Check

/-- A check of each item, from left to right. -/
def checkEach {α : Type} : (xs : List α) → ((x : α) → x ∈ xs → Check) → Check
  | [], _ => Check.pass
  | x :: xs, f => do
    f x (List.mem_cons_self ..)
    checkEach xs fun y h => f y (List.mem_cons_of_mem x h)

theorem weight_lt_of_get? {fs : Json.Fields} {k : String} {v : Json} (h : fs.get? k = some v) :
    v.weight < (Json.obj fs).weight :=
  Nat.lt_of_le_of_lt (Nat.le_add_left ..) (Json.weight_lt_of_mem_fields (Json.mem_of_get? h))

theorem weight_lt_of_mem_get? {fs : Json.Fields} {k : String} {xs : List Json} {x : Json}
    (h : fs.get? k = some (.arr xs)) (hx : x ∈ xs) : x.weight < (Json.obj fs).weight :=
  Nat.lt_trans (Json.weight_lt_of_mem_items hx) (weight_lt_of_get? h)

theorem weight_lt_of_key {fs as : Json.Fields} {f : String × Json} {v : Json}
    (h : fs.get? "a" = some (.obj as)) (hf : f ∈ as) (hv : Json.parse? f.1 = some v) :
    v.weight < (Json.obj fs).weight := by
  have a := Json.weight_le_of_parse? hv
  have b := Json.weight_lt_of_mem_fields hf
  have c := weight_lt_of_get? h
  omega

theorem weight_lt_of_attribute {fs as : Json.Fields} {f : String × Json}
    (h : fs.get? "a" = some (.obj as)) (hf : f ∈ as) : f.2.weight < (Json.obj fs).weight := by
  have b := Json.weight_lt_of_mem_fields hf
  have c := weight_lt_of_get? h
  omega

/-! ## Fields -/

/-- The fields that shapes of a kind may have, besides tag and attributes. -/
def fieldNames : NodeType → List String
  | .integer | .float | .string | .byteArray => ["v"]
  | .symbol => ["n", "cd", "uri"]
  | .var => ["n"]
  | .application => ["c"]
  | .binding => ["s", "v", "b"]
  | .error => ["s", "c"]

/-- No field but the tag, the attributes, and those of the kind. -/
def checkKeys (fs : Json.Fields) (type : NodeType) : Check :=
  checkEach fs fun f _ =>
    Check.require (f.1 == "t" || f.1 == "a" || (fieldNames type).contains f.1)
      (.unknownField f.1 (Json.shown (fs.get? "t")))

/-- Each attribute key is the text of a symbol's shape, each value a shape. -/
def checkAttributes (fs : Json.Fields) (key value : SubCheck (Json.obj fs).weight) : Check :=
  match h : fs.get? "a" with
  | none => Check.pass
  | some (.obj as) =>
    checkEach as fun f hf =>
      match hv : Json.parse? f.1 with
      | none => Check.violated (.keyNotJson f.1)
      | some shape => do
        Check.require (shape.nodeType? == some .symbol) (.keyNotSymbol f.1)
        key shape (weight_lt_of_key h hf hv)
        value f.2 (weight_lt_of_attribute h hf)
  | some other => Check.violated (.attributesNotObject other.kind)

/-! ## Leaves -/

/-- An integer: a number without fractional part, or the text of one. -/
def isInteger : Option Json → Bool
  | some (.number n) => (Integer.ofNumber? n).isSome
  | some (.str s) => Identifier.isIntegerText s
  | _ => false

/-- The double nearest to a number. -/
def double? : Json → Option Double
  | .number (.integer n) => some (Double.ofInt n)
  | .number (.real x) => some x
  | _ => none

/-- The byte that a number is. -/
def byte? : Json → Option UInt8
  | .number (.integer n) => if 0 ≤ n ∧ n < 256 then some (UInt8.ofNat n.toNat) else none
  | _ => none

/-- The bytes that a list of numbers is. -/
def bytes? : Json → Option (List UInt8)
  | .arr xs => xs.mapM byte?
  | _ => none

/-- An integer is a number without fractional part, or the text of an integer. -/
def checkInteger (v : Option Json) : Check :=
  Check.require (isInteger v) (.notAnInteger (Json.shown v))

/-- A float is a finite number. -/
def checkFloat (v : Option Json) : Check :=
  match v.bind double? with
  | none => Check.violated (.notANumber (Json.shown v) (Json.kindOf v))
  | some x => do
    Check.require (!x.isNaN) .floatNaN
    Check.require x.isFinite .floatInfinite

/-- A field that holds a text. -/
def checkText (field : TextField) (v : Option Json) : Check :=
  Check.require (v.bind Json.text?).isSome (.notText field (Json.kindOf v))

/-- A byte array is a list of numbers from 0 to 255. -/
def checkBytes (v : Option Json) : Check :=
  Check.require (v.bind bytes?).isSome .notBytes

/-- A field that holds an identifier. -/
def checkIdentifier (field : TextField) (role : NameRole) (v : Option Json) : Check :=
  match v with
  | some (.str name) => Symbol.checkName role name
  | _ => Check.violated (.notText field (Json.kindOf v))

/-- The base uri of a symbol: a text, null, or nothing. -/
def checkUri (v : Option Json) : Check :=
  match v with
  | none | some .null => Check.pass
  | _ => checkText .symbolUri v

/-- The fields of a symbol: first that they are texts, then that the names are
    identifiers. -/
def checkSymbol (fs : Json.Fields) : Check := do
  checkText .symbolName (fs.get? "n")
  checkText .symbolCd (fs.get? "cd")
  checkUri (fs.get? "uri")
  checkIdentifier .symbolName .symbolName (fs.get? "n")
  checkIdentifier .symbolCd .symbolCd (fs.get? "cd")

/-! ## Compound shapes -/

/-- An application has a list of children, of which there is at least one. -/
def checkApplication (fs : Json.Fields) (part : SubCheck (Json.obj fs).weight) : Check :=
  match h : fs.get? "c" with
  | some (.arr xs) => do
    Check.require (!xs.isEmpty) .noChildren
    checkEach xs fun x hx => part x (weight_lt_of_mem_get? h hx)
  | _ => Check.violated .childrenNotList

/-- The head of a binding or an error is a valid symbol. -/
def checkHead (fs : Json.Fields) (owner : HeadOwner) (part : SubCheck (Json.obj fs).weight) :
    Check :=
  match h : fs.get? "s" with
  | none => Check.violated (.notAnObject .undefined)
  | some head => do
    part head (weight_lt_of_get? h)
    Check.require (head.nodeType? == some .symbol) (.headNotSymbol owner)

/-- Bound variables are valid variables in a list, which may be empty. -/
def checkBound (fs : Json.Fields) (part : SubCheck (Json.obj fs).weight) : Check :=
  match h : fs.get? "v" with
  | some (.arr xs) =>
    checkEach xs fun x hx => do
      part x (weight_lt_of_mem_get? h hx)
      Check.require (x.nodeType? == some .var) .boundNotVar
  | _ => Check.violated .boundNotList

/-- The body of a binding is any valid shape. -/
def checkBody (fs : Json.Fields) (part : SubCheck (Json.obj fs).weight) : Check :=
  match h : fs.get? "b" with
  | none => Check.violated (.notAnObject .undefined)
  | some body => part body (weight_lt_of_get? h)

/-- The children of an error, which may be left out. -/
def checkErrorChildren (fs : Json.Fields) (part : SubCheck (Json.obj fs).weight) : Check :=
  match h : fs.get? "c" with
  | none => Check.pass
  | some (.arr xs) => checkEach xs fun x hx => part x (weight_lt_of_mem_get? h hx)
  | some _ => Check.violated .errorChildrenNotList

/-- The fields of a shape of a given kind. -/
def checkFields (fs : Json.Fields) (type : NodeType) (part : SubCheck (Json.obj fs).weight) :
    Check :=
  match type with
  | .integer => checkInteger (fs.get? "v")
  | .float => checkFloat (fs.get? "v")
  | .string => checkText .stringValue (fs.get? "v")
  | .byteArray => checkBytes (fs.get? "v")
  | .symbol => checkSymbol fs
  | .var => checkIdentifier .varName .varName (fs.get? "n")
  | .application => checkApplication fs part
  | .binding => do
    checkHead fs .binding part
    checkBound fs part
    checkBody fs part
  | .error => do
    checkHead fs .error part
    checkErrorChildren fs part

/-! ## Shapes -/

/-- The rules of a node: `key` checks the shapes that attribute keys write, and
    `part` any other shape inside the node. -/
def checkNode (fs : Json.Fields) (key part : SubCheck (Json.obj fs).weight) : Check := do
  checkAttributes fs key part
  match (Json.obj fs).nodeType? with
  | none => Check.violated (.unknownType (Json.shown (fs.get? "t")))
  | some type => do
    checkKeys fs type
    checkFields fs type part

/-- The first violation of the data model in a shape, if there is one. -/
def validate : Json → Check
  | .obj fs => checkNode fs (fun v _ => validate v) (fun v _ => validate v)
  | v => Check.violated (.notAnObject v.kind)
termination_by v => v.weight

/-- The first violation at the top of a shape, whose parts are known to be
    valid.  Attribute keys are checked all the same. -/
def validateShallow : Json → Check
  | .obj fs => checkNode fs (fun v _ => validate v) (fun _ _ => Check.pass)
  | v => Check.violated (.notAnObject v.kind)

/-- A shape, if it breaks no rule. -/
def validated (shape : Json) : Except Error Json := do
  validate shape
  return shape

end OpenMath.Wire
