/-
  What can go wrong, and how it is reported.

  An error has one of three categories: a text that cannot be read, a value
  that breaks a rule of the data model, or an edit whose conditions do not
  hold.  Within its category an error is its cause; the wording is one function
  of the cause.

  * `SyntaxFault`, `Violation`, `Refusal`: the causes in each category;
  * `Error.reason`: the message of a cause;
  * `Error.message`: the same behind the name of its category.
-/
import OpenMath.Json.Printer
import OpenMath.NodeType

namespace OpenMath

/-! ## Texts that cannot be read -/

/-- Why a text cannot be read. -/
inductive SyntaxFault where
  | json
  /-- No token of the compact notation starts here; up to eleven characters of
      the place are kept. -/
  | noToken (here : String)
  /-- A token stands where the compact notation allows no such token. -/
  | unexpected (token : String)
  | unexpectedEnd
  /-- A group is closed by a bracket of the other sort. -/
  | mismatch (opened closed : Char)
  /-- A location tag has no index where it needs one. -/
  | badIndex (tag : String)
  /-- A text is no location tag. -/
  | badTag (tag : String)
deriving DecidableEq

/-- The message of a fault.  The one about JSON is a fixed text. -/
def SyntaxFault.reason : SyntaxFault → String
  | json => "not a JSON text"
  | noToken here => "Could not understand from here: " ++ here
  | unexpected token => "Unexpected " ++ token
  | unexpectedEnd => "Unexpected end of input"
  | mismatch opened closed =>
    "Mismatch: " ++ opened.toString ++ " closed by " ++ closed.toString
  | badIndex tag => "Invalid location index in `" ++ tag ++ "`"
  | badTag tag => "Unknown location tag `" ++ tag ++ "`"

/-! ## Values that break a rule -/

/-- What an identifier names. -/
inductive NameRole where
  | symbolName | symbolCd | varName
deriving DecidableEq

/-- How messages call what an identifier names. -/
def NameRole.phrase : NameRole → String
  | symbolName => "symbol name"
  | symbolCd => "symbol CD"
  | varName => "variable name"

/-- A field of a shape that holds a text. -/
inductive TextField where
  | stringValue | symbolName | symbolCd | symbolUri | varName
deriving DecidableEq

/-- How messages call a text field. -/
def TextField.phrase : TextField → String
  | stringValue => "Value for st type"
  | symbolName => "Name for sy type"
  | symbolCd => "CD for sy type"
  | symbolUri => "URI for sy type"
  | varName => "Name for v type"

/-- Whose head symbol a rule is about. -/
inductive HeadOwner where
  | binding | error
deriving DecidableEq

/-- How messages call the owner of a head symbol. -/
def HeadOwner.phrase : HeadOwner → String
  | binding => "a binding"
  | error => "an error"

/-- A rule of the data model that a value breaks.  Values are kept as messages
    quote them. -/
inductive Violation where
  /-- A shape is not an object. -/
  | notAnObject (found : Json.Kind)
  /-- The attributes of a shape are not an object. -/
  | attributesNotObject (found : Json.Kind)
  /-- The attributes of a shape that gets more of them are not an object. -/
  | attributesNotExtensible
  /-- Attributes are added to something that is not an object. -/
  | attributionOfNonObject
  /-- An attribute key is not JSON. -/
  | keyNotJson (key : String)
  /-- An attribute key is not the shape of a symbol. -/
  | keyNotSymbol (key : String)
  /-- A shape has no known type tag. -/
  | unknownType (shown : String)
  /-- A shape has a field that its type does not have. -/
  | unknownField (key type : String)
  | notAnInteger (shown : String)
  /-- A value is not a number. -/
  | notANumber (shown : String) (found : Json.Kind)
  | floatNaN
  | floatInfinite
  /-- A text field holds something else. -/
  | notText (field : TextField) (found : Json.Kind)
  | notBytes
  /-- A name breaks the grammar of identifiers. -/
  | badIdentifier (role : NameRole) (name : String)
  /-- The children of an application are not a list. -/
  | childrenNotList
  | noChildren
  /-- The head of a binding or error is not a symbol. -/
  | headNotSymbol (owner : HeadOwner)
  /-- The bound variables of a binding are not a list. -/
  | boundNotList
  /-- A bound variable is not a variable. -/
  | boundNotVar
  /-- The children of an error are not a list. -/
  | errorChildrenNotList
  /-- A value that should be a symbol is none. -/
  | notASymbol (shown : String)
  /-- A field of a symbol is not a text. -/
  | symbolFieldNotText (field : String)
  /-- A shape lacks a part that the rules demand. -/
  | malformed (part : String)
deriving DecidableEq

/-- The message of a violation. -/
def Violation.reason : Violation → String
  | notAnObject found => "Expected an object, found " ++ found.name
  | attributesNotObject found => "Attributes must be an object, found " ++ found.name
  | attributesNotExtensible => "Attributes must be an object"
  | attributionOfNonObject => "Invalid first parameter to attribution"
  | keyNotJson key => "Key " ++ key ++ " invalid JSON"
  | keyNotSymbol key => "Key " ++ key ++ " is not a symbol"
  | unknownType shown => "Invalid type: " ++ shown
  | unknownField key type => "Key " ++ key ++ " not valid in object of type " ++ type
  | notAnInteger shown => "Not an integer: " ++ shown
  | notANumber shown found => "Not a number: " ++ shown ++ " of type " ++ found.name
  | floatNaN => "OpenMath floats cannot be NaN"
  | floatInfinite => "OpenMath floats must be finite"
  | notText field found => field.phrase ++ " was " ++ found.name ++ ", not string"
  | notBytes => "Value for ba type was not an array of bytes"
  | badIdentifier role name => "Invalid identifier as " ++ role.phrase ++ ": " ++ name
  | childrenNotList => "Children of application object was not an array"
  | noChildren => "Application object must have at least one child"
  | headNotSymbol owner => "Head of " ++ owner.phrase ++ " must be a symbol"
  | boundNotList => "In a binding, the v value must be an array"
  | boundNotVar => "In a binding, all values in the v array must have type v"
  | errorChildrenNotList => "In an error, the c key must be an array"
  | notASymbol shown => "Not a symbol: " ++ shown
  | symbolFieldNotText field => "Symbol field `" ++ field ++ "` must be a string"
  | malformed part => "Malformed " ++ part ++ " in validated shape"

/-! ## Edits that are refused -/

/-- A slot that a binding or error cannot do without. -/
inductive RequiredSlot where
  | head | body
deriving DecidableEq

/-- How messages call a required slot. -/
def RequiredSlot.phrase : RequiredSlot → String
  | head => "head symbol"
  | body => "body"

/-- Why an operation on a tree is refused. -/
inductive Refusal where
  /-- The node is not part of the arena. -/
  | staleNode
  /-- A node has lost a slot that its shape needs. -/
  | emptySlot (type : NodeType) (slot : RequiredSlot)
  /-- A node that is to be freed is still a part of another. -/
  | discardAttached
  /-- The head of a binding or error would no longer be a symbol. -/
  | headNeedsSymbol
  /-- A bound variable would no longer be a variable. -/
  | boundNeedsVar
  /-- A node would come to stand inside of itself. -/
  | replaceByAncestor
  /-- An attribute's owner or value is not part of the arena. -/
  | attributeStale
  /-- An attribute's value would come to hold its owner. -/
  | attributeCycle
  /-- A node has no XML form; its compact text is kept. -/
  | noXml (compact : String)
deriving DecidableEq

/-- The message of a refusal. -/
def Refusal.reason : Refusal → String
  | staleNode => "the node is not part of this arena"
  | emptySlot type slot => "cannot encode a " ++ type.tag ++ " without its " ++ slot.phrase
  | discardAttached => "cannot discard a node that is still attached to a parent"
  | headNeedsSymbol => "the head of a binding or error must be a symbol"
  | boundNeedsVar => "bound variables can only be replaced by variables"
  | replaceByAncestor => "cannot replace a node with one of its ancestors"
  | attributeStale => "attribute owner and value must both be live nodes"
  | attributeCycle => "an attribute value cannot be its owner or an ancestor of it"
  | noXml compact => "Cannot convert this to XML: " ++ compact

/-! ## Errors -/

/-- An error: its category and its cause. -/
inductive Error where
  | unreadable (fault : SyntaxFault)
  | invalid (violation : Violation)
  | refused (refusal : Refusal)
deriving DecidableEq

namespace Error

/-- The name of the category of an error. -/
def category : Error → String
  | unreadable _ => "Syntax"
  | invalid _ => "Validation"
  | refused _ => "OperationRefused"

/-- The message of an error without its category. -/
def reason : Error → String
  | unreadable fault => fault.reason
  | invalid violation => violation.reason
  | refused refusal => refusal.reason

/-- The phrase that introduces an error of a category. -/
def heading : Error → String
  | unreadable _ => "Syntax error: "
  | invalid _ => "Validation error: "
  | refused _ => "Operation refused: "

/-- The message of an error behind its category. -/
def message (e : Error) : String := e.heading ++ e.reason

end Error

/-- What a check returns: nothing, or the first error. -/
abbrev Check := Except Error Unit

namespace Check

/-- The check that finds nothing. -/
def pass : Check := .ok ()

/-- The check that finds a violation. -/
def violated (v : Violation) : Check := .error (.invalid v)

/-- A condition, with the violation that its absence is. -/
def require (condition : Bool) (v : Violation) : Check :=
  if condition then pass else violated v

end Check

end OpenMath
