/-
  The XML form of trees.

  Every element stands on a line of its own, two spaces further in than its
  owner; only the bound variables of a binding share a line.  Attributes are
  left out.  Byte arrays, and bindings and errors that lack their head or body,
  have no XML form.

  An element is written as a document with a style for each sort of text, so that
  it can be written plain or with colours.

  * `Xml.Element`: the elements of an XML text;
  * `Xml.Element.document`: the document of an element;
  * `Tree.toXml`: the element of a tree.
-/
import OpenMath.Compact.Printer
import OpenMath.Document
import OpenMath.Error

namespace OpenMath

namespace Xml

/-! ## Styles -/

/-- The sorts of text that have a style. -/
inductive Style where
  | bracket | tag | attributeName | value | text
deriving DecidableEq

/-- Faint brackets, bold blue tags, cyan attribute names, green values, yellow text. -/
def Style.colorSpec : Style → ColorSpec
  | bracket => { dimmed := true }
  | tag => { foreground := some .blue, bold := true }
  | attributeName => { foreground := some .cyan }
  | value => { foreground := some .green }
  | text => { foreground := some .yellow }

/-- A text with a style. -/
def piece (style : Style) (text : List Char) : Document Style := .annotate style (.text text)

/-! ## Tags -/

/-- A document with an attribute behind it. -/
def withAttribute (d : Document Style) (a : String × String) : Document Style :=
  (((d.append .space).append (piece .attributeName a.1.toList)).append
    (piece .bracket ['='])).append (piece .value ('"' :: (a.2.toList ++ ['"'])))

/-- The tag in front of an element, or the only one if nothing is in it. -/
def openTag (tag : String) (attributes : List (String × String)) (empty : Bool) : Document Style :=
  (attributes.foldl withAttribute ((piece .bracket ['<']).append (piece .tag tag.toList))).append
    (piece .bracket (if empty then ['/', '>'] else ['>']))

/-- The tag behind an element. -/
def closeTag (tag : String) : Document Style :=
  ((piece .bracket ['<', '/']).append (piece .tag tag.toList)).append (piece .bracket ['>'])

/-! ## Elements -/

/-- An element of an XML text, in one of four forms. -/
inductive Element where
  /-- a tag with attributes and nothing in it -/
  | empty (tag : String) (attributes : List (String × String))
  /-- a tag around a text -/
  | text (tag : String) (content : List Char)
  /-- a tag around elements on its own line -/
  | inline (tag : String) (children : List Element)
  /-- a tag around elements on lines of their own -/
  | block (tag : String) (children : List Element)

/-- A tag around documents on lines of their own. -/
def blockDocument (tag : String) (children : List (Document Style)) : Document Style :=
  (((openTag tag [] false).append
    (.nest 2 (Document.append .hardline (.intersperse .hardline children)))).append
      .hardline).append (closeTag tag)

namespace Element

mutual

/-- The document of an element. -/
def document : Element → Document Style
  | empty tag attributes => openTag tag attributes true
  | text tag content => ((openTag tag [] false).append (piece .text content)).append (closeTag tag)
  | inline tag children =>
    ((openTag tag [] false).append (.concat (documents children))).append (closeTag tag)
  | block tag children => blockDocument tag (documents children)

/-- The documents of elements in a row. -/
def documents : List Element → List (Document Style)
  | [] => []
  | e :: es => document e :: documents es

end

end Element

/-- A text with its markup characters escaped. -/
def escapeText (s : List Char) : List Char :=
  s.flatMap fun c =>
    if c = '&' then ['&', 'a', 'm', 'p', ';'] else if c = '<' then ['&', 'l', 't', ';'] else [c]

end Xml

namespace Tree

variable {ι : Type}

open Xml (Element)

/-- The refusal of a tree without XML form. -/
def noXml {α : Type} (t : Tree ι) : Except Error α := .error (.refused (.noXml t.compact))

/-- The element in a slot of a node, which must not be empty. -/
def requiredXml (owner : Tree ι) : Option (Except Error Element) → Except Error Element
  | some e => e
  | none => noXml owner

/-- The element of a node, given those of its owned trees. -/
def xmlStep (here : Tree ι) (ss : Slots (Except Error Element)) : Except Error Element :=
  match here.kind with
  | .integer v => return .text "OMI" v.toText.toList
  | .float x => return .empty "OMF" [("dec", x.plainText)]
  | .string s => return .text "OMSTR" (Xml.escapeText s.toList)
  | .byteArray _ => noXml here
  | .symbol s => return .empty "OMS" [("cd", s.cd), ("name", s.name)]
  | .var name => return .empty "OMV" [("name", name)]
  | .application => do
    let children ← ss.children.mapM id
    return .block "OMA" children
  | .binding => do
    let bound ← ss.bound.mapM id
    let head ← requiredXml here ss.head?
    let body ← requiredXml here ss.body?
    return .block "OMBIND" [head, .inline "OMBVAR" bound, body]
  | .error => do
    let head ← requiredXml here ss.head?
    let children ← ss.children.mapM id
    return .block "OME" (head :: children)

/-- The element of a tree, unless it has no XML form. -/
def toXml : Tree ι → Except Error Element :=
  recurse fun t ss => xmlStep t (ss.mapContent (·.2))

theorem toXml_eq (t : Tree ι) : t.toXml = xmlStep t (t.slots.mapContent toXml) := by
  rw [toXml, recurse_eq, Slots.mapContent_mapContent]

end Tree

end OpenMath
