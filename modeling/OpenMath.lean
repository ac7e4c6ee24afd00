import OpenMath.Arena.Basic
import OpenMath.Arena.Construction
import OpenMath.Arena.Editing
import OpenMath.Arena.History
import OpenMath.Arena.Navigation
import OpenMath.Arena.Reading
import OpenMath.Arena.Scope
import OpenMath.Arena.Substitution
import OpenMath.Compact.Offsets
import OpenMath.Compact.Parser
import OpenMath.Compact.Printer
import OpenMath.Compact.Token
import OpenMath.Document
import OpenMath.Double.Basic
import OpenMath.Double.Rounding
import OpenMath.Double.Shortest
import OpenMath.Double.Text
import OpenMath.Error
import OpenMath.Evaluation
import OpenMath.Identifier
import OpenMath.Integer
import OpenMath.Json.Basic
import OpenMath.Json.Bound
import OpenMath.Json.Parser
import OpenMath.Json.Printer
import OpenMath.Kind
import OpenMath.Location.Basic
import OpenMath.Location.Text
import OpenMath.NodeType
import OpenMath.Proofs.Arena.Addresses
import OpenMath.Proofs.Arena.Annotating
import OpenMath.Proofs.Arena.AttributeStore
import OpenMath.Proofs.Arena.CaptureAvoidance
import OpenMath.Proofs.Arena.Changes
import OpenMath.Proofs.Arena.Commands
import OpenMath.Proofs.Arena.Composing
import OpenMath.Proofs.Arena.Copies
import OpenMath.Proofs.Arena.DataModel
import OpenMath.Proofs.Arena.Detaching
import OpenMath.Proofs.Arena.Discarding
import OpenMath.Proofs.Arena.Displacing
import OpenMath.Proofs.Arena.Edits
import OpenMath.Proofs.Arena.Equality
import OpenMath.Proofs.Arena.Evaluating
import OpenMath.Proofs.Arena.Freeing
import OpenMath.Proofs.Arena.Grafting
import OpenMath.Proofs.Arena.Growing
import OpenMath.Proofs.Arena.Independence
import OpenMath.Proofs.Arena.Installing
import OpenMath.Proofs.Arena.Links
import OpenMath.Proofs.Arena.Literals
import OpenMath.Proofs.Arena.Making
import OpenMath.Proofs.Arena.Merging
import OpenMath.Proofs.Arena.Normalising
import OpenMath.Proofs.Arena.Occurrences
import OpenMath.Proofs.Arena.Payloads
import OpenMath.Proofs.Arena.Planting
import OpenMath.Proofs.Arena.Readers
import OpenMath.Proofs.Arena.Repeating
import OpenMath.Proofs.Arena.Replacing
import OpenMath.Proofs.Arena.Restoring
import OpenMath.Proofs.Arena.Rewriting
import OpenMath.Proofs.Arena.RoundTrip
import OpenMath.Proofs.Arena.Scopes
import OpenMath.Proofs.Arena.Searching
import OpenMath.Proofs.Arena.Siblings
import OpenMath.Proofs.Arena.Slots
import OpenMath.Proofs.Arena.Substituting
import OpenMath.Proofs.Arena.Trees
import OpenMath.Proofs.Arena.Trials
import OpenMath.Proofs.Arena.Walking
import OpenMath.Proofs.Arena.Writing
import OpenMath.Proofs.Compact.Grammar
import OpenMath.Proofs.Compact.Legible
import OpenMath.Proofs.Compact.Meaning
import OpenMath.Proofs.Compact.Partition
import OpenMath.Proofs.Compact.Printing
import OpenMath.Proofs.Compact.Rereading
import OpenMath.Proofs.Compact.Scanning
import OpenMath.Proofs.Compact.Stack
import OpenMath.Proofs.Compact.Tokens
import OpenMath.Proofs.Double.Numerals
import OpenMath.Proofs.Double.Products
import OpenMath.Proofs.Double.Range
import OpenMath.Proofs.Double.Rounding
import OpenMath.Proofs.Double.Shortest
import OpenMath.Proofs.Double.Whole
import OpenMath.Proofs.Integer
import OpenMath.Proofs.Json.Fields
import OpenMath.Proofs.Json.Literals
import OpenMath.Proofs.Json.Nesting
import OpenMath.Proofs.Json.Numbers
import OpenMath.Proofs.Json.Reading
import OpenMath.Proofs.Location.Text
import OpenMath.Proofs.Text.Digits
import OpenMath.Proofs.Text.Escaping
import OpenMath.Proofs.Text.Unescaping
import OpenMath.Proofs.Tree.Bare
import OpenMath.Proofs.Tree.Capture
import OpenMath.Proofs.Tree.Coarse
import OpenMath.Proofs.Tree.Equality
import OpenMath.Proofs.Tree.Grafts
import OpenMath.Proofs.Tree.Independence
import OpenMath.Proofs.Tree.Payloads
import OpenMath.Proofs.Tree.Searching
import OpenMath.Proofs.Tree.Shaped
import OpenMath.Proofs.Tree.Substitution
import OpenMath.Proofs.Wire.Acceptance
import OpenMath.Proofs.Wire.Annotating
import OpenMath.Proofs.Wire.Building
import OpenMath.Proofs.Wire.Coarse
import OpenMath.Proofs.Wire.Copying
import OpenMath.Proofs.Wire.Describing
import OpenMath.Proofs.Wire.Keeping
import OpenMath.Proofs.Wire.Keys
import OpenMath.Proofs.Wire.Language
import OpenMath.Proofs.Wire.Merging
import OpenMath.Proofs.Wire.Nesting
import OpenMath.Proofs.Wire.Normal
import OpenMath.Proofs.Wire.Normalising
import OpenMath.Proofs.Wire.Payloads
import OpenMath.Proofs.Wire.RoundTrip
import OpenMath.Proofs.Wire.Shallow
import OpenMath.Proofs.Wire.Validity
import OpenMath.Proofs.Wire.Writing
import OpenMath.Proofs.Xml.Colours
import OpenMath.Proofs.Xml.Elements
import OpenMath.Proofs.Xml.Layout
import OpenMath.Proofs.Xml.Nodes
import OpenMath.Proofs.Xml.Trees
import OpenMath.Symbol
import OpenMath.Text.Digits
import OpenMath.Text.Hex
import OpenMath.Text.Separated
import OpenMath.Text.Utf16
import OpenMath.Tree.Basic
import OpenMath.Tree.Content
import OpenMath.Tree.Equality
import OpenMath.Tree.Variables
import OpenMath.Wire.Decoding
import OpenMath.Wire.Encoding
import OpenMath.Wire.Shape
import OpenMath.Wire.Validation
import OpenMath.Xml
