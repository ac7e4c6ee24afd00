/-
  Documents with styles, and how they are written.

  A document is text with styles and with breaks between lines.  It says nothing about where
  it is written to: a renderer lays it out in lines of a given width, which gives a sequence
  of events, and a writer takes these events.  A plain writer passes over styles; on a
  terminal a style is a sequence of characters of its own.

  Neither the renderer nor the terminal is part of this library.  They are taken as they
  come, and there is one of each here to write with.

  * `Document`, `Document.append`, `Document.intersperse`: documents, and how they are joined;
  * `Renderer`, `Document.plain`, `Document.coloured`: writing what a renderer makes of a
    document;
  * `layout`: a renderer that breaks a line wherever there is a choice;
  * `Terminal`, `ansi`: terminals, and one with the usual control sequences.
-/

namespace OpenMath

/-! ## Documents -/

/-- A text with styles and line breaks. -/
inductive Document (σ : Type) where
  | nil
  | text (s : List Char)
  | hardline
  | cat (d e : Document σ)
  /-- lines that are further in than those around them -/
  | nest (indent : Nat) (d : Document σ)
  | annotate (style : σ) (d : Document σ)
  /-- a document for broken lines, and one for a line that is not -/
  | flatAlt (broken flat : Document σ)
  /-- a document that is written on one line if there is room for it -/
  | group (d : Document σ)

namespace Document

variable {σ : Type}

/-- One document behind another; nothing is left out. -/
def append : Document σ → Document σ → Document σ
  | nil, e => e
  | d, nil => d
  | d, e => cat d e

/-- A single space, at which no line is broken. -/
def space : Document σ := text [' ']

/-- Documents one behind another. -/
def concat (ds : List (Document σ)) : Document σ := ds.foldl append nil

/-- Documents with another one between any two of them. -/
def intersperse (separator : Document σ) : List (Document σ) → Document σ
  | [] => nil
  | d :: ds => ds.foldl (fun acc e => (acc.append separator).append e) (nil.append d)

end Document

/-! ## Rendering -/

/-- What a renderer has a writer do. -/
inductive Event (σ : Type) where
  | write (s : List Char)
  | push (style : σ)
  | pop

/-- How documents are laid out in lines of a given width. -/
abbrev Renderer (σ : Type) := Nat → Document σ → List (Event σ)

/-- The colours that styles have. -/
inductive Color where
  | blue | cyan | green | yellow
deriving DecidableEq

/-- How a text looks on a terminal. -/
structure ColorSpec where
  foreground : Option Color := none
  bold : Bool := false
  dimmed : Bool := false

/-- What is written to a terminal to change and to reset how texts look. -/
structure Terminal where
  setColor : ColorSpec → List Char
  reset : List Char

/-- What a writer does that does not know of styles. -/
def Event.plain {σ : Type} : Event σ → List Char
  | write s => s
  | push _ | pop => []

/-- What a writer to a terminal does; at the end of a style all styles are reset. -/
def Event.coloured {σ : Type} (t : Terminal) (spec : σ → ColorSpec) : Event σ → List Char
  | write s => s
  | push style => t.setColor (spec style)
  | pop => t.reset

namespace Document

variable {σ : Type}

/-- The text of a document without styles. -/
def plain (r : Renderer σ) (width : Nat) (d : Document σ) : List Char :=
  (r width d).flatMap Event.plain

/-- The text of a document on a terminal. -/
def coloured (r : Renderer σ) (t : Terminal) (spec : σ → ColorSpec) (width : Nat)
    (d : Document σ) : List Char :=
  (r width d).flatMap (Event.coloured t spec)

/-! ## A renderer -/

/-- A document that starts at a given indentation, line by line; every choice is for broken
    lines.  A line has the indentation of what comes `next`, if there is anything. -/
def events (next : Option Nat) (indent : Nat) : Document σ → List (Event σ)
  | nil => []
  | text s => [.write s]
  | hardline => [.write ['\n'], .write (List.replicate (next.getD indent) ' ')]
  | cat d e => d.events (some indent) indent ++ e.events next indent
  | nest i d => d.events next (indent + i)
  | annotate style d => .push style :: d.events next indent ++ [.pop]
  | flatAlt broken _ => broken.events next indent
  | group d => d.events next indent

end Document

/-- A renderer that breaks a line wherever there is a choice, whatever the width. -/
def layout {σ : Type} : Renderer σ := fun _ d => d.events none 0

/-! ## A terminal -/

/-- The control sequence with a parameter. -/
def sequence (parameter : List Char) : List Char := '\x1b' :: '[' :: (parameter ++ ['m'])

/-- The parameter that sets a colour. -/
def Color.parameter : Color → List Char
  | blue => ['3', '4']
  | cyan => ['3', '6']
  | green => ['3', '2']
  | yellow => ['3', '3']

/-- A terminal with the usual control sequences; all of them are reset before some are set. -/
def ansi : Terminal where
  reset := sequence ['0']
  setColor spec := sequence ['0'] ++ (if spec.bold then sequence ['1'] else []) ++
    (if spec.dimmed then sequence ['2'] else []) ++
    (spec.foreground.map fun c => sequence c.parameter).getD []

end OpenMath
