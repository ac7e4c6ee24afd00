/-
  How documents may be written.

  A renderer is not known, and it need not be: it is relied on to write the texts of a document
  in order, and a line break with spaces behind it wherever the document has one.  How many
  spaces these are is left open.  What the document of an element is written as is known from
  this up to the spaces.

  * `Document.Fixed`: documents that can be laid out in one way only, like those of elements
    (`fixed_document`);
  * `Document.MadeOf`: such documents, when their texts are made of certain characters;
  * `Document.Written`: what such a document may be written as;
  * `Renderer.Orderly`: what is relied on of a renderer; `orderly_layout` says that there is one;
  * `Document.written_append`, `Document.exists_of_concat`, `Document.exists_of_lines`:
    documents that are joined;
  * `Element.Tail`, `Element.exists_tail`: what an element is written as, from its tag on.
-/
import OpenMath.Xml
import Mathlib.Data.List.Forall2

namespace OpenMath

namespace Document

variable {σ : Type} {d e : Document σ} {ds : List (Document σ)} {s : List Char}

/-! ## Documents with one layout -/

/-- A document that can be laid out in one way only. -/
def Fixed : Document σ → Prop
  | nil | text _ | hardline => True
  | cat d e => d.Fixed ∧ e.Fixed
  | nest _ d | annotate _ d => d.Fixed
  | flatAlt _ _ | group _ => False

/-- The texts that a document is made of. -/
def texts : Document σ → List (List Char)
  | nil | hardline => []
  | text s => [s]
  | cat d e | flatAlt d e => d.texts ++ e.texts
  | nest _ d | annotate _ d | group d => d.texts

/-- A document with one layout, in whose texts all characters pass a test. -/
structure MadeOf (p : Char → Prop) (d : Document σ) : Prop where
  fixed : d.Fixed
  texts : ∀ s ∈ d.texts, ∀ c ∈ s, p c

@[simp] theorem append_nil (d : Document σ) : d.append nil = d := by cases d <;> rfl

theorem append_of_ne_nil (hd : d ≠ nil) (he : e ≠ nil) : d.append e = cat d e := by
  cases d <;> cases e <;> first | rfl | contradiction

section
variable {p : Char → Prop}

theorem madeOf_nil : (nil : Document σ).MadeOf p := ⟨trivial, nofun⟩

theorem madeOf_hardline : (hardline : Document σ).MadeOf p := ⟨trivial, nofun⟩

theorem madeOf_text (hs : ∀ c ∈ s, p c) : (text s : Document σ).MadeOf p :=
  ⟨trivial, List.forall_mem_singleton.2 hs⟩

theorem MadeOf.nest (h : d.MadeOf p) (i : Nat) : (nest i d).MadeOf p := ⟨h.fixed, h.texts⟩

theorem MadeOf.annotate (h : d.MadeOf p) (style : σ) : (annotate style d).MadeOf p :=
  ⟨h.fixed, h.texts⟩

theorem MadeOf.append (hd : d.MadeOf p) (he : e.MadeOf p) : (d.append e).MadeOf p := by
  by_cases hdn : d = nil
  · rw [hdn]
    exact he
  · by_cases hen : e = nil
    · rw [hen, append_nil]
      exact hd
    · rw [append_of_ne_nil hdn hen]
      exact ⟨⟨hd.fixed, he.fixed⟩, List.forall_mem_append.2 ⟨hd.texts, he.texts⟩⟩

theorem MadeOf.foldl {α : Type} {f : Document σ → α → Document σ} {xs : List α} (hd : d.MadeOf p)
    (hf : ∀ e : Document σ, e.MadeOf p → ∀ x ∈ xs, (f e x).MadeOf p) : (xs.foldl f d).MadeOf p := by
  induction xs generalizing d with
  | nil => exact hd
  | cons x xs ih =>
    exact ih (hf d hd x (List.mem_cons_self ..)) fun e he y hy =>
      hf e he y (List.mem_cons_of_mem _ hy)

theorem madeOf_concat (hds : ∀ d ∈ ds, d.MadeOf p) : (concat ds).MadeOf p :=
  madeOf_nil.foldl fun _ he d hd => he.append (hds d hd)

theorem madeOf_intersperse (hd : d.MadeOf p) (hds : ∀ e ∈ ds, e.MadeOf p) :
    (intersperse d ds).MadeOf p := by
  cases ds with
  | nil => exact madeOf_nil
  | cons e es =>
    obtain ⟨he, hes⟩ := List.forall_mem_cons.1 hds
    exact he.foldl fun _ hacc e he => (hacc.append hd).append (hes e he)

end

/-! ## Writing documents -/

/-- The start of a line with some indentation. -/
def line (indent : Nat) : List Char := '\n' :: List.replicate indent ' '

/-- What a document with one layout may be written as: its texts in order, and for each line
    break one with spaces behind it. -/
inductive Written : Document σ → List Char → Prop
  | nil : Written nil []
  | text (s : List Char) : Written (text s) s
  | hardline (indent : Nat) : Written hardline (line indent)
  | cat {d e : Document σ} {s t : List Char} :
      Written d s → Written e t → Written (cat d e) (s ++ t)
  | nest (indent : Nat) {d : Document σ} {s : List Char} : Written d s → Written (nest indent d) s
  | annotate (style : σ) {d : Document σ} {s : List Char} :
      Written d s → Written (annotate style d) s

theorem written_nil : (nil : Document σ).Written s ↔ s = [] :=
  ⟨fun | .nil => rfl, fun h => h ▸ .nil⟩

theorem written_hardline : (hardline : Document σ).Written s ↔ ∃ i, s = line i :=
  ⟨fun | .hardline i => ⟨i, rfl⟩, fun ⟨i, h⟩ => h ▸ .hardline i⟩

theorem written_nest {i : Nat} : (nest i d).Written s ↔ d.Written s :=
  ⟨fun | .nest _ h => h, .nest i⟩

/-- What is joined is written in order. -/
theorem written_append :
    (d.append e).Written s ↔ ∃ t u, d.Written t ∧ e.Written u ∧ s = t ++ u := by
  by_cases hd : d = nil
  · subst hd
    simp only [written_nil, exists_and_left, exists_eq_left, List.nil_append, exists_eq_right']
    rfl
  · by_cases he : e = nil
    · subst he
      simp [written_nil]
    · rw [append_of_ne_nil hd he]
      exact ⟨fun | .cat ht hu => ⟨_, _, ht, hu, rfl⟩, fun ⟨t, u, ht, hu, h⟩ => h ▸ .cat ht hu⟩

theorem exists_of_foldl_append (h : (ds.foldl append d).Written s) :
    ∃ t ts, d.Written t ∧ List.Forall₂ Written ds ts ∧ s = t ++ ts.flatten := by
  induction ds generalizing d with
  | nil => exact ⟨s, [], h, .nil, (List.append_nil s).symm⟩
  | cons e es ih =>
    obtain ⟨_, ts, hd, hts, rfl⟩ := ih h
    obtain ⟨t, u, ht, hu, rfl⟩ := written_append.1 hd
    exact ⟨t, u :: ts, ht, .cons hu hts, by simp⟩

/-- Documents in a row. -/
theorem exists_of_concat (h : (concat ds).Written s) :
    ∃ ts, List.Forall₂ Written ds ts ∧ s = ts.flatten := by
  obtain ⟨_, ts, hnil, hts, rfl⟩ := exists_of_foldl_append h
  cases written_nil.1 hnil
  exact ⟨ts, hts, rfl⟩

/-- A document on a line of its own. -/
def OnLine (d : Document σ) (s : List Char) : Prop := ∃ i t, d.Written t ∧ s = line i ++ t

theorem exists_of_foldl_lines
    (h : (ds.foldl (fun acc e => (acc.append hardline).append e) d).Written s) :
    ∃ t ts, d.Written t ∧ List.Forall₂ OnLine ds ts ∧ s = t ++ ts.flatten := by
  induction ds generalizing d with
  | nil => exact ⟨s, [], h, .nil, (List.append_nil s).symm⟩
  | cons e es ih =>
    obtain ⟨_, ts, hd, hts, rfl⟩ := ih h
    obtain ⟨_, u, hdl, hu, rfl⟩ := written_append.1 hd
    obtain ⟨t, _, ht, hline, rfl⟩ := written_append.1 hdl
    obtain ⟨i, rfl⟩ := written_hardline.1 hline
    exact ⟨t, (line i ++ u) :: ts, ht, .cons ⟨i, u, hu, rfl⟩ hts, by simp⟩

/-- Documents on lines of their own, behind a line break; if there are none, this stays. -/
theorem exists_of_lines (h : (hardline.append (intersperse hardline ds)).Written s) :
    (ds = [] ∧ ∃ i, s = line i) ∨ ds ≠ [] ∧ ∃ ts, List.Forall₂ OnLine ds ts ∧ s = ts.flatten := by
  obtain ⟨_, u, hline, hu, rfl⟩ := written_append.1 h
  obtain ⟨i, rfl⟩ := written_hardline.1 hline
  cases ds with
  | nil =>
    cases written_nil.1 hu
    exact .inl ⟨rfl, i, List.append_nil _⟩
  | cons e es =>
    obtain ⟨t, ts, ht, hts, rfl⟩ := exists_of_foldl_lines hu
    exact .inr ⟨List.cons_ne_nil _ _, (line i ++ t) :: ts, .cons ⟨i, t, ht, rfl⟩ hts, by simp⟩

end Document

/-- A renderer lays out a document with one layout as that layout is written. -/
def Renderer.Orderly {σ : Type} (r : Renderer σ) : Prop :=
  ∀ (width : Nat) (d : Document σ), d.Fixed → d.Written (d.plain r width)

/-- A renderer that breaks all lines is orderly. -/
theorem orderly_layout {σ : Type} : (layout : Renderer σ).Orderly := by
  intro width d hd
  show d.Written ((d.events none 0).flatMap Event.plain)
  generalize (none : Option Nat) = next
  generalize 0 = i
  induction d generalizing next i with
  | nil => exact .nil
  | text s => simpa [Document.events, Event.plain] using Document.Written.text s
  | hardline =>
    simpa [Document.events, Event.plain, Document.line] using
      Document.Written.hardline (next.getD i)
  | cat d e ihd ihe =>
    rw [Document.events, List.flatMap_append]
    exact .cat (ihd hd.1 _ _) (ihe hd.2 _ _)
  | nest j d ih => exact .nest j (ih hd _ _)
  | annotate style d ih =>
    have := ih hd next i
    simpa [Document.events, Event.plain] using Document.Written.annotate style this
  | flatAlt d e => exact hd.elim
  | group d => exact hd.elim

namespace Xml

open Document

variable {s t : List Char}

/-! ## Tags -/

/-- The text of an attribute, with the space in front of it. -/
def attributeChars (a : String × String) : List Char :=
  ' ' :: (a.1.toList ++ '=' :: '"' :: (a.2.toList ++ ['"']))

/-- The text of the tag behind an element. -/
def closing (tag : String) : List Char := '<' :: '/' :: (tag.toList ++ ['>'])

theorem written_piece {style : Style} : (piece style t).Written s ↔ s = t :=
  ⟨fun | .annotate _ (.text _) => rfl, fun h => h ▸ .annotate style (.text s)⟩

theorem written_append_piece {d : Document Style} {style : Style} :
    (d.append (piece style t)).Written s ↔ ∃ u, d.Written u ∧ s = u ++ t := by
  simp [written_append, written_piece]

theorem written_space : (Document.space : Document Style).Written s ↔ s = [' '] :=
  ⟨fun | .text _ => rfl, fun h => h ▸ .text _⟩

theorem written_withAttribute {d : Document Style} {a : String × String} :
    (withAttribute d a).Written s ↔ ∃ u, d.Written u ∧ s = u ++ attributeChars a := by
  simp only [withAttribute, written_append_piece]
  constructor
  · rintro ⟨_, ⟨_, ⟨_, h, rfl⟩, rfl⟩, rfl⟩
    obtain ⟨u, _, hu, hspace, rfl⟩ := written_append.1 h
    cases written_space.1 hspace
    exact ⟨u, hu, by simp [attributeChars]⟩
  · rintro ⟨u, hu, rfl⟩
    exact ⟨_, ⟨_, ⟨_, written_append.2 ⟨u, _, hu, written_space.2 rfl, rfl⟩, rfl⟩, rfl⟩,
      by simp [attributeChars]⟩

theorem written_withAttributes {as : List (String × String)} {d : Document Style} :
    (as.foldl withAttribute d).Written s ↔
      ∃ u, d.Written u ∧ s = u ++ as.flatMap attributeChars := by
  induction as generalizing d with
  | nil => simp
  | cons a as ih => simp [ih, written_withAttribute, List.flatMap_cons]

theorem written_openTag {tag : String} {as : List (String × String)} {empty : Bool} :
    (openTag tag as empty).Written s ↔
      s = '<' :: (tag.toList ++
        (as.flatMap attributeChars ++ if empty then ['/', '>'] else ['>'])) := by
  simp [openTag, written_append_piece, written_withAttributes, written_piece]

theorem written_closeTag {tag : String} : (closeTag tag).Written s ↔ s = closing tag := by
  simp [closeTag, written_append_piece, written_piece, closing]

/-! ### What tags are made of -/

/-- The characters that tags are made of, names apart. -/
def markup : List Char := ['<', '>', '/', '=', '"', ' ']

section
variable {p : Char → Prop} {tag : String} {ds : List (Document Style)}

theorem madeOf_piece (style : Style) (hs : ∀ c ∈ s, p c) : (piece style s).MadeOf p :=
  (madeOf_text hs).annotate style

theorem madeOf_openTag {as : List (String × String)} (hp : ∀ c ∈ markup, p c)
    (ht : ∀ c ∈ tag.toList, p c)
    (has : ∀ a ∈ as, (∀ c ∈ a.1.toList, p c) ∧ ∀ c ∈ a.2.toList, p c) (empty : Bool) :
    (openTag tag as empty).MadeOf p := by
  simp only [markup, List.forall_mem_cons] at hp
  obtain ⟨hopen, hclose, hslash, hequals, hquote, hspace, -⟩ := hp
  refine (MadeOf.foldl ((madeOf_piece _ (by simpa)).append (madeOf_piece _ ht)) ?_).append
    (madeOf_piece _ (by cases empty <;> simp [hclose, hslash]))
  intro d hd a ha
  obtain ⟨hname, hvalue⟩ := has a ha
  have hquoted : ∀ c ∈ '"' :: (a.2.toList ++ ['"']), p c := List.forall_mem_cons.2
    ⟨hquote, List.forall_mem_append.2 ⟨hvalue, List.forall_mem_singleton.2 hquote⟩⟩
  exact (((hd.append (madeOf_text (by simpa))).append (madeOf_piece _ hname)).append
    (madeOf_piece _ (by simpa))).append (madeOf_piece _ hquoted)

theorem madeOf_closeTag (hp : ∀ c ∈ markup, p c) (ht : ∀ c ∈ tag.toList, p c) :
    (closeTag tag).MadeOf p := by
  simp only [markup, List.forall_mem_cons] at hp
  exact ((madeOf_piece _ (by simp [hp])).append (madeOf_piece _ ht)).append
    (madeOf_piece _ (by simp [hp]))

theorem madeOf_blockDocument (hp : ∀ c ∈ markup, p c) (ht : ∀ c ∈ tag.toList, p c)
    (hds : ∀ d ∈ ds, d.MadeOf p) : (blockDocument tag ds).MadeOf p := by
  have hlines : (Document.append .hardline (.intersperse .hardline ds)).MadeOf p :=
    madeOf_hardline.append (madeOf_intersperse madeOf_hardline hds)
  exact (((madeOf_openTag hp ht (List.forall_mem_nil _) false).append (hlines.nest 2)).append
    madeOf_hardline).append (madeOf_closeTag hp ht)

end

/-! ## Elements -/

namespace Element

theorem documents_eq (es : List Element) : documents es = es.map document := by
  induction es with
  | nil => rfl
  | cons e es ih => rw [documents, ih, List.map_cons]

section
variable {p : Char → Prop} {tag : String} {es : List Element}

theorem madeOf_empty {as : List (String × String)} (hp : ∀ c ∈ markup, p c)
    (ht : ∀ c ∈ tag.toList, p c)
    (has : ∀ a ∈ as, (∀ c ∈ a.1.toList, p c) ∧ ∀ c ∈ a.2.toList, p c) :
    (empty tag as).document.MadeOf p := by
  rw [document]
  exact madeOf_openTag hp ht has true

theorem madeOf_text {content : List Char} (hp : ∀ c ∈ markup, p c) (ht : ∀ c ∈ tag.toList, p c)
    (h : ∀ c ∈ content, p c) : (text tag content).document.MadeOf p := by
  rw [document]
  exact ((madeOf_openTag hp ht (List.forall_mem_nil _) false).append (madeOf_piece _ h)).append
    (madeOf_closeTag hp ht)

theorem madeOf_documents (hes : ∀ e ∈ es, e.document.MadeOf p) :
    ∀ d ∈ documents es, d.MadeOf p := by
  rw [documents_eq]
  exact List.forall_mem_map.2 hes

theorem madeOf_inline (hp : ∀ c ∈ markup, p c) (ht : ∀ c ∈ tag.toList, p c)
    (hes : ∀ e ∈ es, e.document.MadeOf p) : (inline tag es).document.MadeOf p := by
  rw [document]
  exact ((madeOf_openTag hp ht (List.forall_mem_nil _) false).append
    (madeOf_concat (madeOf_documents hes))).append (madeOf_closeTag hp ht)

theorem madeOf_block (hp : ∀ c ∈ markup, p c) (ht : ∀ c ∈ tag.toList, p c)
    (hes : ∀ e ∈ es, e.document.MadeOf p) : (block tag es).document.MadeOf p := by
  rw [document]
  exact madeOf_blockDocument hp ht (madeOf_documents hes)

end

mutual

theorem madeOf_document : (e : Element) → e.document.MadeOf fun _ => True
  | empty _ _ => madeOf_empty (fun _ _ => trivial) (fun _ _ => trivial)
      fun _ _ => ⟨fun _ _ => trivial, fun _ _ => trivial⟩
  | text _ _ => madeOf_text (fun _ _ => trivial) (fun _ _ => trivial) fun _ _ => trivial
  | inline _ es => madeOf_inline (fun _ _ => trivial) (fun _ _ => trivial) (madeOf_children es)
  | block _ es => madeOf_block (fun _ _ => trivial) (fun _ _ => trivial) (madeOf_children es)

theorem madeOf_children : (es : List Element) → ∀ e ∈ es, e.document.MadeOf fun _ => True
  | [] => List.forall_mem_nil _
  | e :: es => List.forall_mem_cons.2 ⟨madeOf_document e, madeOf_children es⟩

end

/-- The document of an element has one layout. -/
theorem fixed_document (e : Element) : e.document.Fixed := (madeOf_document e).fixed

/-- The tag of an element, in whatever form. -/
def tag : Element → String
  | empty tag _ | text tag _ | inline tag _ | block tag _ => tag

/-- What an element may be written as behind its tag. -/
inductive Tail : Element → List Char → Prop
  | empty {tag : String} {as : List (String × String)} :
    Tail (empty tag as) (as.flatMap attributeChars ++ ['/', '>'])
  | text {tag : String} {content : List Char} :
    Tail (text tag content) ('>' :: (content ++ closing tag))
  | inline {tag : String} {es : List Element} {ts : List (List Char)}
    (parts : List.Forall₂ (fun e t => e.document.Written t) es ts) :
    Tail (inline tag es) ('>' :: (ts.flatten ++ closing tag))
  | childless {tag : String} (i j : Nat) :
    Tail (block tag []) ('>' :: (line i ++ (line j ++ closing tag)))
  | block {tag : String} {e : Element} {es : List Element} {ts : List (List Char)}
    (parts : List.Forall₂ (fun e t => e.document.OnLine t) (e :: es) ts) (j : Nat) :
    Tail (block tag (e :: es)) ('>' :: (ts.flatten ++ (line j ++ closing tag)))

/-- An element is written as its tag in a bracket, and what is behind it. -/
theorem exists_tail {e : Element} (h : e.document.Written s) :
    ∃ t, e.Tail t ∧ s = '<' :: (e.tag.toList ++ t) := by
  cases e with
  | empty tag as =>
    rw [document, written_openTag] at h
    exact ⟨_, .empty, h⟩
  | text tag content =>
    rw [document] at h
    obtain ⟨_, u, hcontent, hu, rfl⟩ := written_append.1 h
    obtain ⟨t, ht, rfl⟩ := written_append_piece.1 hcontent
    cases written_openTag.1 ht
    cases written_closeTag.1 hu
    exact ⟨_, .text, by simp [Element.tag]⟩
  | inline tag es =>
    rw [document, documents_eq] at h
    obtain ⟨_, u, hparts, hu, rfl⟩ := written_append.1 h
    obtain ⟨t, v, ht, hv, rfl⟩ := written_append.1 hparts
    obtain ⟨ts, hts, rfl⟩ := exists_of_concat hv
    cases written_openTag.1 ht
    cases written_closeTag.1 hu
    exact ⟨_, .inline (List.forall₂_map_left_iff.1 hts), by simp [Element.tag]⟩
  | block tag es =>
    rw [document, documents_eq, blockDocument] at h
    obtain ⟨_, u, hlines, hu, rfl⟩ := written_append.1 h
    obtain ⟨_, l, hparts, hl, rfl⟩ := written_append.1 hlines
    obtain ⟨t, v, ht, hv, rfl⟩ := written_append.1 hparts
    obtain ⟨j, rfl⟩ := written_hardline.1 hl
    cases written_openTag.1 ht
    cases written_closeTag.1 hu
    rcases exists_of_lines (written_nest.1 hv) with ⟨hes, i, rfl⟩ | ⟨hes, ts, hts, rfl⟩
    · cases List.map_eq_nil_iff.1 hes
      exact ⟨_, .childless i j, by simp [Element.tag]⟩
    · cases es with
      | nil => exact absurd rfl hes
      | cons e es => exact ⟨_, .block (List.forall₂_map_left_iff.1 hts) j, by simp [Element.tag]⟩

end Element

end Xml

end OpenMath
