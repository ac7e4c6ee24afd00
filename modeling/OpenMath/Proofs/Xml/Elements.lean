/-
  Reading the texts of elements.

  What an element is written as tells which element it is, and where it ends in a longer text,
  if tags are words, if the tag tells how the element is written, and if what is written in it
  does not contain the mark behind it.  How far in the lines are does not matter.  What an
  element contains ends at its closing tag: no element starts with a slash behind the bracket.

  * `flatten_append_inj`: a sequence of items that can be told apart, up to a mark with which
    none of them starts;
  * `Regular`: the elements that keep these rules, given the form for each tag;
  * `Regular.written_append_inj`: what an element is written as, in front of another text;
  * `Regular.eq_of_plain_eq`: different elements have different texts.
-/
import OpenMath.Proofs.Text.Digits
import OpenMath.Proofs.Xml.Layout

namespace OpenMath.Xml

open Document

variable {i j : Nat} {r s t u : List Char}

/-! ## Reading up to a mark -/

theorem append_inj_of_span {p : Char → Bool} {v w x y : List Char} (hv : ∀ c ∈ v, p c = true)
    (hw : ∀ c ∈ w, p c = true) (hx : ∀ c ∈ x.head?, p c = false) (hy : ∀ c ∈ y.head?, p c = false)
    (h : v ++ x = w ++ y) : v = w ∧ x = y := by
  obtain ⟨hv, hx⟩ := span_append hv hx
  obtain ⟨hw, hy⟩ := span_append hw hy
  rw [h] at hv hx
  exact ⟨hv.symm.trans hw, hx.symm.trans hy⟩

theorem append_inj_of_mark {mark : Char} {v w x y : List Char} (hv : mark ∉ v) (hw : mark ∉ w)
    (h : v ++ mark :: x = w ++ mark :: y) : v = w ∧ x = y := by
  have hpass {v : List Char} (hv : mark ∉ v) (c : Char) (hc : c ∈ v) : (c != mark) = true :=
    bne_iff_ne.2 fun e => hv (e ▸ hc)
  obtain ⟨hvw, hxy⟩ := append_inj_of_span (hpass hv) (hpass hw) (by simp) (by simp) h
  exact ⟨hvw, (List.cons.inj hxy).2⟩

/-- A sequence of items is known from what is written for them, and so is where it ends, if what
    is written for an item tells the item and where it ends, and does not start like what
    follows. -/
theorem flatten_append_inj {α : Type} {W : α → List Char → Prop} {E : List Char → Prop}
    {xs ys : List α} {ts us : List (List Char)} (hts : List.Forall₂ W xs ts)
    (hus : List.Forall₂ W ys us)
    (item : ∀ x ∈ xs, ∀ y ∈ ys, ∀ t u r s, W x t → W y u → t ++ r = u ++ s → x = y ∧ r = s)
    (stop : ∀ x, x ∈ xs ∨ x ∈ ys → ∀ t r, W x t → ¬ E (t ++ r)) (hr : E r) (hs : E s)
    (h : ts.flatten ++ r = us.flatten ++ s) : xs = ys ∧ r = s := by
  induction hts generalizing ys us with
  | nil =>
    cases hus with
    | nil => exact ⟨rfl, h⟩
    | cons hy _ =>
      rw [List.flatten_nil, List.nil_append, List.flatten_cons, List.append_assoc] at h
      rw [h] at hr
      exact absurd hr (stop _ (.inr (List.mem_cons_self ..)) _ _ hy)
  | cons hx _ ih =>
    cases hus with
    | nil =>
      rw [List.flatten_nil, List.nil_append, List.flatten_cons, List.append_assoc] at h
      rw [← h] at hs
      exact absurd hs (stop _ (.inl (List.mem_cons_self ..)) _ _ hx)
    | cons hy hus =>
      rw [List.flatten_cons, List.flatten_cons, List.append_assoc, List.append_assoc] at h
      obtain ⟨hxy, hrest⟩ :=
        item _ (List.mem_cons_self ..) _ (List.mem_cons_self ..) _ _ _ _ hx hy h
      obtain ⟨hxs, hrs⟩ := ih hus
        (fun x hx y hy => item x (List.mem_cons_of_mem _ hx) y (List.mem_cons_of_mem _ hy))
        (fun x hx => stop x (hx.imp (List.mem_cons_of_mem _) (List.mem_cons_of_mem _))) hrest
      exact ⟨by rw [hxy, hxs], hrs⟩

theorem flatMap_append_inj {α : Type} {code : α → List Char} {mark : List Char} {xs ys : List α}
    (item : ∀ x ∈ xs, ∀ y ∈ ys, ∀ r s, code x ++ r = code y ++ s → x = y ∧ r = s)
    (start : ∀ x, x ∈ xs ∨ x ∈ ys → ∀ r s, code x ++ r ≠ mark ++ s)
    (h : xs.flatMap code ++ (mark ++ r) = ys.flatMap code ++ (mark ++ s)) : xs = ys ∧ r = s := by
  have hcode (zs : List α) : List.Forall₂ (fun z t => t = code z) zs (zs.map code) :=
    List.forall₂_map_right_iff.2 (List.forall₂_same.2 fun _ _ => rfl)
  rw [List.flatMap_def, List.flatMap_def] at h
  obtain ⟨hxs, hrs⟩ := flatten_append_inj (E := fun s => ∃ t, s = mark ++ t) (hcode xs) (hcode ys)
    (fun x hx y hy _ _ r s ht hu => ht ▸ hu ▸ item x hx y hy r s)
    (fun x hx _ r ht ⟨s, hs⟩ => start x hx r s (ht ▸ hs)) ⟨r, rfl⟩ ⟨s, rfl⟩ h
  exact ⟨hxs, List.append_cancel_left hrs⟩

/-! ## Lines and tags -/

theorem line_append_inj (hr : ∀ c ∈ r.head?, c ≠ ' ') (hs : ∀ c ∈ s.head?, c ≠ ' ')
    (h : line i ++ r = line j ++ s) : r = s := by
  have hspace {k : Nat} : ∀ c ∈ List.replicate k ' ', (c == ' ') = true := fun c hc =>
    beq_iff_eq.2 (List.eq_of_mem_replicate hc)
  exact (append_inj_of_span hspace hspace (fun c hc => beq_eq_false_iff_ne.2 (hr c hc))
    (fun c hc => beq_eq_false_iff_ne.2 (hs c hc)) (List.cons.inj h).2).2

theorem attributeChars_append_inj {a b : String × String}
    (ha : '=' ∉ a.1.toList ∧ '"' ∉ a.2.toList) (hb : '=' ∉ b.1.toList ∧ '"' ∉ b.2.toList)
    (h : attributeChars a ++ r = attributeChars b ++ s) : a = b ∧ r = s := by
  simp only [attributeChars, List.cons_append, List.append_assoc, List.nil_append] at h
  obtain ⟨hname, h⟩ := append_inj_of_mark ha.1 hb.1 (List.cons.inj h).2
  obtain ⟨hvalue, h⟩ := append_inj_of_mark ha.2 hb.2 (List.cons.inj h).2
  exact ⟨Prod.ext (String.toList_inj.1 hname) (String.toList_inj.1 hvalue), h⟩

/-- The ways in which elements are written. -/
inductive Form where
  | empty | text | inline | block

/-- How an element is written. -/
def Element.form : Element → Form
  | empty _ _ => .empty
  | text _ _ => .text
  | inline _ _ => .inline
  | block _ _ => .block

/-! ## Elements that can be read -/

/-- A text of letters that is not empty. -/
def IsWord (s : String) : Prop := s.toList ≠ [] ∧ ∀ c ∈ s.toList, c.isAlpha = true

/-- An element that can be read, at any depth: its tag is a word, and the one form in which
    elements with this tag are written is its own; names end at the first equals sign, values
    at the first quote, and a text at the first bracket. -/
inductive Regular (forms : String → Form) : Element → Prop
  | empty {tag : String} {attributes : List (String × String)} (word : IsWord tag)
    (form : forms tag = .empty)
    (marks : ∀ a ∈ attributes, '=' ∉ a.1.toList ∧ '"' ∉ a.2.toList) :
    Regular forms (.empty tag attributes)
  | text {tag : String} {content : List Char} (word : IsWord tag) (form : forms tag = .text)
    (marks : '<' ∉ content) : Regular forms (.text tag content)
  | inline {tag : String} {children : List Element} (word : IsWord tag)
    (form : forms tag = .inline) (parts : ∀ c ∈ children, Regular forms c) :
    Regular forms (.inline tag children)
  | block {tag : String} {children : List Element} (word : IsWord tag)
    (form : forms tag = .block) (parts : ∀ c ∈ children, Regular forms c) :
    Regular forms (.block tag children)

namespace Regular

variable {forms : String → Form} {e f : Element}

theorem word (h : Regular forms e) : IsWord e.tag := by cases h <;> assumption

theorem form_tag (h : Regular forms e) : forms e.tag = e.form := by cases h <;> assumption

theorem exists_eq_cons (h : Regular forms e) (ht : e.document.Written t) :
    ∃ c cs, t = '<' :: c :: cs ∧ c.isAlpha = true := by
  obtain ⟨u, -, rfl⟩ := Element.exists_tail ht
  obtain ⟨hne, hletters⟩ := h.word
  obtain ⟨c, cs, hc⟩ := List.exists_cons_of_ne_nil hne
  exact ⟨c, cs ++ u, by rw [hc, List.cons_append], hletters c (hc ▸ List.mem_cons_self ..)⟩

theorem head?_written (h : Regular forms e) (ht : e.document.Written t) :
    ∀ c ∈ (t ++ r).head?, c ≠ ' ' := by
  obtain ⟨c, cs, rfl, -⟩ := h.exists_eq_cons ht
  simp

theorem ne_closing (h : Regular forms e) (ht : e.document.Written t) (tag : String) :
    t ++ r ≠ closing tag ++ s := by
  obtain ⟨c, cs, rfl, hletter⟩ := h.exists_eq_cons ht
  intro he
  have hslash : c = '/' := (List.cons.inj (List.cons.inj he).2).1
  rw [hslash] at hletter
  cases hletter

theorem head?_tail (h : e.Tail t) : ∀ c ∈ (t ++ r).head?, c.isAlpha = false := by
  cases h with
  | @empty tag as => cases as <;> simp [attributeChars]
  | text => simp
  | inline => simp
  | childless => simp
  | block => simp

theorem tag_append_inj (he : Regular forms e) (hf : Regular forms f) (ht : e.document.Written t)
    (hu : f.document.Written u) (h : t ++ r = u ++ s) :
    e.tag = f.tag ∧ e.form = f.form ∧ ∃ v w, e.Tail v ∧ f.Tail w ∧ v ++ r = w ++ s := by
  obtain ⟨v, hv, rfl⟩ := Element.exists_tail ht
  obtain ⟨w, hw, rfl⟩ := Element.exists_tail hu
  rw [List.cons_append, List.cons_append, List.append_assoc, List.append_assoc] at h
  obtain ⟨htag, htail⟩ := append_inj_of_span he.word.2 hf.word.2 (head?_tail hv) (head?_tail hw)
    (List.cons.inj h).2
  have htag : e.tag = f.tag := String.toList_inj.1 htag
  exact ⟨htag, by rw [← he.form_tag, ← hf.form_tag, htag], v, w, hv, hw, htail⟩

/-! ### Elements on lines of their own -/

theorem head?_closing (tag : String) : ∀ c ∈ (closing tag ++ r).head?, c ≠ ' ' := by simp [closing]

theorem head?_line : ∀ c ∈ (line i ++ r).head?, c ≠ ' ' := by simp [line]

theorem onLine_append (he : Regular forms e) (ht : e.document.OnLine t)
    (hs : ∀ c ∈ s.head?, c ≠ ' ') (h : t ++ r = line i ++ s) :
    ∃ u, e.document.Written u ∧ u ++ r = s := by
  obtain ⟨j, u, hu, rfl⟩ := ht
  rw [List.append_assoc] at h
  exact ⟨u, hu, line_append_inj (he.head?_written hu) hs h⟩

theorem onLine_ne_closing (he : Regular forms e) (ht : e.document.OnLine t) (tag : String) :
    t ++ r ≠ line i ++ (closing tag ++ s) := by
  intro h
  obtain ⟨u, hu, hrest⟩ := onLine_append he ht (head?_closing tag) h
  exact he.ne_closing hu tag hrest

theorem onLine_ne_line (he : Regular forms e) (ht : e.document.OnLine t) :
    t ++ r ≠ line i ++ (line j ++ s) := by
  intro h
  obtain ⟨u, hu, hrest⟩ := onLine_append he ht head?_line h
  obtain ⟨c, cs, rfl, -⟩ := he.exists_eq_cons hu
  cases hrest

/-- A block ends at the first line with a closing tag, and one without elements has an empty
    line. -/
theorem block_append_inj {tag : String} {cs ds : List Element}
    (part : ∀ c ∈ cs, ∀ d ∈ ds, ∀ t u r s, c.document.Written t → d.document.Written u →
      t ++ r = u ++ s → c = d ∧ r = s)
    (regular : ∀ c, c ∈ cs ∨ c ∈ ds → Regular forms c) (ht : (Element.block tag cs).Tail t)
    (hu : (Element.block tag ds).Tail u) (h : t ++ r = u ++ s) : cs = ds ∧ r = s := by
  cases ht with
  | childless k l =>
    cases hu with
    | childless m n =>
      simp only [List.cons_append, List.append_assoc] at h
      have hrest := line_append_inj head?_line head?_line (List.cons.inj h).2
      have hclosing := line_append_inj (head?_closing tag) (head?_closing tag) hrest
      exact ⟨rfl, List.append_cancel_left hclosing⟩
    | block hparts n =>
      obtain ⟨v, vs, hv, -, rfl⟩ := List.forall₂_cons_left_iff.1 hparts
      simp only [List.cons_append, List.append_assoc, List.flatten_cons] at h
      exact absurd (List.cons.inj h).2.symm
        (onLine_ne_line (regular _ (.inr (List.mem_cons_self ..))) hv)
  | @block _ c cs ts hparts l =>
    cases hu with
    | childless m n =>
      obtain ⟨v, vs, hv, -, rfl⟩ := List.forall₂_cons_left_iff.1 hparts
      simp only [List.cons_append, List.append_assoc, List.flatten_cons] at h
      exact absurd (List.cons.inj h).2
        (onLine_ne_line (regular _ (.inl (List.mem_cons_self ..))) hv)
    | @block _ d ds us hparts' n =>
      have item (x : Element) (hx : x ∈ c :: cs) (y : Element) (hy : y ∈ d :: ds)
          (t u r s : List Char) (ht : x.document.OnLine t) (hu : y.document.OnLine u)
          (h : t ++ r = u ++ s) : x = y ∧ r = s := by
        obtain ⟨m, u, hu, rfl⟩ := hu
        rw [List.append_assoc] at h
        obtain ⟨v, hv, hrest⟩ :=
          onLine_append (regular x (.inl hx)) ht ((regular y (.inr hy)).head?_written hu) h
        exact part x hx y hy v u r s hv hu hrest
      have stop (x : Element) (hx : x ∈ c :: cs ∨ x ∈ d :: ds) (t r : List Char)
          (ht : x.document.OnLine t) : ¬ ∃ k s, t ++ r = line k ++ (closing tag ++ s) :=
        fun ⟨_, _, h⟩ => onLine_ne_closing (regular x hx) ht tag h
      simp only [List.cons_append, List.append_assoc] at h
      obtain ⟨hcs, hrest⟩ := flatten_append_inj
        (E := fun s => ∃ k r, s = line k ++ (closing tag ++ r)) hparts hparts' item stop
        ⟨l, r, rfl⟩ ⟨n, s, rfl⟩ (List.cons.inj h).2
      have hclosing := line_append_inj (head?_closing tag) (head?_closing tag) hrest
      exact ⟨hcs, List.append_cancel_left hclosing⟩

/-- What an element is written as tells the element, and where it ends in a longer text. -/
theorem written_append_inj (he : Regular forms e) (hf : Regular forms f) (ht : e.document.Written t)
    (hu : f.document.Written u) (h : t ++ r = u ++ s) : e = f ∧ r = s := by
  -- in each case the form that goes with the tag leaves one constructor for the other element
  induction he generalizing f r s t u with
  | @empty tag as word form marks =>
    obtain ⟨htag, hform, v, w, hv, hw, h⟩ := tag_append_inj (.empty word form marks) hf ht hu h
    cases hf with
    | @empty _ bs _ _ marks' =>
      cases htag
      cases hv
      cases hw
      simp only [List.append_assoc] at h
      obtain ⟨rfl, hrs⟩ := flatMap_append_inj
        (fun a ha b hb r s => attributeChars_append_inj (marks a ha) (marks' b hb))
        (fun a _ r s => by simp [attributeChars]) h
      exact ⟨rfl, hrs⟩
    | _ => cases hform
  | @text tag content word form marks =>
    obtain ⟨htag, hform, v, w, hv, hw, h⟩ := tag_append_inj (.text word form marks) hf ht hu h
    cases hf with
    | @text _ content' _ _ marks' =>
      cases htag
      cases hv
      cases hw
      simp only [closing, List.append_assoc, List.cons_append] at h
      obtain ⟨rfl, hrs⟩ := append_inj_of_mark marks marks' (List.cons.inj h).2
      exact ⟨rfl, by simpa using hrs⟩
    | _ => cases hform
  | @inline tag cs word form parts ih =>
    obtain ⟨htag, hform, v, w, hv, hw, h⟩ := tag_append_inj (.inline word form parts) hf ht hu h
    cases hf with
    | @inline _ ds _ _ parts' =>
      cases htag
      cases hv with
      | inline hts =>
        cases hw with
        | inline hus =>
          simp only [List.append_assoc, List.cons_append] at h
          obtain ⟨rfl, hrs⟩ := flatten_append_inj (E := fun s => ∃ r, s = closing tag ++ r) hts hus
            (fun c hc d hd _ _ _ _ ht hu => ih c hc (parts' d hd) ht hu)
            (fun c hc _ _ ht h => h.elim fun _ => (hc.elim (parts c) (parts' c)).ne_closing ht tag)
            ⟨r, rfl⟩ ⟨s, rfl⟩ (List.cons.inj h).2
          exact ⟨rfl, List.append_cancel_left hrs⟩
    | _ => cases hform
  | @block tag cs word form parts ih =>
    obtain ⟨htag, hform, v, w, hv, hw, h⟩ := tag_append_inj (.block word form parts) hf ht hu h
    cases hf with
    | @block _ ds _ _ parts' =>
      cases htag
      obtain ⟨rfl, hrs⟩ := block_append_inj
        (fun c hc d hd _ _ _ _ ht hu => ih c hc (parts' d hd) ht hu)
        (fun c hc => hc.elim (parts c) (parts' c)) hv hw h
      exact ⟨rfl, hrs⟩
    | _ => cases hform

/-- Different elements have different texts, whatever the widths. -/
theorem eq_of_plain_eq {R : Renderer Style} (hR : R.Orderly) (he : Regular forms e)
    (hf : Regular forms f) {width width' : Nat}
    (h : e.document.plain R width = f.document.plain R width') : e = f :=
  (written_append_inj (r := []) (s := []) he hf (hR width _ e.fixed_document)
    (hR width' _ f.fixed_document) (by rw [h])).1

end Regular

end OpenMath.Xml
