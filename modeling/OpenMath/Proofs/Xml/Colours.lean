/-
  Colours do not change the text.

  With colours, control sequences stand between the texts of a document.  Where no text has
  an escape character in it, what is left without them is what is written without colours;
  and as there is only one way to lay out the document of an element, it is the same for
  every width.

  * `unstyled`: a text without control sequences;
  * `Renderer.Documented`, `Terminal.Documented`: what is relied on of a renderer and of a
    terminal; `documented_layout` and `documented_ansi` say that there are such;
  * `unstyled_coloured`: the text of a document with colours, without control sequences;
  * `Reachable.madeOf_xmlDocument`: the documents of the nodes of an arena have one layout, and
    no escape characters in their texts;
  * `Reachable.unstyled_xmlRender`: the XML text of a node with colours and without.
-/
import OpenMath.Proofs.Xml.Trees

namespace OpenMath

/-! ## Control sequences -/

/-- The characters that parameters of control sequences are made of. -/
def isParameter (c : Char) : Bool := '0'.toNat ≤ c.toNat && c.toNat ≤ '?'.toNat

/-- What is behind the control sequence for a style with which a text starts. -/
def behindSequence? : List Char → Option (List Char)
  | '\x1b' :: '[' :: cs =>
    match cs.dropWhile isParameter with
    | 'm' :: rest => some rest
    | _ => none
  | _ => none

theorem length_behindSequence? {cs rest : List Char} (h : behindSequence? cs = some rest) :
    rest.length < cs.length := by
  unfold behindSequence? at h
  split at h
  · next cs =>
    split at h
    · next cs' hdrop =>
      cases h
      have hle := (List.dropWhile_sublist (l := cs) isParameter).length_le
      rw [hdrop] at hle
      simp only [List.length_cons] at hle ⊢
      omega
    · cases h
  · cases h

/-- A text without the control sequences for styles. -/
def unstyled : List Char → List Char
  | [] => []
  | c :: cs =>
    match _h : behindSequence? (c :: cs) with
    | some rest => unstyled rest
    | none => c :: unstyled cs
termination_by cs => cs.length
decreasing_by
  · exact length_behindSequence? _h
  · exact Nat.lt_succ_self _

section
variable {s rest : List Char} {p : List Char}

theorem unstyled_nil : unstyled [] = [] := by rw [unstyled]

/-- Control sequences are left out. -/
theorem unstyled_sequence (hp : ∀ c ∈ p, isParameter c = true) (rest : List Char) :
    unstyled (sequence p ++ rest) = unstyled rest := by
  have hdrop : (p ++ 'm' :: rest).dropWhile isParameter = 'm' :: rest := by
    rw [List.dropWhile_append_of_pos hp]
    rfl
  have hbehind : behindSequence? ('\x1b' :: '[' :: (p ++ 'm' :: rest)) = some rest := by
    rw [behindSequence?, hdrop]
    rfl
  have htext : sequence p ++ rest = '\x1b' :: '[' :: (p ++ 'm' :: rest) := by simp [sequence]
  rw [htext, unstyled]
  split
  · next h => rw [Option.some.inj (h.symm.trans hbehind)]
  · next h => cases h.symm.trans hbehind

/-- All other text is kept. -/
theorem unstyled_append (hs : '\x1b' ∉ s) (rest : List Char) :
    unstyled (s ++ rest) = s ++ unstyled rest := by
  induction s with
  | nil => rfl
  | cons c cs ih =>
    obtain ⟨hc, hcs⟩ := List.ne_and_not_mem_of_not_mem_cons hs
    have hbehind : behindSequence? (c :: (cs ++ rest)) = none := by
      unfold behindSequence?
      split
      · next heq => exact absurd (List.cons.inj heq).1 hc.symm
      · rfl
    rw [List.cons_append, unstyled]
    split
    · next h => cases h.symm.trans hbehind
    · rw [ih hcs, List.cons_append]

end

/-! ## Renderers and terminals -/

/-- A text that is made of control sequences. -/
def IsStyling (s : List Char) : Prop :=
  ∃ ps : List (List Char), (∀ p ∈ ps, ∀ c ∈ p, isParameter c = true) ∧ s = ps.flatMap sequence

theorem isStyling_nil : IsStyling [] := ⟨[], nofun, rfl⟩

theorem isStyling_sequence {p : List Char} (hp : ∀ c ∈ p, isParameter c = true) :
    IsStyling (sequence p) :=
  ⟨[p], List.forall_mem_singleton.2 hp, (List.append_nil _).symm⟩

theorem IsStyling.append {s t : List Char} (hs : IsStyling s) (ht : IsStyling t) :
    IsStyling (s ++ t) := by
  obtain ⟨ps, hps, rfl⟩ := hs
  obtain ⟨qs, hqs, rfl⟩ := ht
  exact ⟨ps ++ qs, List.forall_mem_append.2 ⟨hps, hqs⟩, (List.flatMap_append ..).symm⟩

theorem unstyled_styling {s : List Char} (h : IsStyling s) (rest : List Char) :
    unstyled (s ++ rest) = unstyled rest := by
  obtain ⟨ps, hps, rfl⟩ := h
  induction ps with
  | nil => rfl
  | cons p ps ih =>
    obtain ⟨hp, hps⟩ := List.forall_mem_cons.1 hps
    rw [List.flatMap_cons, List.append_assoc, unstyled_sequence hp, ih hps]

/-- A renderer looks at the width only where there is a choice, and what it writes are the
    texts of the document, line breaks and spaces. -/
structure Renderer.Documented {σ : Type} (r : Renderer σ) : Prop where
  width : ∀ d, d.Fixed → ∀ w w', r w d = r w' d
  writes : ∀ w d s, .write s ∈ r w d → s ∈ d.texts ∨ ∀ c ∈ s, c = '\n' ∨ c = ' '

/-- A terminal is written control sequences for styles. -/
structure Terminal.Documented (t : Terminal) : Prop where
  setColor : ∀ spec, IsStyling (t.setColor spec)
  reset : IsStyling t.reset

/-- A renderer that breaks all lines has one way to lay out any document. -/
theorem documented_layout {σ : Type} : (layout : Renderer σ).Documented where
  width _ _ _ _ := rfl
  writes w d s := by
    suffices h : ∀ next i, .write s ∈ d.events next i →
        s ∈ d.texts ∨ ∀ c ∈ s, c = '\n' ∨ c = ' ' from h none 0
    induction d with
    | nil => exact fun _ _ h => nomatch h
    | text s' =>
      intro next i h
      cases List.mem_singleton.1 h
      exact .inl (List.mem_singleton_self s)
    | hardline =>
      intro next i h
      right
      rcases List.mem_cons.1 h with h | h
      · cases h
        simp
      · cases List.mem_singleton.1 h
        exact fun c hc => .inr (List.eq_of_mem_replicate hc)
    | cat d e ihd ihe =>
      intro next i h
      rcases List.mem_append.1 h with h | h
      · exact (ihd _ _ h).imp_left (List.mem_append_left _)
      · exact (ihe _ _ h).imp_left (List.mem_append_right _)
    | nest j d ih => exact fun next i => ih next (i + j)
    | annotate style d ih =>
      intro next i h
      rw [Document.events] at h
      simp only [List.cons_append, List.mem_cons, reduceCtorEq, List.mem_append, List.not_mem_nil,
        or_false, false_or] at h
      exact ih next i h
    | flatAlt d e ihd ihe => exact fun next i h => (ihd next i h).imp_left (List.mem_append_left _)
    | group d ih => exact ih

theorem documented_ansi : ansi.Documented where
  reset := isStyling_sequence (by simp [isParameter])
  setColor spec := by
    have hif (b : Bool) {p : List Char} (hp : ∀ c ∈ p, isParameter c = true) :
        IsStyling (if b then sequence p else []) := by
      split
      · exact isStyling_sequence hp
      · exact isStyling_nil
    refine (((isStyling_sequence ?_).append (hif spec.bold ?_)).append
      (hif spec.dimmed ?_)).append ?_
    · simp [isParameter]
    · simp [isParameter]
    · simp [isParameter]
    · cases spec.foreground with
      | none => exact isStyling_nil
      | some c => exact isStyling_sequence (by cases c <;> simp [Color.parameter, isParameter])

/-! ## Documents with colours -/

section
variable {σ : Type} {r : Renderer σ} {t : Terminal} {d : Document σ}

/-- Without control sequences, what is written with colours is what is written plain. -/
theorem unstyled_events (ht : t.Documented) (spec : σ → ColorSpec) {es : List (Event σ)}
    (hes : ∀ s, .write s ∈ es → '\x1b' ∉ s) :
    unstyled (es.flatMap (Event.coloured t spec)) = es.flatMap Event.plain := by
  induction es with
  | nil => exact unstyled_nil
  | cons e es ih =>
    have ih := ih fun s hs => hes s (List.mem_cons_of_mem _ hs)
    rw [List.flatMap_cons, List.flatMap_cons]
    cases e with
    | write s =>
      show unstyled (s ++ _) = s ++ _
      rw [unstyled_append (hes s (List.mem_cons_self ..)), ih]
    | push style =>
      show unstyled (t.setColor (spec style) ++ _) = _
      rw [unstyled_styling (ht.setColor _), ih]
      rfl
    | pop =>
      show unstyled (t.reset ++ _) = _
      rw [unstyled_styling ht.reset, ih]
      rfl

/-- The text of a document with one layout, with colours and plain, for any two widths. -/
theorem unstyled_coloured (hr : r.Documented) (ht : t.Documented) (spec : σ → ColorSpec)
    (hd : d.MadeOf (· ≠ '\x1b')) (width width' : Nat) :
    unstyled (d.coloured r t spec width) = d.plain r width' := by
  have hwrites : ∀ s, .write s ∈ r width d → '\x1b' ∉ s := by
    intro s hs hesc
    rcases hr.writes width d s hs with hs | hs
    · exact hd.texts s hs _ hesc rfl
    · exact absurd (hs _ hesc) (by decide)
  rw [Document.coloured, unstyled_events ht spec hwrites, Document.plain,
    hr.width d hd.fixed width width']

end

/-! ## Elements without escape characters -/

namespace Xml

theorem mem_escapeText {c : Char} {s : List Char} (h : c ∈ escapeText s) :
    c ∈ s ∨ c ∈ ['&', 'a', 'm', 'p', ';'] ++ ['&', 'l', 't', ';'] := by
  obtain ⟨d, hd, hc⟩ := List.mem_flatMap.1 (escapeText_eq s ▸ h)
  unfold escapeChar at hc
  split_ifs at hc
  · exact .inr (List.mem_append_left _ hc)
  · exact .inr (List.mem_append_right _ hc)
  · exact .inl (List.mem_singleton.1 hc ▸ hd)

/-- No escape character is in what a node is written as, unless it is in a string. -/
theorem madeOf_ofContent? {x : Content Element} {e : Element} (hk : x.kind.Acceptable)
    (hs : ∀ s, x.kind = .string s → '\x1b' ∉ s.toList)
    (hp : ∀ u ∈ x.structural, u.document.MadeOf (· ≠ '\x1b')) (h : ofContent? x = some e) :
    e.document.MadeOf (· ≠ '\x1b') := by
  have free {s : List Char} (h : '\x1b' ∉ s) : ∀ c ∈ s, c ≠ '\x1b' := List.forall_mem_ne'.2 h
  have both {n v : String} (hn : '\x1b' ∉ n.toList) (hv : '\x1b' ∉ v.toList) :
      (∀ c ∈ (n, v).1.toList, c ≠ '\x1b') ∧ ∀ c ∈ (n, v).2.toList, c ≠ '\x1b' := ⟨free hn, free hv⟩
  have hm : ∀ c ∈ markup, c ≠ '\x1b' := free (by decide)
  cases x with
  | integer v =>
    cases h
    exact Element.madeOf_text hm (free (by decide))
      (free (Integer.not_mem_toText (by decide) (by decide) hk))
  | float y =>
    cases h
    exact Element.madeOf_empty hm (free (by decide)) (List.forall_mem_singleton.2
      (both (by decide) (Double.not_mem_plainText (by decide) (by decide) hk)))
  | string s =>
    cases h
    exact Element.madeOf_text hm (free (by decide)) (free fun hesc =>
      (mem_escapeText hesc).elim (hs s rfl) (by decide))
  | byteArray bs => cases h
  | symbol s =>
    cases h
    exact Element.madeOf_empty hm (free (by decide)) (List.forall_mem_cons.2
      ⟨both (by decide) (Identifier.not_mem_of_isIdentifier (by decide) s.cdOk),
        List.forall_mem_singleton.2
          (both (by decide) (Identifier.not_mem_of_isIdentifier (by decide) s.nameOk))⟩)
  | var name =>
    cases h
    exact Element.madeOf_empty hm (free (by decide)) (List.forall_mem_singleton.2
      (both (by decide) (Identifier.not_mem_of_isIdentifier (by decide) hk)))
  | application cs =>
    cases h
    exact Element.madeOf_block hm (free (by decide)) (Content.forall_structural_application.1 hp)
  | binding hd vs b =>
    cases hd <;> cases b <;> cases h
    obtain ⟨hhead, hbound, hbody⟩ := Content.forall_structural_binding.1 hp
    refine Element.madeOf_block hm (free (by decide)) ?_
    simpa using ⟨hhead, Element.madeOf_inline hm (free (by decide)) hbound, hbody⟩
  | error hd cs =>
    cases hd <;> cases h
    obtain ⟨hhead, hcs⟩ := Content.forall_structural_error.1 hp
    exact Element.madeOf_block hm (free (by decide)) (List.forall_mem_cons.2 ⟨hhead, hcs⟩)

end Xml

/-! ## Nodes of an arena -/

namespace Arena

variable {a : Arena} {id : NodeId} {t : Tree NodeId}

/-- No escape character is in what a tree is written as, unless it is in one of its strings. -/
theorem madeOf_of_toXml (ha : a.All Kind.Acceptable) (ht : a.tree? id = some t)
    (hs : ∀ y ∈ t.bare.labels, ∀ s, a.kind? y = some (.string s) → '\x1b' ∉ s.toList)
    {e : Xml.Element} (he : t.toXml = .ok e) : e.document.MadeOf (· ≠ '\x1b') := by
  refine tree?_induction_rooted (P := fun _ t =>
    (∀ y ∈ t.bare.labels, ∀ s, a.kind? y = some (.string s) → '\x1b' ∉ s.toList) →
      ∀ e, t.toXml = .ok e → e.document.MadeOf (· ≠ '\x1b')) ?_ ht hs e he
  intro id n cs as hn hr ihp _ hs e he
  obtain ⟨hparts, he⟩ := Tree.toXml_rooted_eq_ok.1 he
  have hkind : n.kind = cs.kind := by rw [Node.kind, hr.content, Content.kind_map]
  have hk : a.kind? id = some cs.kind := kind?_eq_some.2 ⟨n, hn, hkind⟩
  refine Xml.madeOf_ofContent? ?_ ?_ ?_ he
  · rw [Content.kind_map]
    exact ha id _ hk
  · intro s hstring
    rw [Content.kind_map] at hstring
    exact hs id (mem_labels_bare.2 (.inl rfl)) s (by rw [hk, hstring])
  · rw [Content.structural_map]
    exact List.forall_mem_map.2 fun u hu => ihp u hu
      (fun y hy => hs y (mem_labels_bare.2 (.inr ⟨u, hu, hy⟩))) _ (hparts u hu)

theorem Reachable.madeOf_xmlDocument (h : a.Reachable)
    (hs : ∀ y ∈ a.descendants id, ∀ s, a.kind? y = some (.string s) → '\x1b' ∉ s.toList)
    {d : Document Xml.Style} (hd : a.xmlDocument id = .ok d) : d.MadeOf (· ≠ '\x1b') := by
  obtain ⟨e, he, hd⟩ := Except.bind_eq_ok.1 hd
  cases hd
  obtain ⟨t, ht, he, -, -⟩ := h.exists_tree_of_toXml he
  rw [h.wf.descendants_eq, bare?, ht] at hs
  exact madeOf_of_toXml h.acceptable ht hs he

/-- The XML text of a node with colours is refused for the same reason as the one without; and
    if no string among the structural nodes has an escape character in it, then the two are
    the same without the control sequences, whatever the width. -/
theorem Reachable.unstyled_xmlRender (h : a.Reachable) {r : Renderer Xml.Style} (hr : r.Documented)
    {t : Terminal} (ht : t.Documented) (id : NodeId) :
    (∀ width e, a.xmlRender r t width id = .error e ↔ a.xmlString r id = .error e) ∧
      ((∀ y ∈ a.descendants id, ∀ s, a.kind? y = some (.string s) → '\x1b' ∉ s.toList) →
        ∀ width, (a.xmlRender r t width id).map (fun s => String.ofList (unstyled s.toList)) =
          a.xmlString r id) := by
  unfold xmlRender xmlString
  cases hd : a.xmlDocument id with
  | error e => exact ⟨fun _ _ => Iff.rfl, fun _ _ => rfl⟩
  | ok d =>
    refine ⟨fun _ _ => iff_of_false nofun nofun, fun hs width => ?_⟩
    show Except.ok (String.ofList (unstyled (String.ofList _).toList)) = Except.ok (String.ofList _)
    rw [String.toList_ofList, unstyled_coloured hr ht _ (h.madeOf_xmlDocument hs hd) width 80]

/-- An application to a string with markup in it. -/
def applicationToString : Arena :=
  ⟨#[some ⟨.var "f", [], some 2⟩, some ⟨.string "a<b", [], some 2⟩,
    some ⟨.application [0, 1], [], none⟩]⟩

/-- Its XML text, and the one with colours for a line that is too short for it. -/
theorem unstyled_xmlRender_application :
    parse "f('a<b')" .empty = some (.ok 2, applicationToString) ∧
      applicationToString.xmlString layout 2 =
        .ok "<OMA>\n  <OMV name=\"f\"/>\n  <OMSTR>a&lt;b</OMSTR>\n</OMA>" ∧
      (applicationToString.xmlRender layout ansi 7 2).map
          (fun s => String.ofList (unstyled s.toList)) =
        .ok "<OMA>\n  <OMV name=\"f\"/>\n  <OMSTR>a&lt;b</OMSTR>\n</OMA>" := by
  have hmade : parse "f('a<b')" .empty = some (.ok 2, applicationToString) := by cbv
  have hreach : applicationToString.Reachable :=
    .step (c := .parse "f('a<b')") (r := .ok ()) .empty (Edit.bind_ok hmade)
  have hplain : applicationToString.xmlString layout 2 =
      .ok "<OMA>\n  <OMV name=\"f\"/>\n  <OMSTR>a&lt;b</OMSTR>\n</OMA>" := by cbv
  have hstrings : ∀ y ∈ applicationToString.descendants 2, ∀ s,
      applicationToString.kind? y = some (.string s) → '\x1b' ∉ s.toList := by
    have hnodes : applicationToString.descendants 2 = [2, 0, 1] := by cbv
    rw [hnodes]
    intro y hy s hk
    simp only [List.mem_cons, List.not_mem_nil, or_false] at hy
    rcases hy with rfl | rfl | rfl
    · cases hk
    · cases hk
    · cases hk
      decide
  refine ⟨hmade, hplain, ?_⟩
  rw [← hplain]
  exact (hreach.unstyled_xmlRender documented_layout documented_ansi 2).2 hstrings 7

end Arena

end OpenMath
