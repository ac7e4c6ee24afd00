/-
  The elements of nodes.

  What is written for a node is an element that can be read, since markup characters are
  escaped in texts, and neither identifiers nor numbers have any.  It tells all of the node
  but the uri of a symbol, and whether an integer is held as a number or as a text.

  * `escapeText_injective`: different texts have different escapes;
  * `ofContent?`: the element of a node, given those of its parts;
  * `regular_ofContent?`: it can be read, if the elements of the parts can;
  * `Content.inXml`: a node as its element shows it;
  * `ofContent?_eq_iff`: nodes that are written as the same element.
-/
import OpenMath.Proofs.Compact.Legible
import OpenMath.Proofs.Text.Escaping
import OpenMath.Proofs.Tree.Coarse
import OpenMath.Proofs.Xml.Elements

namespace OpenMath

variable {α β : Type}

/-! ## Payloads in XML -/

section
variable {c : Char}

theorem Identifier.not_mem_of_isIntegerText {s : String} (hd : c.isDigit = false)
    (hc : c ∉ ['+', '-', '.']) (h : isIntegerText s = true) : c ∉ s.toList := by
  obtain ⟨sign, hsign, hs⟩ := Digits.exists_splitSign s.toList
  have hsigns : ∀ sign ∈ [[], ['+'], ['-']], c ∉ sign := by simp_all
  intro hm
  rw [hs] at hm
  rcases List.mem_append.1 hm with hm | hm
  · exact hsigns sign hsign hm
  · rw [(Digits.isNumeral_iff.1 h).2 c hm] at hd
    cases hd

theorem Integer.not_mem_toText {v : Integer} (hd : c.isDigit = false) (hc : c ∉ ['+', '-', '.'])
    (h : (Kind.integer v).Acceptable) : c ∉ v.toText.toList := by
  cases v with
  | native n => exact Identifier.not_mem_of_isIntegerText hd hc (isIntegerText_ofInt n.toInt)
  | text s => exact Identifier.not_mem_of_isIntegerText hd hc h

/-- In the text of a number there are digits, a sign and a point. -/
theorem Double.not_mem_plainText {x : Double} (hd : c.isDigit = false) (hc : c ∉ ['+', '-', '.'])
    (h : x.isFinite = true) : c ∉ x.plainText.toList := by
  have hdigits {ds : List Char} (h : ∀ d ∈ ds, d.isDigit = true) : c ∉ ds := fun hm => by
    rw [h c hm] at hd
    cases hd
  have hsign : c ∉ x.signChars := by
    unfold signChars
    split <;> simp_all
  have hpoint : c ≠ '.' := by simp_all
  cases hi : x.toInt? with
  | none =>
    obtain ⟨whole, frac, htext, hwhole, hfrac⟩ := Compact.plainText_eq h hi
    rw [htext]
    simp [hsign, hpoint, hdigits (Digits.isNumeral_iff.1 hwhole).2, hdigits hfrac]
  | some n =>
    obtain ⟨ds, htext, hds⟩ := Compact.plainText_whole (Option.isSome_iff_exists.2 ⟨n, hi⟩)
    rw [htext]
    simp [hsign, hdigits (Digits.isNumeral_iff.1 hds).2]

end

theorem Double.plainText_inj {x y : Double} (hx : x.isFinite = true) (hy : y.isFinite = true) :
    x.plainText = y.plainText ↔ x = y := by
  refine ⟨fun h => ?_, congrArg plainText⟩
  rw [← Compact.floatOf_plainText hx, h, Compact.floatOf_plainText hy]

namespace Xml

/-! ## Escaped texts -/

/-- What stands for a character of a text. -/
def escapeChar (c : Char) : List Char :=
  if c = '&' then ['&', 'a', 'm', 'p', ';'] else if c = '<' then ['&', 'l', 't', ';'] else [c]

theorem escapeText_eq (s : List Char) : escapeText s = s.flatMap escapeChar := rfl

theorem escapeChar_ne_nil (c : Char) : escapeChar c ≠ [] := by
  unfold escapeChar
  split_ifs <;> nofun

theorem bracket_not_mem_escapeChar (c : Char) : '<' ∉ escapeChar c := by
  unfold escapeChar
  split_ifs with hamp hlt
  · decide
  · decide
  · exact fun h => hlt (List.mem_singleton.1 h).symm

theorem escapeChar_append_inj {c d : Char} {r s : List Char}
    (h : escapeChar c ++ r = escapeChar d ++ s) : c = d ∧ r = s := by
  unfold escapeChar at h
  split_ifs at h <;> grind

theorem bracket_not_mem_escapeText (s : List Char) : '<' ∉ escapeText s := by
  intro h
  obtain ⟨c, -, hc⟩ := List.mem_flatMap.1 (escapeText_eq s ▸ h)
  exact bracket_not_mem_escapeChar c hc

/-- Different texts have different escapes. -/
theorem escapeText_injective : Function.Injective escapeText := by
  have start (c : Char) (r s : List Char) : escapeChar c ++ r ≠ ['<'] ++ s := by
    obtain ⟨d, ds, hd⟩ := List.exists_cons_of_ne_nil (escapeChar_ne_nil c)
    intro h
    rw [hd] at h
    exact bracket_not_mem_escapeChar c (hd ▸ (List.cons.inj h).1 ▸ List.mem_cons_self ..)
  intro s t h
  rw [escapeText_eq, escapeText_eq] at h
  exact (flatMap_append_inj (r := []) (s := []) (fun _ _ _ _ _ _ => escapeChar_append_inj)
    (fun c _ => start c) (by rw [h])).1

/-! ## Elements of nodes -/

/-- The element of a node, given those of its parts. -/
def ofContent? : Content Element → Option Element
  | .integer v => some (.text "OMI" v.toText.toList)
  | .float x => some (.empty "OMF" [("dec", x.plainText)])
  | .string s => some (.text "OMSTR" (escapeText s.toList))
  | .byteArray _ => none
  | .symbol s => some (.empty "OMS" [("cd", s.cd), ("name", s.name)])
  | .var name => some (.empty "OMV" [("name", name)])
  | .application cs => some (.block "OMA" cs)
  | .binding (some head) vs (some body) => some (.block "OMBIND" [head, .inline "OMBVAR" vs, body])
  | .binding _ _ _ => none
  | .error (some head) cs => some (.block "OME" (head :: cs))
  | .error none _ => none

theorem isSome_ofContent? {c : Content Element} :
    (ofContent? c).isSome ↔ c.Complete ∧ c.kind.type ≠ .byteArray := by
  cases c with
  | binding hd vs b =>
    cases hd <;> cases b <;> simp [ofContent?, Content.Complete, Content.kind, Kind.type]
  | error hd cs => cases hd <;> simp [ofContent?, Content.Complete, Content.kind, Kind.type]
  | _ => simp [ofContent?, Content.Complete, Content.kind, Kind.type]

/-- The form of the elements with a given tag. -/
def formOf (tag : String) : Form :=
  if tag = "OMI" ∨ tag = "OMSTR" then .text
  else if tag = "OMA" ∨ tag = "OMBIND" ∨ tag = "OME" then .block
  else if tag = "OMBVAR" then .inline
  else .empty

theorem regular_ofContent? {c : Content Element} {e : Element} (hk : c.kind.Acceptable)
    (hp : ∀ x ∈ c.structural, Regular formOf x) (h : ofContent? c = some e) : Regular formOf e := by
  have letters {s : String} (hs : s.toList ≠ [] ∧ s.toList.all Char.isAlpha = true) : IsWord s :=
    ⟨hs.1, List.all_eq_true.1 hs.2⟩
  have marks {n v : String} (hn : '=' ∉ n.toList) (hv : '"' ∉ v.toList) :
      '=' ∉ (n, v).1.toList ∧ '"' ∉ (n, v).2.toList := ⟨hn, hv⟩
  cases c with
  | integer v =>
    cases h
    exact .text (letters (by decide)) rfl (Integer.not_mem_toText (by decide) (by decide) hk)
  | float x =>
    cases h
    exact .empty (letters (by decide)) rfl
      (List.forall_mem_singleton.2 (marks (by decide)
        (Double.not_mem_plainText (by decide) (by decide) hk)))
  | string s =>
    cases h
    exact .text (letters (by decide)) rfl (bracket_not_mem_escapeText _)
  | byteArray bs => cases h
  | symbol s =>
    cases h
    exact .empty (letters (by decide)) rfl (List.forall_mem_cons.2
      ⟨marks (by decide) (Identifier.not_mem_of_isIdentifier (by decide) s.cdOk),
        List.forall_mem_singleton.2
          (marks (by decide) (Identifier.not_mem_of_isIdentifier (by decide) s.nameOk))⟩)
  | var name =>
    cases h
    exact .empty (letters (by decide)) rfl (List.forall_mem_singleton.2
      (marks (by decide) (Identifier.not_mem_of_isIdentifier (by decide) hk)))
  | application cs =>
    cases h
    exact .block (letters (by decide)) rfl (Content.forall_structural_application.1 hp)
  | binding hd vs b =>
    cases hd <;> cases b <;> cases h
    obtain ⟨hhead, hbound, hbody⟩ := Content.forall_structural_binding.1 hp
    refine .block (letters (by decide)) rfl ?_
    simpa using ⟨hhead, .inline (letters (by decide)) rfl hbound, hbody⟩
  | error hd cs =>
    cases hd <;> cases h
    obtain ⟨hhead, hcs⟩ := Content.forall_structural_error.1 hp
    exact .block (letters (by decide)) rfl (List.forall_mem_cons.2 ⟨hhead, hcs⟩)

end Xml

/-! ## What XML shows -/

/-- A payload as it is found in XML: of an integer only its text, of a symbol not its uri. -/
def Kind.inXml : Kind → Kind
  | .integer v => .integer (.text v.toText)
  | .symbol s => .symbol s.withoutUri
  | k => k

/-- A node with a payload as it is found in XML. -/
def Content.inXml : Content α → Content α
  | .integer v => .integer (.text v.toText)
  | .symbol s => .symbol s.withoutUri
  | c => c

@[simp] theorem Content.kind_inXml (c : Content α) : c.inXml.kind = c.kind.inXml := by
  cases c <;> rfl

@[simp] theorem Content.slots_inXml (c : Content α) : c.inXml.slots = c.slots := by
  cases c <;> rfl

theorem Kind.type_inXml (k : Kind) : k.inXml.type = k.type := by cases k <;> rfl

theorem Content.inXml_map_eq_iff {γ : Type} {f : α → γ} {g : β → γ} {c : Content α}
    {c' : Content β} : (c.map f).inXml = (c'.map g).inXml ↔
      c.kind.inXml = c'.kind.inXml ∧ c.Related (fun x y => f x = g y) c' := by
  rw [related_eq_iff]
  cases c <;> cases c' <;>
    simp [inXml, map, Kind.inXml, kind, children, head?, bound, body?, and_comm]

namespace Xml

/-- The tag that a node is written with; that of byte arrays never is. -/
def tagOf : NodeType → String
  | .integer => "OMI"
  | .float => "OMF"
  | .string => "OMSTR"
  | .byteArray => "OMB"
  | .symbol => "OMS"
  | .var => "OMV"
  | .application => "OMA"
  | .binding => "OMBIND"
  | .error => "OME"

theorem tagOf_injective : Function.Injective tagOf := by
  intro k l
  cases k <;> cases l <;> simp [tagOf]

theorem tag_ofContent? {c : Content Element} {e : Element} (h : ofContent? c = some e) :
    e.tag = tagOf c.kind.type := by
  cases c with
  | binding hd vs b => cases hd <;> cases b <;> cases h; rfl
  | error hd cs => cases hd <;> cases h; rfl
  | byteArray bs => cases h
  | _ => cases h; rfl

/-- Nodes are written as the same element if they are the same in XML, and only then. -/
theorem ofContent?_eq_iff {c d : Content Element} {e f : Element} (hc : c.kind.Acceptable)
    (hd : d.kind.Acceptable) (he : ofContent? c = some e) (hf : ofContent? d = some f) :
    e = f ↔ c.inXml = d.inXml := by
  have htype (h : e = f) : c.kind.type = d.kind.type :=
    tagOf_injective (by rw [← tag_ofContent? he, ← tag_ofContent? hf, h])
  have hkind (h : c.inXml = d.inXml) : c.kind.type = d.kind.type := by
    rw [← Kind.type_inXml, ← Content.kind_inXml, h, Content.kind_inXml, Kind.type_inXml]
  -- the tag tells the type, so that only nodes of one type are left to compare
  by_cases hk : c.kind.type = d.kind.type
  · cases c with
    | byteArray bs => cases he
    | integer v =>
      cases d with
      | integer w =>
        cases he
        cases hf
        simp [Content.inXml, String.toList_inj]
      | _ => cases hk
    | float x =>
      cases d with
      | float y =>
        cases he
        cases hf
        simp [Content.inXml, Double.plainText_inj hc hd]
      | _ => cases hk
    | string s =>
      cases d with
      | string s' =>
        cases he
        cases hf
        simp [Content.inXml, escapeText_injective.eq_iff, String.toList_inj]
      | _ => cases hk
    | symbol s =>
      cases d with
      | symbol s' =>
        cases he
        cases hf
        simp [Content.inXml, Symbol.withoutUri, and_comm]
      | _ => cases hk
    | var name =>
      cases d with
      | var name' =>
        cases he
        cases hf
        simp [Content.inXml]
      | _ => cases hk
    | application cs =>
      cases d with
      | application cs' =>
        cases he
        cases hf
        simp [Content.inXml]
      | _ => cases hk
    | binding head vs body =>
      cases d with
      | binding head' vs' body' =>
        cases head <;> cases body <;> cases he
        cases head' <;> cases body' <;> cases hf
        simp [Content.inXml]
      | _ => cases hk
    | error head cs =>
      cases d with
      | error head' cs' =>
        cases head <;> cases he
        cases head' <;> cases hf
        simp [Content.inXml]
      | _ => cases hk
  · exact iff_of_false (fun h => hk (htype h)) fun h => hk (hkind h)

end Xml

end OpenMath
