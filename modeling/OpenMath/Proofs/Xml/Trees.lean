/-
  Trees and their XML forms.

  A tree has an XML form unless a byte array is in it, or a head or a body is missing in it.
  The form shows all of the tree but its attributes, the uris of its symbols, and whether an
  integer is held as a number or as a text; and as no two elements have the same text, however
  they are laid out, the text of the form shows as much.

  * `Tree.inXml`: a tree as its XML form shows it;
  * `Tree.toXml_rooted_eq_ok`: when a node is written as an element, and which one;
  * `Tree.regular_of_toXml`: what is written for a tree can be read;
  * `Tree.Shaped.toXml_eq_iff`: trees that are written as the same element;
  * `xmlString_eq_ok`: the XML text of a node;
  * `Reachable.xmlString_determines`: the nodes of an arena that have XML texts, and those that
    have the same.
-/
import OpenMath.Proofs.Arena.Readers
import OpenMath.Proofs.Wire.Writing
import OpenMath.Proofs.Xml.Nodes

namespace OpenMath

variable {ι κ : Type}

namespace Tree

/-- A tree as its XML form shows it: without labels and attributes, and with payloads as they
    are found in XML. -/
def inXml : Tree ι → Term := fold fun _ k ss => node () k.inXml ss.bare

theorem inXml_rooted (l : ι) (c : Content (Tree ι)) (as : List (Symbol × Tree ι)) :
    (rooted l c as).inXml = rooted () (c.map inXml).inXml [] := by
  rw [rooted, inXml, fold_node, Content.mapContent_allSlots, Slots.bare_allSlots, rooted,
    Content.kind_inXml, Content.kind_map, Content.allSlots, Content.slots_inXml]
  exact congrArg _ (List.append_nil _).symm

/-! ## Trees that have XML forms -/

open Xml

variable {l : ι} {c : Content (Tree ι)} {as : List (Symbol × Tree ι)} {e : Element}

/-- The element of a tree that has one. -/
def element (t : Tree ι) : Element := t.toXml.toOption.getD (.empty "" [])

theorem element_eq {t : Tree ι} (h : t.toXml = .ok e) : t.element = e := by
  rw [element, h]
  rfl

theorem mapM_toXml {ts : List (Tree ι)} {es : List Element} :
    (ts.map toXml).mapM id = .ok es ↔ (∀ t ∈ ts, t.toXml = .ok t.element) ∧ es = ts.map element := by
  rw [List.mapM_map]
  exact mapM_eq_ok_iff fun _ _ => element_eq

theorem requiredXml_eq_ok {owner : Tree ι} {t : Option (Tree ι)} :
    requiredXml owner (t.map toXml) = .ok e ↔
      ∃ u, t = some u ∧ u.toXml = .ok u.element ∧ e = u.element := by
  cases t with
  | none => simp [requiredXml, noXml]
  | some u =>
    simp only [requiredXml, Option.map_some, Option.some.injEq, exists_eq_left']
    constructor
    · intro h
      rw [element_eq h]
      exact ⟨h, rfl⟩
    · rintro ⟨h, rfl⟩
      exact h

/-- When a node is written as an element, and which one. -/
theorem toXml_rooted_eq_ok : (rooted l c as).toXml = .ok e ↔
    (∀ u ∈ c.structural, u.toXml = .ok u.element) ∧ ofContent? (c.map element) = some e := by
  rw [toXml_eq, slots_rooted, Content.mapContent_allSlots]
  cases c with
  | application cs =>
    simp only [xmlStep, kind_rooted, Content.kind, Content.children_allSlots, Content.children_map,
      Except.bind_eq_ok, mapM_toXml, Content.forall_structural_application]
    constructor
    · rintro ⟨_, ⟨hcs, rfl⟩, h⟩
      cases h
      exact ⟨hcs, rfl⟩
    · rintro ⟨hcs, h⟩
      cases h
      exact ⟨_, ⟨hcs, rfl⟩, rfl⟩
  | binding hd vs b =>
    simp only [xmlStep, kind_rooted, Content.kind, Content.head?_allSlots, Content.bound_allSlots,
      Content.body?_allSlots, Content.head?_map, Content.bound_map, Content.body?_map,
      Except.bind_eq_ok, mapM_toXml, requiredXml_eq_ok]
    constructor
    · rintro ⟨_, ⟨hvs, rfl⟩, _, ⟨u, hu, hhead, rfl⟩, _, ⟨v, hv, hbody, rfl⟩, h⟩
      cases hu
      cases hv
      cases h
      exact ⟨Content.forall_structural_binding.2 ⟨hhead, hvs, hbody⟩, rfl⟩
    · rintro ⟨hp, h⟩
      cases hd <;> cases b <;> cases h
      obtain ⟨hhead, hvs, hbody⟩ := Content.forall_structural_binding.1 hp
      exact ⟨_, ⟨hvs, rfl⟩, _, ⟨_, rfl, hhead, rfl⟩, _, ⟨_, rfl, hbody, rfl⟩, rfl⟩
  | error hd cs =>
    simp only [xmlStep, kind_rooted, Content.kind, Content.head?_allSlots, Content.children_allSlots,
      Content.head?_map, Content.children_map, Except.bind_eq_ok, mapM_toXml, requiredXml_eq_ok]
    constructor
    · rintro ⟨_, ⟨u, hu, hhead, rfl⟩, _, ⟨hcs, rfl⟩, h⟩
      cases hu
      cases h
      exact ⟨Content.forall_structural_error.2 ⟨hhead, hcs⟩, rfl⟩
    · rintro ⟨hp, h⟩
      cases hd <;> cases h
      obtain ⟨hhead, hcs⟩ := Content.forall_structural_error.1 hp
      exact ⟨_, ⟨_, rfl, hhead, rfl⟩, _, ⟨hcs, rfl⟩, rfl⟩
  | byteArray bs =>
    constructor
    · intro h
      cases h
    · rintro ⟨-, h⟩
      cases h
  | _ =>
    constructor
    · intro h
      cases h
      refine ⟨fun u hu => ?_, rfl⟩
      cases hu
    · rintro ⟨-, h⟩
      cases h
      rfl

theorem exists_toXml_rooted : (∃ e, (rooted l c as).toXml = .ok e) ↔
    (c.Complete ∧ c.kind.type ≠ .byteArray) ∧ ∀ u ∈ c.structural, ∃ e, u.toXml = .ok e := by
  have hparts : (∀ u ∈ c.structural, ∃ e, u.toXml = .ok e) ↔
      ∀ u ∈ c.structural, u.toXml = .ok u.element :=
    forall_congr' fun u => imp_congr_right fun _ =>
      ⟨fun ⟨e, he⟩ => by rw [element_eq he, he], fun h => ⟨_, h⟩⟩
  have hnode := isSome_ofContent? (c := c.map element)
  rw [Content.complete_map, Content.kind_map, Option.isSome_iff_exists] at hnode
  simp only [toXml_rooted_eq_ok, exists_and_left]
  rw [hnode, hparts, and_comm]

/-- What a tree is written as can be read. -/
theorem regular_of_toXml {t : Tree ι} (ht : t.Shaped) (ha : t.All Kind.Acceptable)
    (h : t.toXml = .ok e) : Regular formOf e := by
  induction ht generalizing e with
  | rooted l c as _ _ _ _ ih _ =>
    obtain ⟨hk, hp, -⟩ := all_rooted.1 ha
    obtain ⟨hparts, he⟩ := toXml_rooted_eq_ok.1 h
    refine regular_ofContent? (by rwa [Content.kind_map]) ?_ he
    rw [Content.structural_map]
    exact List.forall_mem_map.2 fun u hu => ih u hu (hp u hu) (hparts u hu)

/-- Trees are written as the same element if and only if XML shows the same of them. -/
theorem Shaped.toXml_eq_iff {t : Tree ι} {u : Tree κ} {f : Element} (ht : t.Shaped) (hu : u.Shaped)
    (hta : t.All Kind.Acceptable) (hua : u.All Kind.Acceptable) (he : t.toXml = .ok e)
    (hf : u.toXml = .ok f) : e = f ↔ t.inXml = u.inXml := by
  induction ht generalizing u e f with
  | rooted l c as _ _ _ _ ih _ =>
    obtain ⟨l', c', as', parts, -, -, -⟩ := hu
    obtain ⟨hk, hp, -⟩ := all_rooted.1 hta
    obtain ⟨hk', hp', -⟩ := all_rooted.1 hua
    obtain ⟨hparts, he⟩ := toXml_rooted_eq_ok.1 he
    obtain ⟨hparts', hf⟩ := toXml_rooted_eq_ok.1 hf
    have hrelated : c.Related (fun t u => t.element = u.element) c' ↔
        c.Related (fun t u => t.inXml = u.inXml) c' := by
      have hpart (x : Tree ι) (hx : x ∈ c.structural) (y : Tree κ) (hy : y ∈ c'.structural) :=
        ih x hx (parts y hy) (hp x hx) (hp' y hy) (hparts x hx) (hparts' y hy)
      exact ⟨fun h => h.mono fun x hx y hy => (hpart x hx y hy).1,
        fun h => h.mono fun x hx y hy => (hpart x hx y hy).2⟩
    rw [ofContent?_eq_iff (by rwa [Content.kind_map]) (by rwa [Content.kind_map]) he hf,
      Content.inXml_map_eq_iff, hrelated, ← Content.inXml_map_eq_iff, inXml_rooted, inXml_rooted]
    exact ⟨fun h => by rw [h], fun h => (rooted_injective h).1⟩

end Tree

/-! ## Nodes of an arena -/

namespace Arena

variable {a : Arena} {id : NodeId} {t : Tree NodeId}

/-- A tree has an XML form if its structural nodes can have one. -/
theorem exists_toXml_iff (ht : a.tree? id = some t) :
    (∃ e, t.toXml = .ok e) ↔ ∀ d ∈ t.bare.labels, ∀ n, a.node? d = some n →
      n.content.Complete ∧ n.kind.type ≠ .byteArray := by
  refine tree?_induction_rooted (P := fun _ t => (∃ e, t.toXml = .ok e) ↔
    ∀ d ∈ t.bare.labels, ∀ n, a.node? d = some n →
      n.content.Complete ∧ n.kind.type ≠ .byteArray) ?_ ht
  intro id n cs as hn hr ihp _
  have hroot : (∀ m, a.node? id = some m → m.content.Complete ∧ m.kind.type ≠ .byteArray) ↔
      cs.Complete ∧ cs.kind.type ≠ .byteArray := by
    rw [hn]
    simp only [Option.some.injEq, forall_eq', Node.kind, hr.content, Content.complete_map,
      Content.kind_map]
  simp only [Tree.exists_toXml_rooted, mem_labels_bare, forall_eq_or_imp, hroot, forall_exists_index,
    and_imp]
  refine and_congr_right fun _ => ⟨fun h d u hu hd => (ihp u hu).1 (h u hu) d hd,
    fun h u hu => (ihp u hu).2 fun d hd => h d u hu hd⟩

theorem Reachable.exists_tree_of_toXml {e : Xml.Element} (h : a.Reachable)
    (he : a.toXml id = .ok e) :
    ∃ t, a.tree? id = some t ∧ t.toXml = .ok e ∧ t.Shaped ∧ t.All Kind.Acceptable := by
  unfold toXml at he
  cases ht : a.tree? id with
  | none => rw [ht] at he; cases he
  | some t =>
    rw [ht] at he
    exact ⟨t, rfl, he, h.wf.shaped ht, h.acceptable.tree ht⟩

/-- The XML text of a node is that of its element, in lines of eighty characters. -/
theorem xmlString_eq_ok {r : Renderer Xml.Style} {s : String} : a.xmlString r id = .ok s ↔
    ∃ e, a.toXml id = .ok e ∧ s = String.ofList (e.document.plain r 80) := by
  rw [xmlString, xmlDocument]
  cases a.toXml id with
  | error e => exact ⟨nofun, fun ⟨_, he, _⟩ => nomatch he⟩
  | ok e =>
    constructor
    · intro h
      cases h
      exact ⟨e, rfl, rfl⟩
    · rintro ⟨_, he, rfl⟩
      cases he
      rfl

/-- In the arenas that come about, a node has an XML text if and only if there is no byte array
    among its structural nodes, and no binding and no error that lacks its head or its body; and
    two nodes, of any such arenas, have the same XML text if and only if XML shows the same of
    their trees.  Of the renderer it is only known that it writes the texts in order and breaks
    the lines. -/
theorem Reachable.xmlString_determines (h : a.Reachable) {r : Renderer Xml.Style} (hr : r.Orderly)
    (hid : a.contains id = true) :
    ((∃ s, a.xmlString r id = .ok s) ↔ ∀ d ∈ a.descendants id, ∀ n, a.node? d = some n →
      n.content.Complete ∧ n.kind.type ≠ .byteArray) ∧
    ∀ (b : Arena) (y : NodeId) (s s' : String), b.Reachable → a.xmlString r id = .ok s →
      b.xmlString r y = .ok s' → ∃ t u, a.tree? id = some t ∧ b.tree? y = some u ∧
        (s = s' ↔ t.inXml = u.inXml) := by
  have w := h.wf
  constructor
  · obtain ⟨n, hn⟩ := contains_iff.1 hid
    obtain ⟨t, ht⟩ := w.exists_tree hn
    have hform : (∃ s, a.xmlString r id = .ok s) ↔ ∃ e, a.toXml id = .ok e := by
      simp only [xmlString_eq_ok]
      exact ⟨fun ⟨_, e, he, _⟩ => ⟨e, he⟩, fun ⟨e, he⟩ => ⟨_, e, he, rfl⟩⟩
    rw [hform, toXml, ht, w.descendants_eq, bare?, ht]
    exact exists_toXml_iff ht
  · intro b y s s' hb hs hs'
    obtain ⟨e, he, rfl⟩ := xmlString_eq_ok.1 hs
    obtain ⟨f, hf, rfl⟩ := xmlString_eq_ok.1 hs'
    obtain ⟨t, ht, he, hts, hta⟩ := h.exists_tree_of_toXml he
    obtain ⟨u, hu, hf, hus, hua⟩ := hb.exists_tree_of_toXml hf
    refine ⟨t, u, ht, hu, ?_⟩
    rw [← hts.toXml_eq_iff hus hta hua he hf, String.ofList_inj]
    have hte := Tree.regular_of_toXml hts hta he
    have hue := Tree.regular_of_toXml hus hua hf
    exact ⟨hte.eq_of_plain_eq hr hue, fun h => by rw [h]⟩

/-- An arena with one integer. -/
def holding (v : Integer) : Arena := ⟨#[some ⟨.integer v, [], none⟩]⟩

/-- A number and a text that are the same integer are different nodes with the same XML text. -/
theorem xmlString_determines_integers : ∃ t u : Tree NodeId,
    (holding (.native 3)).Reachable ∧ (holding (.text "3")).Reachable ∧
    (layout : Renderer Xml.Style).Orderly ∧
    (holding (.native 3)).kind? 0 ≠ (holding (.text "3")).kind? 0 ∧
    (holding (.native 3)).tree? 0 = some t ∧ (holding (.text "3")).tree? 0 = some u ∧
    t.inXml = u.inXml := by
  have ha : (holding (.native 3)).Reachable :=
    .step (c := .integer (.native 3)) (r := .ok ()) .empty (by cbv)
  have hb : (holding (.text "3")).Reachable :=
    .step (c := .integer (.text "3")) (r := .ok ()) .empty (by cbv)
  have hs : (holding (.native 3)).xmlString layout 0 = .ok "<OMI>3</OMI>" := by cbv
  have hs' : (holding (.text "3")).xmlString layout 0 = .ok "<OMI>3</OMI>" := by cbv
  have hkind : (holding (.native 3)).kind? 0 ≠ (holding (.text "3")).kind? 0 := by
    cbv
    simp
  obtain ⟨t, u, ht, hu, hsame⟩ :=
    (ha.xmlString_determines orderly_layout (rfl : contains _ 0 = true)).2 _ 0 _ _ hb hs hs'
  exact ⟨t, u, ha, hb, orderly_layout, hkind, ht, hu, hsame.1 rfl⟩

end Arena

end OpenMath
