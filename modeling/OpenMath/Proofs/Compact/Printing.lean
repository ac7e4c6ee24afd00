/-
  Reading back the compact text of a tree.

  A tree whose text can be read is written as the tokens of an expression, which means the
  shape of what is read.  For a tree that is shown in full this is its own shape.

  * `lexes_integer`, `lexes_float`, `lexes_string` and so on: the tokens of payloads;
  * `Written`: the expression that a tree is written as, and what it means;
  * `exists_written`: every tree whose text can be read is written as an expression;
  * `parse_compact`: the text of a node is read as the shape of the node.
-/
import OpenMath.Proofs.Arena.Commands
import OpenMath.Proofs.Compact.Legible

namespace OpenMath

namespace Compact

/-! ## Numbers -/

theorem lexes_integer {text : String} (h : Identifier.isIntegerText text = true) :
    Token.Lexes text.toList [.integer text] := by
  obtain ⟨sign, hs, hcs⟩ := Token.exists_sign text.toList
  refine Token.lexes_of_scan fun rest hr => ?_
  have := Token.scan_integer hs h hr
  rwa [← List.append_assoc, ← hcs, String.ofList_toList] at this

theorem lexes_float {x : Double} (hx : x.isFinite = true) (hi : x.toInt? = none) :
    Token.Lexes x.plainText.toList [.float x.plainText] := by
  obtain ⟨whole, frac, htext, hw, hf⟩ := plainText_eq hx hi
  have hs : Token.IsSign x.signChars := by
    unfold Double.signChars
    split
    · exact .inr (.inr rfl)
    · exact .inl rfl
  refine Token.lexes_of_scan fun rest hr => ?_
  have hscan := Token.scan_float hs hw hf hr
  have hx' : x.plainText = String.ofList (x.signChars ++ whole ++ '.' :: frac) := by
    rw [List.append_assoc, ← htext, String.ofList_toList]
  rw [← hx'] at hscan
  rw [htext, List.append_assoc, List.append_assoc]
  exact hscan

/-! ## Strings and names -/

open Token (Lexes)

theorem lexes_string {s : String} (h : Token.EvenBackslashes s.toList) :
    Lexes (quoteText s.toList) [.string s] := by
  refine Token.lexes_of_scan fun rest _ => ?_
  have := Token.scan_string h rest
  rwa [String.ofList_toList] at this

theorem lexes_symbol {s : Symbol} (hcd : Token.isWord s.cd.toList = true)
    (hn : Token.isWord s.name.toList = true) : Lexes s.toText.toList [.symbol s.cd s.name] := by
  refine Token.lexes_of_scan fun rest hr => ?_
  have := Token.scan_symbol hcd hn hr
  rw [String.ofList_toList, String.ofList_toList] at this
  simpa [Symbol.toText] using this

theorem lexes_var {name : String} (h : Token.isWord name.toList = true) :
    Lexes name.toList [.var name] := by
  refine Token.lexes_of_scan fun rest hr => ?_
  have := Token.scan_var h hr
  rwa [String.ofList_toList] at this

/-! ## Groups -/

/-- A group is read if its head and what stands in it are. -/
theorem lexes_group {head args : List Char} {hs as : List Token} (hh : Lexes head hs)
    (ha : Lexes args as) (g : Group) :
    Lexes (head ++ g.opening :: (args ++ [g.closing]))
      (hs ++ g.openingToken :: (as ++ [g.closingToken])) := by
  intro rest us hd hr
  have hclose : Token.ofChars (g.closing :: rest) = .ok (g.closingToken :: us) :=
    Token.ofChars_of_scan (by cases g <;> rfl) hr
  have hargs := ha _ _ (Token.delimited_cons (by cases g <;> decide)) hclose
  have hopen : Token.ofChars (g.opening :: (args ++ g.closing :: rest)) =
      .ok (g.openingToken :: (as ++ g.closingToken :: us)) :=
    Token.ofChars_of_scan (by cases g <;> rfl) hargs
  simpa using hh _ _ (Token.delimited_cons (by cases g <;> decide)) hopen

/-- Texts with commas between them are read if they are. -/
theorem lexes_separated {α : Type} {text : α → List Char} {ts : α → List Token} {us : List α}
    (h : ∀ u ∈ us, Lexes (text u) (ts u)) :
    Lexes (Text.commaSeparated (us.map text)) (Expr.separated (us.map ts)) := by
  induction us with
  | nil => exact Token.lexes_nil
  | cons u us ih =>
    obtain ⟨hu, hus⟩ := List.forall_mem_cons.1 h
    cases us with
    | nil => simpa [Text.commaSeparated, Expr.separated] using hu
    | cons v us =>
      intro rest ws hd hr
      have hcomma : Token.ofChars (',' :: (Text.commaSeparated ((v :: us).map text) ++ rest)) =
          .ok (.comma :: (Expr.separated ((v :: us).map ts) ++ ws)) :=
        Token.ofChars_of_scan rfl (ih hus rest ws hd hr)
      have := hu _ _ (Token.delimited_cons (by decide)) hcomma
      simpa [Text.commaSeparated, Expr.separated] using this

/-! ## Trees -/

/-- A tree is written as an expression, which means the shape of another. -/
structure Written {ι : Type} (t u : Tree ι) (e : Expr) : Prop where
  lexes : Lexes t.compactChars e.tokens
  proper : e.Proper
  shape : u.toShape = .ok e.meaning
  type : e.type = u.kind.type

variable {ι : Type} {l : ι} {c : Content (Tree ι)}

theorem compactChars_rooted (l : ι) (c : Content (Tree ι)) (as : List (Symbol × Tree ι)) :
    (Tree.rooted l c as).compactChars =
      Tree.compactStep c.kind ((c.map Tree.compactChars).allSlots
        (as.map fun e => (e.1, e.2.compactChars))) := by
  rw [Tree.rooted, Tree.compactChars_node, Content.mapContent_allSlots]

theorem compactChars_application (l : ι) (head : Tree ι) (operands : List (Tree ι))
    (as : List (Symbol × Tree ι)) :
    (Tree.rooted l (.application (head :: operands)) as).compactChars =
      head.compactChars ++ '(' :: (Text.commaSeparated (operands.map Tree.compactChars) ++ [')']) := by
  rw [compactChars_rooted]
  simp [Tree.compactStep, Content.kind, Content.map, Content.children]

theorem compactChars_binding (l : ι) (head : Tree ι) (vs : List (Tree ι)) (body : Tree ι)
    (as : List (Symbol × Tree ι)) :
    (Tree.rooted l (.binding (some head) vs (some body)) as).compactChars =
      head.compactChars ++
        '[' :: (Text.commaSeparated ((vs ++ [body]).map Tree.compactChars) ++ [']']) := by
  rw [compactChars_rooted]
  simp [Tree.compactStep, Content.kind, Content.map, Content.bound, Content.head?, Content.body?]

/-- The shape of what is read off the text of a node from what its parts mean. -/
theorem toShape_reread (hk : c.kind.reread.Printable) (hc : c.Complete) {f : Tree ι → Json}
    (hf : ∀ u ∈ c.structural, u.reread.toShape = .ok (f u)) :
    (Tree.rooted l c []).reread.toShape = .ok (Shape.ofContent (c.reread.map f)) := by
  have hshape : (c.map Tree.reread).reread.map Tree.shape = c.reread.map f := by
    rw [Content.map_reread, Content.map_map, Content.map_reread]
    exact congrArg _ (Content.map_congr fun u hu => Tree.shape_eq (hf u hu))
  have hfinite : ∀ x, (c.map Tree.reread).reread.kind = .float x → x.isFinite = true := by
    intro x hx
    rw [Content.kind_reread, Content.kind_map] at hx
    rw [hx] at hk
    exact hk.1
  rw [Tree.reread_rooted, Tree.toShape_rooted_of_complete
    ((Content.complete_reread _).2 (Content.complete_map.2 hc)) hfinite ?_ (by simp), hshape]
  · exact congrArg Except.ok (Tree.withAttributes_nil _)
  · rw [Content.structural_reread, Content.structural_map, List.forall_mem_map]
    exact fun u hu => by rw [hf u hu, Tree.shape_eq (hf u hu)]

/-- A float is written as a float if it is no integer, and as a numeral if it is one. -/
theorem exists_atom_float {x : Double} (hx : x.isFinite = true) :
    ∃ a : Atom, Lexes x.plainText.toList [a.token] ∧ a.Proper ∧
      a.meaning = Shape.ofContent (Content.float x).reread ∧ a.type = (Kind.float x).reread.type := by
  cases hi : x.toInt? with
  | none =>
    have hmeaning : floatOf x.plainText = x := floatOf_plainText hx
    rw [Kind.reread_float_of_eq_none hi, Content.reread, if_neg (by simp [hi])]
    refine ⟨.float x.plainText, lexes_float hx hi, ?_, ?_, rfl⟩
    · rwa [Atom.Proper, hmeaning]
    · rw [Atom.meaning, hmeaning]
      rfl
  | some n =>
    have hi : x.toInt?.isSome = true := by rw [hi]; rfl
    rw [Kind.reread_float_of_isSome hi, Content.reread, if_pos hi]
    exact ⟨.integer x.plainText, lexes_integer (isIntegerText_plainText hi), trivial, rfl, rfl⟩

/-- A node without parts is written as a token. -/
theorem exists_atom (l : ι) (hk : c.kind.reread.Printable) (hl : Wire.IsLeaf c.kind.type)
    (f : Tree ι → Json) :
    ∃ a : Atom, Lexes (Tree.rooted l c []).compactChars [a.token] ∧ a.Proper ∧
      a.meaning = Shape.ofContent (c.reread.map f) ∧ a.type = c.kind.reread.type := by
  obtain ⟨ha, hb, he⟩ := hl
  rw [compactChars_rooted]
  cases c with
  | integer v =>
    refine ⟨.integer v.toText, lexes_integer (isIntegerText_toText hk), trivial, ?_, rfl⟩
    rw [Atom.meaning, integerOf_toText hk]
    rfl
  | float x =>
    rw [Content.map_reread]
    exact exists_atom_float (Kind.printable_reread_float_iff.1 hk)
  | string s => exact ⟨.string s, lexes_string hk, trivial, rfl, rfl⟩
  | symbol s =>
    refine ⟨.symbol s.cd s.name, lexes_symbol hk.1 hk.2.1, trivial, ?_, rfl⟩
    show _ = s.toShape
    rw [Symbol.toShape, hk.2.2]
    rfl
  | var name => exact ⟨.var name, lexes_var hk, trivial, rfl, rfl⟩
  | byteArray => exact hk.elim
  | application => exact absurd rfl ha
  | binding => exact absurd rfl hb
  | error => exact absurd rfl he

variable {f : Tree ι → Expr}

theorem written_application {l : ι} {head : Tree ι} {operands : List (Tree ι)}
    (h : ∀ u ∈ head :: operands, Written u u.reread (f u)) :
    Written (.rooted l (.application (head :: operands)) [])
      (Tree.rooted l (.application (head :: operands)) []).reread
      (.application (f head) (operands.map f)) := by
  obtain ⟨hhead, hops⟩ := List.forall_mem_cons.1 h
  refine ⟨?_, ?_, ?_, ?_⟩
  · rw [compactChars_application, Expr.tokens, List.map_map]
    exact lexes_group hhead.lexes (lexes_separated fun u hu => (hops u hu).lexes) .application
  · rw [Expr.Proper, List.forall_mem_map]
    exact ⟨hhead.proper, fun u hu => (hops u hu).proper⟩
  · have hparts : ∀ u ∈ (Content.application (head :: operands)).structural,
        u.reread.toShape = .ok (f u).meaning :=
      Content.forall_structural_application.2 fun u hu => (h u hu).shape
    have hshape := toShape_reread (l := l) (c := .application _) trivial trivial hparts
    rw [hshape, Expr.meaning, List.map_map]
    rfl
  · rw [Tree.kind_reread]
    rfl

theorem written_binding {l : ι} {head body : Tree ι} {vs : List (Tree ι)}
    (hh : Written head head.reread (f head)) (hv : ∀ u ∈ vs, Written u u.reread (f u))
    (hb : Written body body.reread (f body)) (fhead : head.reread.kind.type = .symbol)
    (fbound : ∀ u ∈ vs, u.reread.kind.type = .var) :
    Written (.rooted l (.binding (some head) vs (some body)) [])
      (Tree.rooted l (.binding (some head) vs (some body)) []).reread
      (.binding (f head) (vs.map f) (f body)) := by
  refine ⟨?_, ?_, ?_, ?_⟩
  · have hargs : ∀ u ∈ vs ++ [body], Lexes u.compactChars (f u).tokens :=
      List.forall_mem_append.2 ⟨fun u hu => (hv u hu).lexes, List.forall_mem_singleton.2 hb.lexes⟩
    have htokens : vs.map (Expr.tokens ∘ f) ++ [(f body).tokens] =
        (vs ++ [body]).map fun u => (f u).tokens := by
      simp
    rw [compactChars_binding, Expr.tokens, List.map_map, htokens]
    exact lexes_group hh.lexes (lexes_separated hargs) .binding
  · rw [Expr.Proper, List.forall_mem_map, List.forall_mem_map]
    exact ⟨hh.proper, fun u hu => (hv u hu).proper, hb.proper, hh.type.trans fhead,
      fun u hu => (hv u hu).type.trans (fbound u hu)⟩
  · have hparts : ∀ u ∈ (Content.binding (some head) vs (some body)).structural,
        u.reread.toShape = .ok (f u).meaning :=
      Content.forall_structural_binding.2 ⟨hh.shape, fun u hu => (hv u hu).shape, hb.shape⟩
    have hshape := toShape_reread (l := l) (c := .binding _ _ _) trivial ⟨rfl, rfl⟩ hparts
    rw [hshape, Expr.meaning, List.map_map]
    rfl
  · rw [Tree.kind_reread]
    rfl

/-- A node is written as an expression if its parts are. -/
theorem exists_written_rooted (hk : c.kind.reread.Printable) (hc : c.Complete)
    (hne : c.kind = .application → c.children ≠ [])
    (fits : ∀ s ∈ c.slots, s.role.admits s.content.kind = true)
    (ih : ∀ u ∈ c.structural, ∃ e, Written u u.reread e) :
    ∃ e, Written (.rooted l c []) (Tree.rooted l c []).reread e := by
  have : Nonempty Expr := ⟨.atom (.var "")⟩
  choose! f hf using ih
  have leaf (hl : Wire.IsLeaf c.kind.type) :
      ∃ e, Written (.rooted l c []) (Tree.rooted l c []).reread e := by
    obtain ⟨a, htokens, hp, hm, ht⟩ := exists_atom l hk hl fun u => (f u).meaning
    refine ⟨.atom a, by rwa [Expr.tokens], by rwa [Expr.Proper], ?_, ?_⟩
    · rw [toShape_reread hk hc fun u hu => (hf u hu).shape, Expr.meaning, hm]
    · rw [Tree.kind_reread]
      exact ht
  cases c with
  | application cs =>
    obtain ⟨head, operands, rfl⟩ := List.exists_cons_of_ne_nil (hne rfl)
    exact ⟨_, written_application fun u hu => hf u (Content.mem_structural_of_child hu)⟩
  | binding hd vs b =>
    obtain ⟨⟨head, rfl⟩, body, rfl⟩ := hc.imp Option.isSome_iff_exists.1 Option.isSome_iff_exists.1
    obtain ⟨fhead, fbound⟩ := Tree.fits_iff.1 fits
    exact ⟨_, written_binding (hf head (Content.mem_structural_of_head rfl))
      (fun u hu => hf u (Content.mem_structural_of_bound hu))
      (hf body (Content.mem_structural_of_body rfl))
      (Tree.type_reread (fhead head rfl) (by decide))
      fun u hu => Tree.type_reread (fbound u hu) (by decide)⟩
  | error => exact hk.elim
  | _ => exact leaf (by simp [Wire.IsLeaf, Content.kind, Kind.type])

/-- A tree whose text can be read is written as an expression, which means the shape of what
    is read. -/
theorem exists_written {t : Tree ι} (hs : t.Shaped) (hl : t.Legible) :
    ∃ e, Written t t.reread e := by
  induction hs with
  | rooted l c as _ _ fits _ ih =>
    obtain ⟨rfl, hk, hc, hne, hp⟩ := Tree.legible_rooted_iff.1 hl
    exact exists_written_rooted hk hc hne fits fun u hu => ih u hu (hp u hu)

theorem exists_written_of_printable {t : Tree ι} (hs : t.Shaped) (hp : t.Printable) :
    ∃ e, Written t t e := by
  obtain ⟨e, he⟩ := exists_written hs hp.legible
  rw [hp.reread_eq] at he
  exact ⟨e, he⟩

end Compact

/-- The compact text of a node is read as the shape of the node, if all of the node
    is shown in full. -/
theorem Arena.Reachable.parse_compact {a : Arena} (ha : a.Reachable) {id : NodeId}
    {t : Tree NodeId} (ht : a.tree? id = some t) (hp : t.Printable) :
    ∃ v, a.toShape id = .ok v ∧ Compact.parse (a.compact id) = .ok v := by
  obtain ⟨e, he⟩ := Compact.exists_written_of_printable (ha.wf.shaped ht) hp
  refine ⟨e.meaning, ?_, Compact.parse_eq_ok_iff.2 ⟨e, ?_, he.proper, rfl⟩⟩
  · rw [toShape, ht]
    exact he.shape
  · rw [compact, ht, String.toList_ofList]
    exact he.lexes.ofChars

/-- An arena with a variable, a float, a string with a quote in it, and an application to their
    copies. -/
def Arena.appliedToLeaves : Arena where
  places := #[some ⟨.var "f", [], none⟩, some ⟨.float ⟨0xBFF8000000000000⟩, [], none⟩,
    some ⟨.string "it's", [], none⟩, some ⟨.var "f", [], some 6⟩,
    some ⟨.float ⟨0xBFF8000000000000⟩, [], some 6⟩, some ⟨.string "it's", [], some 6⟩,
    some ⟨.application [3, 4, 5], [], none⟩]

theorem Arena.reachable_appliedToLeaves : appliedToLeaves.Reachable :=
  .step (c := .application [0, 1, 2]) (r := .ok ())
    (.step (c := .string "it's") (r := .ok ())
      (b := ⟨#[some ⟨.var "f", [], none⟩, some ⟨.float ⟨0xBFF8000000000000⟩, [], none⟩,
        some ⟨.string "it's", [], none⟩]⟩)
      (.step (c := .float ⟨0xBFF8000000000000⟩) (r := .ok ())
        (b := ⟨#[some ⟨.var "f", [], none⟩, some ⟨.float ⟨0xBFF8000000000000⟩, [], none⟩]⟩)
        (.step (c := .var "f") (r := .ok ()) (b := ⟨#[some ⟨.var "f", [], none⟩]⟩) .empty
          (by cbv)) (by cbv)) (by cbv)) (by cbv)

/-- The trees of the copies. -/
def Arena.leafTrees : List (Tree NodeId) :=
  [.rooted 3 (.var "f") [], .rooted 4 (.float ⟨0xBFF8000000000000⟩) [], .rooted 5 (.string "it's") []]

theorem Arena.printable_leafTrees : ∀ u ∈ leafTrees, u.Printable := by
  simp only [leafTrees, List.forall_mem_cons]
  refine ⟨.leaf rfl ?_, .leaf ⟨by decide, by decide⟩ ?_,
    .leaf (Token.evenBackslashes_of_not_mem (by decide)) ?_, by simp⟩
  all_goals simp [Wire.IsLeaf, Content.kind, Kind.type]

/-- An application to a float and to a string with a quote in it is read back. -/
theorem Arena.parse_compact_applied :
    ∃ (a : Arena) (v : Json), a.Reachable ∧ a.toShape 6 = .ok v ∧
      Compact.parse (a.compact 6) = .ok v := by
  have hp : (Tree.rooted (6 : NodeId) (.application leafTrees) []).Printable :=
    .rooted 6 (.application _) trivial trivial (fun _ => List.cons_ne_nil _ _) fun u hu =>
      printable_leafTrees u (by
        simpa [Content.structural, Content.children, Content.head?, Content.bound, Content.body?]
          using hu)
  obtain ⟨v, hv⟩ := reachable_appliedToLeaves.parse_compact
    (by cbv : appliedToLeaves.tree? 6 = some (.rooted 6 (.application leafTrees) [])) hp
  exact ⟨_, v, reachable_appliedToLeaves, hv⟩

end OpenMath
