/-
  Trees that can be read off their compact text.

  The compact text leaves out attributes and uris, and shows some payloads by texts that mean
  something else.  A tree that has none of these is shown in full, but for its floats: one
  that is an integer is written without a point, and so it is read as an integer.

  * `Kind.Printable`, `Tree.Printable`: the payloads and the trees that are shown in full;
  * `integerOf_toText`, `floatOf_plainText`: numbers are read as what was written;
  * `plainText_eq`, `plainText_whole`: which floats are written with a point;
  * `Tree.reread`: the tree that is read off the text of a tree;
  * `Tree.Legible`: the trees whose text is read, as just this tree.
-/
import Mathlib
import OpenMath.Proofs.Compact.Meaning
import OpenMath.Proofs.Compact.Scanning
import OpenMath.Proofs.Double.Numerals
import OpenMath.Proofs.Double.Whole
import OpenMath.Proofs.Integer
import OpenMath.Proofs.Tree.Equality
import OpenMath.Proofs.Wire.Writing

namespace OpenMath

/-! ## What is shown in full -/

/-- A payload that the compact text shows in full: a text of an integer must not
    fit a number, a float has digits behind its point, and names are words. -/
def Kind.Printable : Kind → Prop
  | .integer (.native _) => True
  | .integer (.text s) => ∃ n, Integer.readText? s = some n ∧
      (n < Int64.minValue.toInt ∨ Int64.maxValue.toInt < n)
  | .float x => x.isFinite = true ∧ x.toInt? = none
  | .string s => Token.EvenBackslashes s.toList
  | .symbol s => Token.isWord s.cd.toList = true ∧ Token.isWord s.name.toList = true ∧ s.uri = none
  | .var name => Token.isWord name.toList = true
  | .application | .binding => True
  | .byteArray _ | .error => False

/-- A tree without attributes of which nothing is missing, all of whose payloads are
    shown in full. -/
inductive Tree.Printable {ι : Type} : Tree ι → Prop
  | rooted (l : ι) (c : Content (Tree ι)) (payload : c.kind.Printable) (complete : c.Complete)
    (nonempty : c.kind = .application → c.children ≠ []) (parts : ∀ u ∈ c.structural, Printable u) :
    Printable (.rooted l c [])

theorem Tree.Printable.leaf {ι : Type} {l : ι} {c : Content (Tree ι)} (h : c.kind.Printable)
    (hl : Wire.IsLeaf c.kind.type) : Tree.Printable (.rooted l c []) := by
  obtain ⟨ha, hb, he⟩ := hl
  cases c with
  | application => exact absurd rfl ha
  | binding => exact absurd rfl hb
  | error => exact absurd rfl he
  | _ => exact .rooted l _ h trivial nofun nofun

namespace Compact

/-! ## Integers -/

/-- The text of an integer means the integer. -/
theorem integerOf_toText {v : Integer} (h : (Kind.integer v).Printable) : integerOf v.toText = v := by
  cases v with
  | native n =>
    rw [integerOf, Integer.toText, Integer.readText?_ofInt, Option.bind_some, Integer.native?_toInt,
      Option.getD_some]
  | text s =>
    obtain ⟨n, hn, hr⟩ := h
    rw [integerOf, Integer.toText, hn, Option.bind_some, Integer.native?_eq_none hr,
      Option.getD_none]

theorem isIntegerText_toText {v : Integer} (h : (Kind.integer v).Printable) :
    Identifier.isIntegerText v.toText = true := by
  cases v with
  | native n => exact Integer.isIntegerText_ofInt n.toInt
  | text s =>
    obtain ⟨n, hn, -⟩ := h
    by_contra hs
    rw [Integer.readText?, if_neg (show ¬ Identifier.isIntegerText s = true from hs)] at hn
    cases hn

/-! ## Floats -/

/-- The text of a float means the float. -/
theorem floatOf_plainText {x : Double} (h : x.isFinite = true) : floatOf x.plainText = x := by
  rw [floatOf, Double.plainText, Double.ofText?_toText h Double.endsIn_plain, Option.getD_some]

/-- A number that is no integer is written with a point. -/
theorem plainText_eq {x : Double} (hx : x.isFinite = true) (hi : x.toInt? = none) :
    ∃ whole frac, x.plainText.toList = x.signChars ++ (whole ++ '.' :: frac) ∧
      Digits.isNumeral whole = true ∧ ∀ c ∈ frac, c.isDigit = true := by
  have hz : ¬ x.isZero = true := by
    intro hz
    have hsome := Double.toInt?_isSome (m := 0) hx (by rw [Double.value_of_isZero hz, Nat.cast_zero])
    rw [hi] at hsome
    cases hsome
  have he : (x.written NumberStyle.plain.tie).exponent < 0 := by
    rw [Double.written, if_neg hz]
    exact Double.exponent_shortest_neg hx hi _
  have hok : (x.numeral .plain 0).Ok := Double.ok_numeral hx
  obtain ⟨hwhole, hfrac, hne, -⟩ := hok
  refine ⟨_, _, ?_, Digits.isNumeral_iff.2 ⟨hne, hwhole⟩, hfrac⟩
  rw [Double.plainText, Double.toText_numeral hx Double.endsIn_plain, Numeral.chars_of_point]
  · exact Decimal.exponent_positionalNumeral _
  · exact Decimal.frac_positionalNumeral (.inl he)

/-- A number that is an integer is written without a point. -/
theorem plainText_whole {x : Double} (hi : x.toInt?.isSome = true) :
    ∃ ds, x.plainText.toList = x.signChars ++ ds ∧ Digits.isNumeral ds = true := by
  have hx : x.isFinite = true := Double.isFinite_of_toInt? hi
  have he : 0 ≤ (x.written NumberStyle.plain.tie).exponent := by
    unfold Double.written
    split
    · exact le_rfl
    · next hz => exact Double.exponent_shortest_nonneg hi (by simpa using hz) _
  obtain ⟨hwhole, -, hne, -⟩ : (x.numeral .plain 0).Ok := Double.ok_numeral hx
  refine ⟨_, ?_, Digits.isNumeral_iff.2 ⟨hne, hwhole⟩⟩
  have hnumeral : x.numeral .plain 0 = ⟨(x.numeral .plain 0).whole, [], none⟩ := by
    show Decimal.positionalNumeral _ _ = ⟨(Decimal.positionalNumeral _ _).whole, [], none⟩
    rw [Decimal.positionalNumeral, if_pos he]
    rfl
  rw [Double.plainText, Double.toText_numeral hx Double.endsIn_plain, hnumeral, Numeral.chars_of_none]
  simp

theorem isIntegerText_plainText {x : Double} (hi : x.toInt?.isSome = true) :
    Identifier.isIntegerText x.plainText = true := by
  obtain ⟨ds, htext, hd⟩ := plainText_whole hi
  rw [Identifier.isIntegerText, htext, Double.signChars]
  split
  · exact hd
  · rw [List.nil_append, Digits.splitSign_of_isNumeral hd]
    exact hd

theorem printable_integerOf {text : String} (h : Identifier.isIntegerText text = true) :
    (Kind.integer (integerOf text)).Printable := by
  obtain ⟨n, hn⟩ : ∃ n, Integer.readText? text = some n := by
    rw [Integer.readText?, if_pos h]
    exact ⟨_, rfl⟩
  rw [integerOf, hn, Option.bind_some, Integer.native?]
  split
  · trivial
  · exact ⟨n, hn, by omega⟩

end Compact

/-! ## What payloads are read as -/

/-- The payload that is read off the text of a payload. -/
def Kind.reread : Kind → Kind
  | .float x => if x.toInt?.isSome then .integer (Compact.integerOf x.plainText) else .float x
  | k => k

theorem Kind.reread_float_of_isSome {x : Double} (h : x.toInt?.isSome = true) :
    (Kind.float x).reread = .integer (Compact.integerOf x.plainText) := if_pos h

theorem Kind.reread_float_of_eq_none {x : Double} (h : x.toInt? = none) :
    (Kind.float x).reread = .float x := if_neg (by simp [h])

theorem Kind.reread_of_type_ne {k : Kind} (h : k.type ≠ .float) : k.reread = k := by
  cases k with
  | float x => exact absurd rfl h
  | _ => rfl

theorem Kind.printable_reread_float_iff {x : Double} :
    (Kind.float x).reread.Printable ↔ x.isFinite = true := by
  cases hi : x.toInt? with
  | none =>
    rw [reread_float_of_eq_none hi]
    exact and_iff_left hi
  | some n =>
    have hi : x.toInt?.isSome = true := by rw [hi]; rfl
    have hx : x.isFinite = true := Double.isFinite_of_toInt? hi
    rw [reread_float_of_isSome hi]
    exact iff_of_true (Compact.printable_integerOf (Compact.isIntegerText_plainText hi)) hx

/-- A payload is the same after it was written and read if and only if equality does not
    tell the two apart. -/
theorem Kind.agrees_reread_iff {k : Kind} (h : k.Acceptable) :
    k.agrees k.reread = true ↔ k.reread = k := by
  refine ⟨fun ha => ?_, fun he => by rw [he]; exact Tree.agrees_self h⟩
  cases k with
  | float x =>
    cases hi : x.toInt? with
    | none => exact reread_float_of_eq_none hi
    | some n =>
      rw [reread_float_of_isSome (by rw [hi]; rfl)] at ha
      cases ha
  | _ => rfl

/-! ## Nodes -/

variable {ι κ α β : Type}

/-- The parts of a node are related to what each of them is changed to. -/
theorem Content.related_map_iff {R : α → β → Prop} {g : α → β} {c : Content α} :
    c.Related R (c.map g) ↔ ∀ x ∈ c.structural, R x (g x) := by
  have key {xs : List α} (h : List.Forall₂ R xs (xs.map g)) : ∀ x ∈ xs, R x (g x) :=
    List.forall₂_same.1 (List.forall₂_map_right_iff.1 h)
  constructor
  · rintro ⟨hc, hh, hv, hb⟩ x hx
    rw [children_map] at hc
    rw [head?_map, Option.toList_map] at hh
    rw [bound_map] at hv
    rw [body?_map, Option.toList_map] at hb
    rcases mem_structural.1 hx with hx | hx | hx | hx
    · exact key hc x hx
    · exact key hh x (Option.mem_toList.2 hx)
    · exact key hv x hx
    · exact key hb x (Option.mem_toList.2 hx)
  · intro h
    have := related_map (f := fun x => x) h
    rwa [map_self] at this

/-- A node with the payload that is read off the text of its payload. -/
def Content.reread : Content α → Content α
  | .float x => if x.toInt?.isSome then .integer (Compact.integerOf x.plainText) else .float x
  | c => c

section
variable (c : Content α)

@[simp] theorem Content.kind_reread : c.reread.kind = c.kind.reread := by
  cases c with
  | float x => exact apply_ite Content.kind ..
  | _ => rfl

theorem Content.map_reread (f : α → β) : c.reread.map f = (c.map f).reread := by
  cases c with
  | float x => exact apply_ite (Content.map f) ..
  | _ => rfl

theorem Content.reread_cases : c.reread = c ∨ ∃ x v, c = .float x ∧ c.reread = .integer v := by
  cases c with
  | float x =>
    by_cases h : x.toInt?.isSome = true
    · exact .inr ⟨x, _, rfl, if_pos h⟩
    · exact .inl (if_neg h)
  | _ => exact .inl rfl

@[simp] theorem Content.slots_reread : c.reread.slots = c.slots := by
  obtain h | ⟨x, v, rfl, h⟩ := c.reread_cases
  · rw [h]
  · rw [h]
    rfl

@[simp] theorem Content.structural_reread : c.reread.structural = c.structural := by
  rw [← contents_slots, slots_reread, contents_slots]

theorem Content.complete_reread : c.reread.Complete ↔ c.Complete := by
  obtain h | ⟨x, v, rfl, h⟩ := c.reread_cases
  · rw [h]
  · rw [h]
    exact Iff.rfl

theorem Content.related_reread {R : α → β → Prop} {c : Content α} {d : Content β} :
    c.Related R d.reread ↔ c.Related R d := by
  obtain h | ⟨x, v, rfl, h⟩ := d.reread_cases
  · rw [h]
  · rw [h]
    exact ⟨fun ⟨hc, hh, hv, hb⟩ => ⟨hc, hh, hv, hb⟩, fun ⟨hc, hh, hv, hb⟩ => ⟨hc, hh, hv, hb⟩⟩

theorem Content.nonempty_reread : (c.reread.kind = .application → c.reread.children ≠ []) ↔
    (c.kind = .application → c.children ≠ []) := by
  obtain h | ⟨x, v, rfl, h⟩ := c.reread_cases
  · rw [h]
  · rw [h]
    exact iff_of_true nofun nofun

end

/-! ## Trees -/

namespace Tree

/-- The tree that is read off the text of a tree. -/
def reread : Tree ι → Tree ι := fold fun l k ss => .node l k.reread ss

theorem reread_node (l : ι) (k : Kind) (ss : Slots (Tree ι)) :
    (node l k ss).reread = node l k.reread (ss.mapContent reread) := by
  rw [reread, fold_node]

theorem reread_rooted (l : ι) (c : Content (Tree ι)) (as : List (Symbol × Tree ι)) :
    (rooted l c as).reread =
      rooted l (c.map reread).reread (as.map fun e => (e.1, e.2.reread)) := by
  rw [rooted, reread_node, Content.mapContent_allSlots, rooted, Content.kind_reread,
    Content.kind_map, Content.allSlots, Content.allSlots, Content.slots_reread]

theorem kind_reread (t : Tree ι) : t.reread.kind = t.kind.reread := by
  cases t
  rw [reread_node]
  rfl

theorem type_reread {t : Tree ι} {type : NodeType} (ht : t.kind.type = type) (hne : type ≠ .float) :
    t.reread.kind.type = type := by
  rw [kind_reread, Kind.reread_of_type_ne (ht ▸ hne), ht]

theorem printable_rooted_iff {l : ι} {c : Content (Tree ι)} {as : List (Symbol × Tree ι)} :
    (rooted l c as).Printable ↔ as = [] ∧ c.kind.Printable ∧ c.Complete ∧
      (c.kind = .application → c.children ≠ []) ∧ ∀ u ∈ c.structural, u.Printable := by
  constructor
  · generalize ht : rooted l c as = t
    rintro ⟨l', c', payload, complete, nonempty, parts⟩
    obtain ⟨rfl, rfl⟩ := rooted_injective ht
    exact ⟨rfl, payload, complete, nonempty, parts⟩
  · rintro ⟨rfl, payload, complete, nonempty, parts⟩
    exact .rooted l c payload complete nonempty parts

theorem Printable.reread_eq {t : Tree ι} (h : t.Printable) : t.reread = t := by
  induction h with
  | rooted l c payload _ _ _ ih =>
    have hparts : c.map reread = c := (Content.map_congr ih).trans c.map_self
    have hpayload : c.reread = c := by
      obtain h | ⟨x, v, rfl, -⟩ := c.reread_cases
      · exact h
      · exact if_neg (by simp [payload.2])
    rw [reread_rooted, hparts, hpayload]
    rfl

/-! ## Trees whose text is read -/

/-- What is read off the text of a tree is shown in full. -/
def Legible (t : Tree ι) : Prop := t.reread.Printable

theorem legible_rooted_iff {l : ι} {c : Content (Tree ι)} {as : List (Symbol × Tree ι)} :
    (rooted l c as).Legible ↔ as = [] ∧ c.kind.reread.Printable ∧ c.Complete ∧
      (c.kind = .application → c.children ≠ []) ∧ ∀ u ∈ c.structural, u.Legible := by
  have hpayload : (c.map reread).reread.kind.Printable ↔ c.kind.reread.Printable := by simp
  have hcomplete : (c.map reread).reread.Complete ↔ c.Complete :=
    (Content.complete_reread _).trans Content.complete_map
  have hnonempty : ((c.map reread).reread.kind = .application →
      (c.map reread).reread.children ≠ []) ↔ (c.kind = .application → c.children ≠ []) :=
    (Content.nonempty_reread _).trans (by simp)
  have hparts : (∀ u ∈ (c.map reread).reread.structural, u.Printable) ↔
      ∀ u ∈ c.structural, u.Legible := by
    rw [Content.structural_reread, Content.structural_map, List.forall_mem_map]
    rfl
  rw [Legible, reread_rooted, printable_rooted_iff, List.map_eq_nil_iff, hpayload, hcomplete,
    hnonempty, hparts]

theorem Printable.legible {t : Tree ι} (h : t.Printable) : t.Legible := by
  rw [Legible, h.reread_eq]
  exact h

theorem Shaped.arranged_of_legible {t : Term} (h : t.Shaped) (hl : t.Legible) : t.arranged = t := by
  induction h with
  | rooted l c as _ _ _ _ ih =>
    obtain ⟨rfl, -, -, -, hp⟩ := legible_rooted_iff.1 hl
    have hparts : c.map arranged = c :=
      (Content.map_congr fun u hu => ih u hu (hp u hu)).trans c.map_self
    rw [arranged_rooted, hparts]
    rfl

theorem Shaped.reread {t : Tree ι} (h : t.Shaped) : t.reread.Shaped := by
  induction h with
  | rooted l c as _ _ fits keyed ihp ihv =>
    rw [reread_rooted]
    refine .rooted l _ _ ?_ (List.forall_mem_map.2 ihv) ?_ ((keyed_map _).2 keyed)
    · rw [Content.structural_reread, Content.structural_map]
      exact List.forall_mem_map.2 ihp
    · obtain ⟨hh, hv⟩ := fits_iff.1 fits
      rw [Content.slots_reread]
      refine fits_iff.2 ⟨fun w hw => ?_, fun w hw => ?_⟩
      · rw [Content.head?_map, Option.map_eq_some_iff] at hw
        obtain ⟨u, hu, rfl⟩ := hw
        exact type_reread (hh u hu) (by decide)
      · rw [Content.bound_map] at hw
        obtain ⟨u, hu, rfl⟩ := List.mem_map.1 hw
        exact type_reread (hv u hu) (by decide)

/-- A tree equals what is read off its text if and only if no float in it is an integer. -/
theorem Shaped.equals_reread_iff {t : Tree ι} (h : t.Shaped) (ha : t.All Kind.Acceptable)
    (hl : t.Legible) (w : Bool) :
    t.equals w t.reread = true ↔ t.All fun k => k.reread = k := by
  induction h with
  | rooted l c as _ _ _ keyed ih =>
    obtain ⟨hk, hap, -⟩ := all_rooted.1 ha
    obtain ⟨rfl, -, -, -, hp⟩ := legible_rooted_iff.1 hl
    have hparts : c.Related (fun u v => u.equals w v = true) (c.map Tree.reread).reread ↔
        ∀ u ∈ c.structural, u.All fun k => k.reread = k := by
      rw [Content.related_reread, Content.related_map_iff]
      exact forall_congr' fun u => forall_congr' fun hu => ih u hu (hap u hu) (hp u hu)
    rw [reread_rooted, equals_rooted_iff_related w _ _ _ _ _ _ ((keyed_map _).2 keyed), all_rooted,
      Content.kind_reread, Content.kind_map, Kind.agrees_reread_iff hk, hparts]
    simp

end Tree

end OpenMath
