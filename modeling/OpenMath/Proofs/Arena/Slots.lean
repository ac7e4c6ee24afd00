/-
  What the slots of a node hold, and what writing a slot does.

  * `Node.mapOwned`, `Node.keepOwned`: a node with other nodes in its slots, and
    with some of its slots emptied;
  * `Node.location?_spec`: a node that is owned once is found in its slot, and
    writing that slot puts another node in its place, or takes it out.
-/
import OpenMath.Arena.Editing
import Mathlib.Data.List.Pairwise
import Mathlib.Tactic.SplitIfs

namespace OpenMath

/-! ## Contents -/

namespace Content

variable {α β : Type}

/-- The same content with those parts only that pass a test. -/
def filter (keep : α → Bool) : Content α → Content α
  | application cs => application (cs.filter keep)
  | binding h vs b => binding (h.filter keep) (vs.filter keep) (b.filter keep)
  | error h cs => error (h.filter keep) (cs.filter keep)
  | c => c

@[simp] theorem kind_filter (keep : α → Bool) (c : Content α) :
    (c.filter keep).kind = c.kind := by
  cases c <;> rfl

theorem toList_filter (keep : α → Bool) (x : Option α) :
    (x.filter keep).toList = x.toList.filter keep := by
  cases x with
  | none => rfl
  | some y => by_cases h : keep y <;> simp [Option.filter, h]

theorem slots_filter (keep : α → Bool) (c : Content α) :
    (c.filter keep).slots = c.slots.filter fun s => keep s.content := by
  cases c <;>
    simp [filter, slots, placed, children, head?, bound, body?, toList_filter, List.filter_map,
      Function.comp_def]

theorem structural_filter (keep : α → Bool) (c : Content α) :
    (c.filter keep).structural = c.structural.filter keep := by
  rw [← contents_slots, ← contents_slots, slots_filter]
  simp [Slots.contents, List.filter_map, Function.comp_def]

/-- A content all of whose parts pass the test stays as it is. -/
theorem filter_eq_self {keep : α → Bool} {c : Content α} (h : ∀ x ∈ c.structural, keep x = true) :
    c.filter keep = c := by
  simp only [mem_structural] at h
  have hlist {xs : List α} (hx : ∀ x ∈ xs, keep x = true) : xs.filter keep = xs :=
    List.filter_eq_self.2 hx
  have hoption {o : Option α} (ho : ∀ x, o = some x → keep x = true) : o.filter keep = o := by
    cases o <;> simp_all
  cases c with
  | application cs => exact congrArg application (hlist fun x hx => h x (.inl hx))
  | binding hd vs b =>
    have hh : hd.filter keep = hd := hoption fun x hx => h x (.inr (.inl hx))
    have hv : vs.filter keep = vs := hlist fun x hx => h x (.inr (.inr (.inl hx)))
    have hb : b.filter keep = b := hoption fun x hx => h x (.inr (.inr (.inr hx)))
    rw [filter, hh, hv, hb]
  | error hd cs =>
    have hh : hd.filter keep = hd := hoption fun x hx => h x (.inr (.inl hx))
    have hc : cs.filter keep = cs := hlist fun x hx => h x (.inl hx)
    rw [filter, hh, hc]
  | _ => rfl

end Content

/-! ## Nodes -/

namespace Node

/-- The node with other nodes in its slots. -/
def mapOwned (f : NodeId → NodeId) (n : Node) : Node :=
  { n with content := n.content.map f, attributes := n.attributes.map fun e => (e.1, f e.2) }

/-- The node with the slots emptied in which the nodes fail a test. -/
def keepOwned (keep : NodeId → Bool) (n : Node) : Node :=
  { n with content := n.content.filter keep, attributes := n.attributes.filter fun e => keep e.2 }

/-- Another node in the place of a given one. -/
def rename (id x : NodeId) : Node → Node := mapOwned fun y => if y = id then x else y

/-- The node without a node that it owns. -/
def without (id : NodeId) : Node → Node := keepOwned fun y => y != id

variable (n : Node) (f : NodeId → NodeId) (keep : NodeId → Bool)

@[simp] theorem parent_mapOwned : (n.mapOwned f).parent = n.parent := rfl

@[simp] theorem parent_keepOwned : (n.keepOwned keep).parent = n.parent := rfl

@[simp] theorem kind_mapOwned : (n.mapOwned f).kind = n.kind := Content.kind_map ..

@[simp] theorem kind_keepOwned : (n.keepOwned keep).kind = n.kind := Content.kind_filter ..

theorem slots_mapOwned : (n.mapOwned f).slots = n.slots.mapContent f :=
  (Content.mapContent_allSlots ..).symm

theorem slots_keepOwned : (n.keepOwned keep).slots = n.slots.filter fun s => keep s.content := by
  simp [slots, keepOwned, Content.allSlots, Content.slots_filter, Content.attributeSlots,
    List.filter_map, Function.comp_def]

theorem owned_mapOwned : (n.mapOwned f).owned = n.owned.map f := by
  simp [owned, mapOwned, Content.structural_map]

theorem owned_keepOwned : (n.keepOwned keep).owned = n.owned.filter keep := by
  simp [owned, keepOwned, Content.structural_filter, List.filter_map, Function.comp_def]

theorem mapOwned_mapOwned (g : NodeId → NodeId) :
    (n.mapOwned f).mapOwned g = n.mapOwned fun x => g (f x) := by
  simp [mapOwned, Content.map_map, Function.comp_def]

variable {n} in
theorem mapOwned_congr {f g : NodeId → NodeId} (h : ∀ x ∈ n.owned, f x = g x) :
    n.mapOwned f = n.mapOwned g := by
  have hcontent : n.content.map f = n.content.map g :=
    Content.map_congr fun x hx => h x (List.mem_append_left _ hx)
  have hattributes : (n.attributes.map fun e => (e.1, f e.2)) = n.attributes.map fun e => (e.1, g e.2) :=
    List.map_congr_left fun e he => by rw [h e.2 (List.mem_append_right _ (List.mem_map_of_mem he))]
  rw [mapOwned, mapOwned, hcontent, hattributes]

end Node

/-! ## Counting -/

theorem count_filter_ne {α : Type} [DecidableEq α] (xs : List α) (y z : α) :
    (xs.filter (· != y)).count z = if z = y then 0 else xs.count z := by
  split_ifs with h
  · subst h
    exact List.count_eq_zero.2 (by simp)
  · exact List.count_filter (by simpa using h)

theorem count_map_rename {α : Type} [DecidableEq α] {xs : List α} {x y : α} (hx : x ∉ xs)
    (hne : x ≠ y) (z : α) :
    (xs.map fun w => if w = y then x else w).count z =
      if z = y then 0 else if z = x then xs.count y else xs.count z := by
  induction xs with
  | nil => simp
  | cons w xs ih =>
    obtain ⟨hw, hx⟩ := not_or.1 (List.mem_cons.not.1 hx)
    rw [List.map_cons, List.count_cons, ih hx, List.count_cons, List.count_cons]
    grind

theorem Node.count_without (n : Node) (id c : NodeId) :
    (n.without id).owned.count c = if c = id then 0 else n.owned.count c := by
  rw [without, owned_keepOwned, count_filter_ne]

theorem Node.count_rename {n : Node} {id x : NodeId} (hx : x ∉ n.owned) (hne : x ≠ id)
    (c : NodeId) :
    (n.rename id x).owned.count c =
      if c = id then 0 else if c = x then n.owned.count id else n.owned.count c := by
  rw [rename, owned_mapOwned, count_map_rename hx hne]

/-! ## Writing lists -/

section
variable {α : Type} [DecidableEq α]

theorem filter_ne_self {xs : List α} {y : α} (h : y ∉ xs) : xs.filter (· != y) = xs :=
  List.filter_eq_self.2 fun z hz => by
    simp only [bne_iff_ne, ne_eq]
    rintro rfl
    exact h hz

theorem map_rename_self {xs : List α} {y : α} (h : y ∉ xs) (x : α) :
    (xs.map fun z => if z = y then x else z) = xs := by
  refine (List.map_congr_left fun z hz => if_neg ?_).trans (List.map_id xs)
  rintro rfl
  exact h hz

/-- An item that a list has once is found, and writing there replaces it or takes
    it out. -/
theorem writeItem?_idxOf {xs : List α} {y : α} (h : xs.count y = 1) :
    ∃ i, xs.idxOf? y = some i ∧ writeItem? xs i none = some (xs.filter (· != y)) ∧
      ∀ x, writeItem? xs i (some x) = some (xs.map fun z => if z = y then x else z) := by
  induction xs with
  | nil => simp at h
  | cons z xs ih =>
    by_cases e : z = y
    · subst e
      have hz : z ∉ xs := List.count_eq_zero.1 (by simpa using h)
      refine ⟨0, by simp [List.idxOf?_cons], ?_, fun x => ?_⟩
      · simp [writeItem?, filter_ne_self hz]
      · simp [writeItem?, map_rename_self hz]
    · obtain ⟨i, hi, hn, hs⟩ := ih (by simpa [List.count_cons, e] using h)
      refine ⟨i + 1, by simp [List.idxOf?_cons, e, hi], ?_, fun x => ?_⟩
      · simp only [writeItem?] at hn ⊢
        split at hn <;> simp_all
      · have := hs x
        simp only [writeItem?] at this ⊢
        split at this <;> simp_all

omit [DecidableEq α] in
theorem writeValue?_cons_same {d : Symbol × α} {key : Symbol} (as : List (Symbol × α))
    (h : d.1.sameKey key = true) (x : Option α) :
    writeValue? (d :: as) key x = some ((x.map fun y => (d.1, y)).toList ++ as) := by
  cases x <;> simp [writeValue?, List.findIdx?_cons, h]

omit [DecidableEq α] in
theorem writeValue?_cons_other {d : Symbol × α} {key : Symbol} (as : List (Symbol × α))
    (h : d.1.sameKey key = false) (x : Option α) :
    writeValue? (d :: as) key x = (writeValue? as key x).map (d :: ·) := by
  cases x <;> cases hi : as.findIdx? fun e => e.1.sameKey key <;>
    simp [writeValue?, List.findIdx?_cons, h, hi]

/-- An attribute value that occurs once is found, and writing its entry replaces
    it or takes it out. -/
theorem writeValue?_find? {as : List (Symbol × α)} {y : α} (h : (as.map (·.2)).count y = 1)
    (hk : Keyed as) :
    ∃ e ∈ as, e.2 = y ∧ as.find? (·.2 == y) = some e ∧
      writeValue? as e.1 none = some (as.filter (·.2 != y)) ∧
      ∀ x, writeValue? as e.1 (some x) =
        some (as.map fun d => (d.1, if d.2 = y then x else d.2)) := by
  induction as with
  | nil => simp at h
  | cons d as ih =>
    obtain ⟨hd, hk⟩ := List.pairwise_cons.1 hk
    by_cases e : d.2 = y
    · have hy : ∀ z ∈ as, z.2 ≠ y := fun z hz he =>
        List.count_eq_zero.1 (by simpa [e] using h) (List.mem_map.2 ⟨z, hz, he⟩)
      refine ⟨d, List.mem_cons_self .., e, by simp [e], ?_, ?_⟩
      · have hf : as.filter (·.2 != y) = as :=
          List.filter_eq_self.2 fun z hz => by simpa using hy z hz
        simp [writeValue?_cons_same, e, hf]
      · intro x
        have hm : (as.map fun z => (z.1, if z.2 = y then x else z.2)) = as :=
          (List.map_congr_left fun z hz => by rw [if_neg (hy z hz)]; rfl).trans (List.map_id as)
        simp [writeValue?_cons_same, e, hm]
    · obtain ⟨f, hf, hy, hi, hn, hs⟩ := ih (by simpa [List.count_cons, e] using h) hk
      refine ⟨f, List.mem_cons_of_mem _ hf, hy, by simp [e, hi], ?_, ?_⟩
      · simp [writeValue?_cons_other, hd f hf, hn, e]
      · intro x
        simp [writeValue?_cons_other, hd f hf, hs, e]

end

/-! ## Writing contents and nodes -/

theorem optionFilter_ne_self {α : Type} [DecidableEq α] {o : Option α} {y : α} (h : o ≠ some y) :
    o.filter (· != y) = o := by
  cases o with
  | none => rfl
  | some z => simpa [Option.filter] using fun e => h (congrArg some e)

theorem optionMap_rename_self {α : Type} [DecidableEq α] {o : Option α} {y : α} (h : o ≠ some y)
    (x : α) : (o.map fun z => if z = y then x else z) = o := by
  cases o with
  | none => rfl
  | some z => simpa using fun e => absurd (congrArg some e) h

theorem optionFilter_ne_some {α : Type} [DecidableEq α] (y : α) :
    (some y).filter (· != y) = none := by
  simp [Option.filter]

theorem count_toList {α : Type} [DecidableEq α] (o : Option α) (y : α) :
    o.toList.count y = if o = some y then 1 else 0 := by
  cases o <;> simp [List.count_cons]

namespace Content
variable {c : Content NodeId} {id : NodeId} {isVar : Bool}

theorem filter_ne_self (h : id ∉ c.structural) : c.filter (· != id) = c := by
  cases c <;>
    simp_all [filter, structural, children, head?, bound, body?, OpenMath.filter_ne_self,
      optionFilter_ne_self]

theorem map_rename_self (h : id ∉ c.structural) (x : NodeId) :
    (c.map fun y => if y = id then x else y) = c := by
  cases c <;>
    simp_all [map, structural, children, head?, bound, body?, OpenMath.map_rename_self,
      optionMap_rename_self]

theorem location?_eq_none (h : id ∉ c.structural) : c.location? id isVar = none := by
  simp only [structural, List.mem_append, Option.mem_toList, not_or] at h
  simp [location?, List.idxOf?_eq_none_iff.2 h.1.1.1, List.idxOf?_eq_none_iff.2 h.1.2,
    Option.mem_def.not.1 h.1.1.2, Option.mem_def.not.1 h.2]

/-- A location at which a content has a part that occurs once. -/
structure Sits (c : Content NodeId) (id : NodeId) (l : Location) : Prop where
  structural : ∀ key, l ≠ .attr key
  mem : ⟨l.role, id⟩ ∈ c.slots
  empty : c.write? l none = some (c.filter (· != id))
  fill : ∀ x, c.write? l (some x) = some (c.map fun y => if y = id then x else y)

theorem location?_child (h : c.children.count id = 1) (hd : c.head? ≠ some id) :
    ∃ l, c.location? id isVar = some l ∧ c.Sits id l := by
  obtain ⟨i, hi, hn, hx⟩ := writeItem?_idxOf h
  have hm : id ∈ c.children := List.count_pos_iff.1 (by omega)
  refine ⟨.child i, by simp [location?, hi], by simp, ?_, ?_, ?_⟩
  · simp [slots, placed, Location.role, hm]
  · cases c <;> simp_all [children, head?, write?, filter, optionFilter_ne_self]
  · cases c <;> simp_all [children, head?, write?, map, optionMap_rename_self]

theorem location?_bound (h : c.bound.count id = 1) (hc : id ∉ c.children)
    (hd : c.head? ≠ some id) (hb : c.body? ≠ some id) :
    ∃ l, c.location? id true = some l ∧ c.Sits id l := by
  obtain ⟨i, hi, hn, hx⟩ := writeItem?_idxOf h
  have hm : id ∈ c.bound := List.count_pos_iff.1 (by omega)
  refine ⟨.bound i, by simp [location?, hi, List.idxOf?_eq_none_iff.2 hc], by simp, ?_, ?_, ?_⟩
  · simp [slots, placed, Location.role, hm]
  · cases c <;> simp_all [bound, body?, head?, write?, filter, optionFilter_ne_self]
  · cases c <;> simp_all [bound, body?, head?, write?, map, optionMap_rename_self]

theorem location?_head (h : c.head? = some id) (hc : id ∉ c.children) (hv : id ∉ c.bound)
    (hb : c.body? ≠ some id) : ∃ l, c.location? id isVar = some l ∧ c.Sits id l := by
  refine ⟨.head, ?_, by simp, ?_, ?_, ?_⟩
  · simp [location?, List.idxOf?_eq_none_iff.2 hc, List.idxOf?_eq_none_iff.2 hv, h]
  · simp [slots, placed, Location.role, h]
  · cases c <;>
      simp_all [children, bound, body?, head?, write?, filter, optionFilter_ne_self,
        OpenMath.filter_ne_self, optionFilter_ne_some]
  · cases c <;>
      simp_all [children, bound, body?, head?, write?, map, optionMap_rename_self,
        OpenMath.map_rename_self]

theorem location?_body (h : c.body? = some id) (hc : id ∉ c.children) (hv : id ∉ c.bound)
    (hd : c.head? ≠ some id) : ∃ l, c.location? id isVar = some l ∧ c.Sits id l := by
  refine ⟨.body, ?_, by simp, ?_, ?_, ?_⟩
  · simp [location?, List.idxOf?_eq_none_iff.2 hc, List.idxOf?_eq_none_iff.2 hv, h, hd]
  · simp [slots, placed, Location.role, h]
  · cases c <;>
      simp_all [bound, body?, head?, write?, filter, optionFilter_ne_self,
        OpenMath.filter_ne_self, optionFilter_ne_some]
  · cases c <;>
      simp_all [bound, body?, head?, write?, map, optionMap_rename_self,
        OpenMath.map_rename_self]

/-- A part that occurs once is found. -/
theorem location?_spec (h : c.structural.count id = 1) (hv : id ∈ c.bound → isVar = true) :
    ∃ l, c.location? id isVar = some l ∧ c.Sits id l := by
  simp only [structural, List.count_append, count_toList] at h
  by_cases hd : c.head? = some id <;> by_cases hb : c.body? = some id <;>
    simp only [hd, hb, if_true, if_false] at h
  · omega
  · exact location?_head hd (List.count_eq_zero.1 (by omega)) (List.count_eq_zero.1 (by omega)) hb
  · exact location?_body hb (List.count_eq_zero.1 (by omega)) (List.count_eq_zero.1 (by omega)) hd
  · by_cases hc : id ∈ c.children
    · have := List.count_pos_iff.2 hc
      exact location?_child (by omega) hd
    · have := List.count_eq_zero.2 hc
      have hv := hv (List.count_pos_iff.1 (by omega))
      exact hv ▸ location?_bound (by omega) hc hd hb

end Content

namespace Node

/-- No two attributes have keys that agree. -/
def Keyed (n : Node) : Prop := OpenMath.Keyed n.attributes

theorem keyed_mapOwned {n : Node} (f : NodeId → NodeId) : (n.mapOwned f).Keyed ↔ n.Keyed :=
  keyed_map f

theorem Keyed.keepOwned {n : Node} (h : n.Keyed) (keep : NodeId → Bool) :
    (n.keepOwned keep).Keyed :=
  List.Pairwise.filter _ h

/-- A location at which a node has another one, and whose content writing
    changes. -/
structure Sits (n : Node) (id : NodeId) (l : Location) : Prop where
  mem : ⟨l.role, id⟩ ∈ n.slots
  empty : n.write? l none = some (n.without id)
  fill : ∀ x, n.write? l (some x) = some (n.rename id x)

theorem write?_part {n : Node} {l : Location} (h : ∀ key, l ≠ .attr key) (x : Option NodeId) :
    n.write? l x = (n.content.write? l x).map fun content => { n with content } := by
  cases l with
  | attr key => exact absurd rfl (h key)
  | _ => rfl

/-- A node that is owned once is found in its slot. -/
theorem location?_spec {n : Node} {id : NodeId} {isVar : Bool} (h : n.owned.count id = 1)
    (hk : n.Keyed) (hv : id ∈ n.content.bound → isVar = true) :
    ∃ l, n.location? id isVar = some l ∧ n.Sits id l := by
  rw [owned, List.count_append] at h
  by_cases hc : id ∈ n.content.structural
  · have hp : 0 < n.content.structural.count id := List.count_pos_iff.2 hc
    have ha : id ∉ n.attributes.map (·.2) := List.count_eq_zero.1 (by omega)
    obtain ⟨l, hl, hs⟩ := Content.location?_spec (by omega) hv
    refine ⟨l, by simp [location?, hl], ?_, ?_, ?_⟩
    · exact List.mem_append_left _ hs.mem
    · have hf : n.attributes.filter (·.2 != id) = n.attributes :=
        List.filter_eq_self.2 fun e he => by
          simpa using fun h : e.2 = id => ha (List.mem_map.2 ⟨e, he, h⟩)
      rw [write?_part hs.structural, hs.empty, Option.map_some, without, keepOwned, hf]
    · intro x
      have hm : (n.attributes.map fun e => (e.1, if e.2 = id then x else e.2)) = n.attributes := by
        refine (List.map_congr_left fun e he => ?_).trans (List.map_id _)
        rw [if_neg fun h : e.2 = id => ha (List.mem_map.2 ⟨e, he, h⟩)]
        rfl
      rw [write?_part hs.structural, hs.fill, Option.map_some, rename, mapOwned, hm]
  · have ha := List.count_eq_zero.2 hc
    obtain ⟨e, he, rfl, hf, hn, hx⟩ := writeValue?_find? (y := id) (by omega) hk
    refine ⟨.attr e.1, ?_, ?_, ?_, ?_⟩
    · simp [location?, Content.location?_eq_none hc, hf]
    · exact List.mem_append_right _ (List.mem_map.2 ⟨e, he, rfl⟩)
    · simp [write?, hn, without, keepOwned, Content.filter_ne_self hc]
    · intro x
      simp [write?, hx, rename, mapOwned, Content.map_rename_self hc]

end Node

end OpenMath
