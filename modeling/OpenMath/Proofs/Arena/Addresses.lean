/-
  Addresses: the ways from a node down to those inside it.

  An address is found by climbing from a node, where each owner is asked for the
  slot that the node is in, and it is followed by descending, where each node is
  asked for what is in a slot.  The two undo each other: what is in a slot is in
  no other slot of its owner, so that the slot that was asked for is the one that
  is found, but for the uri in the key of an attribute.

  * `Location.Agrees`: the same slot, keys compared by name and dictionary;
  * `Node.at?_location?`, `Node.agrees_of_at?`: the slot that is found is one in
    which the node is, and there is only one;
  * `Acyclic.index?_climb`, `Wf.climb_of_index?`: climbing and descending;
  * `Reachable.index_address`: addresses in the arenas that come about.
-/
import Mathlib
import OpenMath.Proofs.Arena.Commands

namespace OpenMath

/-- The same slot: the keys of attributes count by name and dictionary alone. -/
def Location.Agrees : Location → Location → Prop
  | .attr k, .attr k' => k.sameKey k' = true
  | l, l' => l = l'

/-! ## The slots of a node -/

theorem getElem?_of_idxOf? {α : Type} [DecidableEq α] {xs : List α} {x : α} {i : Nat}
    (h : xs.idxOf? x = some i) : xs[i]? = some x := by
  rw [List.idxOf?, List.findIdx?_eq_some_iff_getElem] at h
  obtain ⟨hi, he, -⟩ := h
  rw [List.getElem?_eq_getElem hi, eq_of_beq he]

namespace Node

variable {n : Node} {x : NodeId} {l l' : Location}

/-- What is at a location is in a slot with its role; the slot of an attribute
    has the key that the node was given. -/
theorem mem_slots_of_at? (h : n.at? l = some x) :
    ((∀ key, l ≠ .attr key) ∧ ⟨l.role, x⟩ ∈ n.slots) ∨
      ∃ key e, l = .attr key ∧ e ∈ n.attributes ∧ e.2 = x ∧ e.1.sameKey key = true := by
  have hpart {r : Role} (hs : ⟨r, x⟩ ∈ n.content.slots) : ⟨r, x⟩ ∈ n.slots :=
    List.mem_append_left _ hs
  cases l with
  | child i =>
    have hm : x ∈ n.content.children := List.mem_of_getElem? h
    exact .inl ⟨by simp, hpart (by simp [Content.slots, Content.placed, Location.role, hm])⟩
  | bound i =>
    have hm : x ∈ n.content.bound := List.mem_of_getElem? h
    exact .inl ⟨by simp, hpart (by simp [Content.slots, Content.placed, Location.role, hm])⟩
  | head =>
    have hm : n.content.head? = some x := h
    exact .inl ⟨by simp, hpart (by simp [Content.slots, Content.placed, Location.role, hm])⟩
  | body =>
    have hm : n.content.body? = some x := h
    exact .inl ⟨by simp, hpart (by simp [Content.slots, Content.placed, Location.role, hm])⟩
  | attr key =>
    obtain ⟨e, he, rfl⟩ := Option.map_eq_some_iff.1 h
    have hk : e.1.sameKey key = true := by simpa using List.find?_some he
    exact .inr ⟨key, e, rfl, List.mem_of_find?_eq_some he, rfl, hk⟩

theorem mem_slots_of_attribute {e : Symbol × NodeId} (h : e ∈ n.attributes) :
    ⟨.attr e.1, e.2⟩ ∈ n.slots :=
  List.mem_append_right _ (List.mem_map.2 ⟨e, h, rfl⟩)

theorem index_inj {xs : List NodeId} (hn : xs.Nodup) {i j : Nat} (hi : xs[i]? = some x)
    (hj : xs[j]? = some x) : i = j :=
  (List.getElem?_inj (List.getElem?_eq_some_iff.1 hi).1 hn).1 (hi.trans hj.symm)

/-- A node is in one slot of its owner only. -/
theorem agrees_of_at? (hn : n.owned.Nodup) (h : n.at? l = some x) (h' : n.at? l' = some x) :
    l.Agrees l' := by
  have hrole {r r' : Role} (hr : ⟨r, x⟩ ∈ n.slots) (hr' : ⟨r', x⟩ ∈ n.slots) : r = r' := by
    rw [← contents_slots, Slots.contents] at hn
    exact congrArg Slot.role (List.inj_on_of_nodup_map hn hr hr' rfl)
  have hs : n.content.structural.Nodup := (List.nodup_append.1 hn).1
  simp only [Content.structural, List.nodup_append] at hs
  obtain ⟨⟨⟨hc, -, -⟩, hb, -⟩, -, -⟩ := hs
  rcases mem_slots_of_at? h with ⟨hl, hr⟩ | ⟨k, e, rfl, he, hx, hk⟩ <;>
    rcases mem_slots_of_at? h' with ⟨hl', hr'⟩ | ⟨k', e', rfl, he', hx', hk'⟩
  · have hrl := hrole hr hr'
    cases l <;> cases l' <;> simp only [Location.role, reduceCtorEq] at hrl
    · exact congrArg _ (index_inj hc h h')
    · exact congrArg _ (index_inj hb h h')
    · rfl
    · rfl
    · exact absurd rfl (hl _)
  · have hrl := hrole hr (hx' ▸ mem_slots_of_attribute he')
    cases l <;> first | exact absurd rfl (hl _) | cases hrl
  · have hrl := hrole (hx ▸ mem_slots_of_attribute he) hr'
    cases l' <;> first | exact absurd rfl (hl' _) | cases hrl
  · have hrl := hrole (hx ▸ mem_slots_of_attribute he) (hx' ▸ mem_slots_of_attribute he')
    rw [← Role.attr.inj hrl] at hk'
    exact Symbol.sameKey_trans (Symbol.sameKey_comm .. ▸ hk) hk'

/-- The slot that a part is found in is one in which it is. -/
theorem at?_of_content {isVar : Bool} (h : n.content.location? x isVar = some l) :
    n.at? l = some x := by
  simp only [Content.location?, Option.orElse_eq_some, Option.map_eq_some_iff] at h
  rcases h with ⟨i, hi, rfl⟩ | ⟨-, h | ⟨-, h | ⟨-, h⟩⟩⟩
  · exact getElem?_of_idxOf? hi
  · split at h
    · obtain ⟨i, hi, rfl⟩ := Option.map_eq_some_iff.1 h
      exact getElem?_of_idxOf? hi
    · cases h
  · split at h
    · next hd => cases h; exact hd
    · cases h
  · split at h
    · next hb => cases h; exact hb
    · cases h

/-- The slot that a node is found in is one in which it is. -/
theorem at?_location? {isVar : Bool} (hk : n.Keyed) (h : n.location? x isVar = some l) :
    n.at? l = some x := by
  rcases (Option.orElse_eq_some ..).1 h with hc | ⟨-, ha⟩
  · exact at?_of_content hc
  · obtain ⟨e, he, rfl⟩ := Option.map_eq_some_iff.1 ha
    have hx : e.2 = x := by simpa using List.find?_some he
    have hm : e ∈ n.attributes := List.mem_of_find?_eq_some he
    obtain ⟨e', he'⟩ : ∃ e', (n.attributes.find? fun d => d.1.sameKey e.1) = some e' :=
      Option.isSome_iff_exists.1 (List.find?_isSome.2 ⟨e, hm, Symbol.sameKey_refl e.1⟩)
    -- no other key agrees with the one that was found
    have := hk.eq_of_sameKey (List.mem_of_find?_eq_some he') hm (by simpa using List.find?_some he')
    simp [at?, he', this, hx]

end Node

/-! ## Climbing and descending -/

namespace Arena

variable {a : Arena} {b c d p x : NodeId} {l : Location} {path : List Location}

theorem index?_cons (a : Arena) (id : NodeId) (l : Location) (path : List Location) :
    a.index? id (l :: path) = (a.childAt? id l).bind fun x => a.index? x path := rfl

theorem index?_append (a : Arena) (id : NodeId) (path path' : List Location) :
    a.index? id (path ++ path') = (a.index? id path).bind fun x => a.index? x path' :=
  List.foldlM_append ..

namespace Wf

theorem childAt?_locationIn? (w : a.Wf) (h : a.parent? c = some p) :
    ∃ l, a.locationIn? p c = some l ∧ a.childAt? p l = some c := by
  obtain ⟨n, l, hn, hl, -⟩ := w.locationIn?_spec h
  have hl' : n.location? c (a.isVar c) = some l := by simpa [locationIn?, hn] using hl
  exact ⟨l, hl, by simp [childAt?, hn, Node.at?_location? (w.keyed hn) hl']⟩

theorem agrees_of_childAt? (w : a.Wf) (h : a.childAt? p l = some c) :
    a.parent? c = some p ∧ ∃ l', a.locationIn? p c = some l' ∧ l.Agrees l' := by
  obtain ⟨n, hn, hat⟩ := Option.bind_eq_some_iff.1 h
  have hc : c ∈ n.owned := by
    rcases Node.mem_slots_of_at? hat with ⟨-, hs⟩ | ⟨-, e, -, he, rfl, -⟩
    · exact Node.mem_owned_of_slot hs
    · exact Node.mem_owned_of_slot (Node.mem_slots_of_attribute he)
  have hp := w.parent?_of_mem hn hc
  obtain ⟨l', hl', hat'⟩ := w.childAt?_locationIn? hp
  have hat' : n.at? l' = some c := by simpa [childAt?, hn] using hat'
  exact ⟨hp, l', hl', Node.agrees_of_at? (w.owned_nodup hn) hat hat'⟩

theorem climb_step {stop : Option NodeId} (hs : stop ≠ some c) (hp : a.parent? c = some p)
    (hl : a.locationIn? p c = some l) :
    a.climb stop path c = a.climb stop (l :: path) p := by
  rw [climb, if_neg hs, hp]
  simp only [hl]

/-- Descending from a node by what was found in climbing up to it leads back. -/
theorem index?_climb (w : a.Wf) (u : a.Under b d) (path : List Location) :
    a.index? b (a.climb (some b) path d) = a.index? d path := by
  induction u generalizing path with
  | refl => rw [climb, if_pos rfl]
  | @step c p hp u ih =>
    by_cases hb : b = c
    · rw [climb, if_pos (congrArg some hb), hb]
    · obtain ⟨l, hl, hat⟩ := w.childAt?_locationIn? hp
      rw [climb_step (by simpa using hb) hp hl, ih, index?_cons, hat, Option.bind_some]

theorem index?_climb_root (w : a.Wf) (d : NodeId) (path : List Location) :
    a.index? (a.root d) (a.climb none path d) = a.index? d path := by
  induction d using w.acyclic.induction generalizing path with
  | _ d ih =>
    rw [climb, if_neg (by simp), root]
    split
    · next p hp =>
      obtain ⟨l, hl, hat⟩ := w.childAt?_locationIn? hp
      simp only [hp, hl]
      rw [ih p hp, index?_cons, hat, Option.bind_some]
    · next hp => simp only [hp]

/-- Climbing from a node to one from which a path leads down to it finds that
    path. -/
theorem climb_of_index? (w : a.Wf) {way : List Location} (h : a.index? b way = some d) :
    a.Under b d ∧ ∀ path, ∃ way', a.climb (some b) path d = way' ++ path ∧
      List.Forall₂ Location.Agrees way way' := by
  induction way using List.reverseRecOn generalizing d with
  | nil =>
    cases h
    exact ⟨.refl, fun path => ⟨[], by rw [climb, if_pos rfl, List.nil_append], .nil⟩⟩
  | append_singleton way l ih =>
    rw [index?_append] at h
    obtain ⟨p, hway, hl⟩ := Option.bind_eq_some_iff.1 h
    obtain ⟨hp, l', hl', hag⟩ := w.agrees_of_childAt? (by simpa [index?_cons, index?] using hl)
    obtain ⟨u, hclimb⟩ := ih hway
    refine ⟨.step hp u, fun path => ?_⟩
    obtain ⟨way', hway', hagrees⟩ := hclimb (l' :: path)
    -- the node is not where the climb stops, as its parent is below that
    have hb : some b ≠ some d := fun e => w.acyclic.not_under hp (Option.some.inj e ▸ u)
    refine ⟨way' ++ [l'], ?_, List.rel_append hagrees (.cons hag .nil)⟩
    rw [climb_step hb hp hl', hway', List.append_assoc, List.singleton_append]

end Wf

/-! ## Addresses -/

theorem address_of_ancestor (h : a.isAncestorOrSelf x d = true) :
    a.address d (some x) = a.climb (some x) [] d :=
  congrArg (a.climb · [] d) (Option.filter_some_pos h)

/-- Addresses and the descent that follows them undo each other: the address of a
    node from one that it is inside of, or from its root, leads back to it, and a
    path that leads from one node to another is the address of the second from
    the first, but for the uris in keys of attributes.  From a node that it is not
    inside of, the address of a node is that from its root. -/
theorem Reachable.index_address (h : a.Reachable) :
    (∀ d x, a.isAncestorOrSelf x d = true → a.index? x (a.address d (some x)) = some d) ∧
    (∀ d, a.index? (a.root d) (a.address d none) = some d) ∧
    (∀ x path d, a.index? x path = some d → a.isAncestorOrSelf x d = true ∧
      List.Forall₂ Location.Agrees path (a.address d (some x))) ∧
    ∀ d x, a.isAncestorOrSelf x d = false → a.address d (some x) = a.address d none := by
  have w := h.wf
  refine ⟨fun d x hx => ?_, fun d => w.index?_climb_root d [], fun x path d hi => ?_,
    fun d x hx => ?_⟩
  · rw [address_of_ancestor hx]
    exact w.index?_climb (w.acyclic.isAncestorOrSelf_iff.1 hx) []
  · obtain ⟨u, hclimb⟩ := w.climb_of_index? hi
    have hx := w.acyclic.isAncestorOrSelf_iff.2 u
    obtain ⟨path', hpath, hagrees⟩ := hclimb []
    rw [address_of_ancestor hx, hpath, List.append_nil]
    exact ⟨hx, hagrees⟩
  · exact congrArg (a.climb · [] d) (Option.filter_some_neg (by simp [hx]))

/-- A path through an attribute is the address of the value, even if its key has
    another uri. -/
theorem index_address_annotated :
    ∃ (a : Arena) (key : Symbol), a.Reachable ∧ a.address 1 (some 0) ≠ [.attr key] ∧
      a.isAncestorOrSelf 0 1 = true ∧
      List.Forall₂ Location.Agrees [.attr key] (a.address 1 (some 0)) := by
  exact ⟨annotated, typeKey (some "u"), reachable_annotated, by cbv; decide,
    reachable_annotated.index_address.2.2.1 0 [.attr (typeKey (some "u"))] 1 (by cbv)⟩

end Arena

end OpenMath
