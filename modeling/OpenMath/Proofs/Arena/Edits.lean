/-
  Edits keep the links in step.

  Each edit is described by what it does to the node at every place, and
  preserves `Wf`.  Edits that are refused or have nothing to do leave the arena
  as it is.

  * `cut`, `swap`, `hang`: the node at a place after detaching a node, after
    putting a detached node into the slot of another, and after adding one as an
    attribute;
  * `Wf.remove`, `Wf.replaceWith_ok`, `Wf.setAttribute_ok`: the edits; with
    `Wf.replaceWith_kept` and `Wf.setAttribute_kept` where they are refused.
-/
import OpenMath.Proofs.Arena.Links

namespace OpenMath.Arena

variable {a b : Arena} {id other p q x y : NodeId} {n : Node}

/-! ## Detaching -/

/-- The node at `x` after `id` is detached from its parent `p`. -/
def cut (p : Option NodeId) (id x : NodeId) (n : Node) : Node :=
  if p = some x then n.without id else if x = id then { n with parent := none } else n

variable {o : Option NodeId}

theorem kind_cut (o : Option NodeId) (id x : NodeId) (n : Node) : (cut o id x n).kind = n.kind := by
  unfold cut Node.without
  split_ifs
  · exact Node.kind_keepOwned ..
  · rfl
  · rfl

theorem count_cut (o : Option NodeId) (id x : NodeId) (n : Node) (c : NodeId) :
    (cut o id x n).owned.count c = if o = some x ∧ c = id then 0 else n.owned.count c := by
  unfold cut
  by_cases h : o = some x
  · simp [h, Node.count_without]
  · rw [if_neg h, if_neg fun h' : o = some x ∧ c = id => h h'.1]
    split_ifs <;> rfl

theorem mem_slots_cut {s : Slot NodeId} (h : s ∈ (cut o id x n).slots) : s ∈ n.slots := by
  unfold cut at h
  split_ifs at h
  · rw [Node.without, Node.slots_keepOwned] at h
    exact (List.mem_filter.1 h).1
  all_goals exact h

theorem parent?_cut (h : Remapped (cut o id) a b) (hne : o ≠ some id) :
    b.parent? x = if x = id then none else a.parent? x := by
  rw [parent?, h x]
  cases hx : a.node? x with
  | none => simp [parent?, hx]
  | some n =>
    simp only [parent?, cut, hx, Option.map_some, Option.bind_some]
    split_ifs with h1 h2 <;> simp_all [Node.without]

theorem cut_root (hp : a.parent? id = none) (x : NodeId) :
    (a.node? x).map (cut none id x) = a.node? x := by
  cases hn : a.node? x with
  | none => rfl
  | some n =>
    by_cases hx : x = id
    · subst hx
      have hq : n.parent = none := by simpa [parent?, hn] using hp
      obtain ⟨c, as, q⟩ := n
      cases hq
      simp [cut]
    · simp [cut, hx]

/-- Detaching a node keeps the links in step. -/
theorem Wf.cut (w : a.Wf) (h : Remapped (cut (a.parent? id) id) a b) : b.Wf := by
  have hpar (x : NodeId) := parent?_cut (x := x) h fun hp => w.acyclic.parent?_ne hp rfl
  have hle (c q : NodeId) (hq : b.parent? c = some q) : a.parent? c = some q := by
    rw [hpar] at hq
    split at hq
    · cases hq
    · exact hq
  refine w.remap h (kind_cut _ id) ?_ (fun hq => w.live (hle _ _ hq)) (w.acyclic.mono hle)
    (fun _ s hs => .inl (mem_slots_cut hs)) ?_
  · intro q n hn c
    rw [count_cut, w.count hn, hpar]
    by_cases hc : c = id
    · subst hc; simp
    · simp [hc]
  · intro q n hn
    have hk := w.keyed hn
    unfold Arena.cut
    split_ifs
    · exact hk.keepOwned _
    · exact hk
    · exact hk

theorem writeSlot?_eq {l : Location} {v : Option NodeId} {n' : Node} (hn : a.node? p = some n)
    (hw : n.write? l v = some n') : a.writeSlot? p l v = some (a.put p n') := by
  simp [writeSlot?, hn, hw]

theorem remove_root (hp : a.parent? id = none) : a.remove id = (false, a) := by
  simp [remove, hp]

/-- An attached node is detached. -/
theorem Wf.remove_attached (w : a.Wf) (hp : a.parent? id = some p) :
    ∃ b, a.remove id = (true, b) ∧ Remapped (Arena.cut (some p) id) a b ∧ b.next = a.next := by
  obtain ⟨n, l, hn, hl, hs⟩ := w.locationIn?_spec hp
  have hw := writeSlot?_eq hn hs.empty
  refine ⟨(a.put p (n.without id)).setParent id none, by simp [remove, hp, hl, hw], ?_, by simp⟩
  intro x
  have hne : id ≠ p := w.acyclic.parent?_ne hp
  rw [node?_setParent, node?_put _ (node?_lt hn), node?_put _ (node?_lt hn)]
  unfold Arena.cut
  by_cases hx : x = p
  · subst hx; simp [hne.symm, hn]
  · by_cases hi : x = id
    · subst hi; simp [hne, Ne.symm hx]
    · simp [hx, hi, Ne.symm hx]

/-- What detaching does, whether the node was attached or not. -/
structure Detached (id : NodeId) (a b : Arena) : Prop where
  wf : b.Wf
  next : b.next = a.next
  node? : Remapped (cut (a.parent? id) id) a b
  parent? : ∀ x, b.parent? x = if x = id then none else a.parent? x

theorem Wf.remove (w : a.Wf) (id : NodeId) : Detached id a (a.remove id).2 := by
  have hr : Remapped (Arena.cut (a.parent? id) id) a (a.remove id).2 ∧
      (a.remove id).2.next = a.next := by
    cases hp : a.parent? id with
    | none =>
      rw [remove_root hp]
      exact ⟨fun x => (cut_root hp x).symm, rfl⟩
    | some p =>
      obtain ⟨b, hb, hr, hn⟩ := w.remove_attached hp
      rw [hb]
      exact ⟨hr, hn⟩
  exact ⟨w.cut hr.1, hr.2, hr.1, fun _ => parent?_cut hr.1 fun hp => w.acyclic.parent?_ne hp rfl⟩

namespace Detached

variable (h : Detached id a b)
include h

theorem parent?_self : b.parent? id = none := by rw [h.parent?, if_pos rfl]

theorem node?_of_root (hp : a.parent? id = none) (x : NodeId) : b.node? x = a.node? x := by
  rw [h.node? x, hp, cut_root hp]

theorem parent?_of_ne (hx : x ≠ id) : b.parent? x = a.parent? x := by rw [h.parent?, if_neg hx]

theorem kind? : b.kind? x = a.kind? x := h.node?.kind? (kind_cut _ id)

theorem contains : b.contains x = a.contains x := h.node?.contains

theorem live : (∃ n, b.node? x = some n) ↔ ∃ n, a.node? x = some n := by
  rw [← contains_iff, ← contains_iff, h.contains]

theorem under (u : b.Under x y) : a.Under x y :=
  u.mono fun c p hp => by
    rw [h.parent?] at hp
    split at hp
    · cases hp
    · exact hp

theorem mem_slots {n : Node} (hn : b.node? x = some n) :
    ∃ m, a.node? x = some m ∧ ∀ s ∈ n.slots, s ∈ m.slots := by
  rw [h.node? x, Option.map_eq_some_iff] at hn
  obtain ⟨m, hm, rfl⟩ := hn
  exact ⟨m, hm, fun s => mem_slots_cut⟩

end Detached

/-! ## Putting a node in the slot of another -/

/-- The node at `x` after the detached node `other` took the slot of `id` at
    `p`. -/
def swap (p id other x : NodeId) (n : Node) : Node :=
  if x = p then n.rename id other
  else if x = other then { n with parent := some p }
  else if x = id then { n with parent := none }
  else n

theorem kind_swap (p id other x : NodeId) (n : Node) : (swap p id other x n).kind = n.kind := by
  unfold swap Node.rename
  split_ifs
  · exact Node.kind_mapOwned ..
  all_goals rfl

theorem count_swap {p id other x : NodeId} {n : Node} (ho : x = p → other ∉ n.owned)
    (hne : other ≠ id) (c : NodeId) :
    (swap p id other x n).owned.count c =
      if x = p ∧ c = id then 0 else if x = p ∧ c = other then n.owned.count id
      else n.owned.count c := by
  unfold swap
  by_cases h : x = p
  · simp [h, Node.count_rename (ho h) hne]
  · have h' (y z : NodeId) : ¬ (x = p ∧ y = z) := fun e => h e.1
    rw [if_neg h, if_neg (h' c id), if_neg (h' c other)]
    split_ifs <;> rfl

theorem parent?_swap (h : Remapped (swap p id other) a b) (hi : id ≠ p) (ho : other ≠ p)
    (hl : ∃ m, a.node? other = some m) :
    b.parent? x = if x = other then some p else if x = id then none else a.parent? x := by
  obtain ⟨m, hm⟩ := hl
  rw [parent?, h x]
  by_cases hx : x = other
  · simp [hx, swap, ho, hm]
  · cases hn : a.node? x with
    | none => simp [hx, parent?, hn]
    | some n =>
      simp only [swap, hx, parent?, hn, if_false, Option.map_some, Option.bind_some]
      split_ifs <;> simp_all [Node.rename]

/-- Putting a detached node in the slot of another keeps the links in step. -/
theorem Wf.swap (w : a.Wf) (hp : a.parent? id = some p) (ho : a.parent? other = none)
    (hl : ∃ m, a.node? other = some m) (hu : ¬ a.Under other p)
    (hf : ∀ n, a.node? p = some n → ∀ s ∈ n.slots, s.content = id →
      ∀ k, a.kind? other = some k → s.role.admits k = true)
    (h : Remapped (swap p id other) a b) : b.Wf := by
  have hne : other ≠ id := by rintro rfl; simp [hp] at ho
  have hop : other ≠ p := by rintro rfl; exact hu .refl
  have hpar (x : NodeId) := parent?_swap (x := x) h (w.acyclic.parent?_ne hp) hop hl
  have hlink (x q : NodeId) (hq : b.parent? x = some q) :
      a.parent? x = some q ∨ q = p ∧ ¬ a.Under x p := by
    rw [hpar] at hq
    split_ifs at hq with h1
    · cases hq; exact .inr ⟨rfl, h1 ▸ hu⟩
    · exact .inl hq
  refine w.remap h (kind_swap p id other) ?_ ?_ (acyclic_of_link w.acyclic hlink) ?_ ?_
  · intro q n hn c
    have hfree : q = p → other ∉ n.owned := fun _ hm => by
      simp [w.parent?_of_mem hn hm] at ho
    rw [count_swap hfree hne, w.count hn, w.count hn, hpar]
    by_cases hc : c = other
    · subst hc; simp [hne, hp, ho, eq_comm]
    · by_cases hc' : c = id
      · subst hc'; simp [hc, hp, eq_comm]
      · simp [hc, hc']
  · intro c q hq
    rcases hlink c q hq with hq | ⟨rfl, -⟩
    · exact w.live hq
    · exact w.live hp
  · intro q n hn s hs
    unfold Arena.swap at hs
    split_ifs at hs with h1
    · rw [Node.rename, Node.slots_mapOwned] at hs
      obtain ⟨s, hm, rfl⟩ := List.mem_map.1 hs
      by_cases he : s.content = id
      · right
        simpa [Slot.map, he] using hf n (h1 ▸ hn) s hm he
      · left
        simpa [Slot.map, he] using hm
    all_goals exact .inl hs
  · intro q n hn
    have hk := w.keyed hn
    unfold Arena.swap
    split_ifs
    · exact (Node.keyed_mapOwned _).2 hk
    all_goals exact hk

/-- When a node takes the slot of another one. -/
structure Replaces (a : Arena) (id other p : NodeId) (l : Location) : Prop where
  ne : id ≠ other
  live : ∃ m, a.node? other = some m
  parent : a.parent? id = some p
  location : a.locationIn? p id = some l
  admits : ∀ k, a.kind? other = some k → l.role.admits k = true
  outside : ¬ a.Under other id

theorem Wf.role_eq (w : a.Wf) (hn : a.node? p = some n) {r r' : Role} (hr : ⟨r, x⟩ ∈ n.slots)
    (hr' : ⟨r', x⟩ ∈ n.slots) : r = r' := by
  have hnd := w.owned_nodup hn
  rw [← Node.contents_slots, Slots.contents] at hnd
  exact congrArg Slot.role (List.inj_on_of_nodup_map hnd hr hr' rfl)

theorem admissionFault?_eq_none {r : Role} {k : Kind} :
    admissionFault? r k = none ↔ r.admits k = true := by
  unfold admissionFault?
  split_ifs with h
  · simp [h]
  · cases r <;> simp [h]

/-- The arena after the detached node `other` took the slot of `id` at `p`. -/
theorem remapped_swap {n : Node} (hn : a.node? p = some n) (hi : id ≠ p) (ho : other ≠ p)
    (hne : id ≠ other) :
    Remapped (swap p id other) a
      (((a.put p (n.rename id other)).setParent other (some p)).setParent id none) := by
  intro x
  rw [node?_setParent, node?_setParent, node?_setParent]
  simp only [node?_put _ (node?_lt hn)]
  by_cases hx : x = p
  · subst hx; simp [hi.symm, ho.symm, hn, swap]
  by_cases hx' : x = id
  · subst hx'; cases a.node? x <;> simp [hne, hi, swap]
  by_cases hx'' : x = other
  · subst hx''; cases a.node? x <;> simp [hx', ho, swap]
  · cases a.node? x <;> simp [hx, hx', hx'', swap]

/-- A node that may take the slot of another does so. -/
theorem Wf.replaceWith_ok (w : a.Wf) {l : Location} (h : Replaces a id other p l) :
    ∃ b c, Detached other a b ∧ replaceWith id other a = some (.ok (some id), c) ∧
      Remapped (Arena.swap p id other) b c ∧ c.next = a.next ∧ c.Wf := by
  obtain ⟨m, hm⟩ := h.live
  have hk : a.kind? other = some m.kind := kind?_eq_some.2 ⟨m, hm, rfl⟩
  have hu : a.isAncestorOrSelf other id = false := by
    rw [← Bool.not_eq_true, w.acyclic.isAncestorOrSelf_iff]
    exact h.outside
  have hd := w.remove other
  set b := (a.remove other).2 with hb
  have hp : b.parent? id = some p := by rw [hd.parent?_of_ne h.ne, h.parent]
  obtain ⟨n, l', hn, hl', hs⟩ := hd.wf.locationIn?_spec hp
  have hw := writeSlot?_eq hn (hs.fill other)
  have hop : ¬ a.Under other p := fun u => h.outside (.step h.parent u)
  have hr : Remapped (Arena.swap p id other) b _ := remapped_swap hn (w.acyclic.parent?_ne h.parent)
    (fun e => hop (e ▸ .refl)) h.ne
  refine ⟨b, _, hd, ?_, hr, by simp [hd.next], hd.wf.swap hp hd.parent?_self (hd.live.2 h.live)
    (fun u => hop (hd.under u)) ?_ hr⟩
  · have hf := admissionFault?_eq_none.2 (h.admits _ hk)
    have hl : (b.locationIn? p id).getD l = l' := by rw [hl']; rfl
    refine Edit.bind_ok (Edit.get_run a) |>.trans ?_
    simp only [h.ne, if_false, hk, h.parent, h.location, hf, hu, ← hb]
    rw [if_neg Bool.false_ne_true, Edit.modifyGet_run, hl, install, hw]
  · intro n' hn' s hs' he k hk'
    obtain ⟨m', hm', hsub⟩ := hd.mem_slots hn'
    obtain ⟨m'', l'', hm'', hl'', hsit⟩ := w.locationIn?_spec h.parent
    cases hm'.symm.trans hm''
    cases h.location.symm.trans hl''
    rw [w.role_eq hm' (hsub s hs') (he ▸ hsit.mem)]
    exact h.admits k (hd.kind? ▸ hk')

/-- A node that may not take the slot of another does not, and nothing
    changes. -/
theorem Wf.replaceWith_kept (w : a.Wf) (h : ∀ p l, ¬ Replaces a id other p l) :
    ∃ r, replaceWith id other a = some (r, a) ∧ ∀ x, r ≠ .ok (some x) := by
  rw [replaceWith, Edit.bind_ok (Edit.get_run a)]
  by_cases hne : id = other
  · exact ⟨_, by rw [if_pos hne]; rfl, by simp⟩
  rw [if_neg hne]
  cases hk : a.kind? other with
  | none => exact ⟨_, rfl, by simp⟩
  | some k =>
    cases hp : a.parent? id with
    | none => exact ⟨_, rfl, by simp⟩
    | some p =>
      cases hl : a.locationIn? p id with
      | none => exact ⟨_, by simp only [hl]; rfl, by simp⟩
      | some l =>
        simp only [hl]
        cases hf : admissionFault? l.role k with
        | some f => exact ⟨_, rfl, by simp⟩
        | none =>
          cases hu : a.isAncestorOrSelf other id with
          | true => exact ⟨_, rfl, by simp⟩
          | false =>
            obtain ⟨m, hm, -⟩ := kind?_eq_some.1 hk
            refine absurd ⟨hne, ⟨m, hm⟩, hp, hl, ?_, ?_⟩ (h p l)
            · rintro k' hk'
              cases hk.symm.trans hk'
              exact admissionFault?_eq_none.1 hf
            · rw [← w.acyclic.isAncestorOrSelf_iff, hu]
              exact Bool.false_ne_true

/-! ## Attributes -/

variable {key : Symbol} {value : NodeId}

theorem getAttribute?_eq_some {v : NodeId} (h : a.getAttribute? id key = some v) :
    ∃ n e, a.node? id = some n ∧ e ∈ n.attributes ∧ e.1.sameKey key = true ∧ e.2 = v := by
  simp only [getAttribute?, Option.bind_eq_some_iff, Node.at?, Option.map_eq_some_iff] at h
  obtain ⟨n, hn, e, he, rfl⟩ := h
  exact ⟨n, e, hn, List.mem_of_find?_eq_some he, by simpa using List.find?_some he, rfl⟩

theorem getAttribute?_eq_none (h : a.getAttribute? id key = none) (hn : a.node? id = some n) :
    ∀ e ∈ n.attributes, e.1.sameKey key = false := by
  simpa [getAttribute?, hn, Node.at?] using h

/-- An attribute that is detached leaves no other one with its key. -/
theorem Wf.removeAttribute_spec (w : a.Wf) (id : NodeId) (key : Symbol) :
    ∃ b, a.removeAttribute id key = (a.getAttribute? id key, b) ∧
      (∀ v, a.getAttribute? id key = some v → Detached v a b) ∧
      (a.getAttribute? id key = none → b = a) ∧
      ∀ m, b.node? id = some m → ∀ e ∈ m.attributes, e.1.sameKey key = false := by
  unfold removeAttribute
  cases h : a.getAttribute? id key with
  | none => exact ⟨a, rfl, by simp, fun _ => rfl, fun m hm => getAttribute?_eq_none h hm⟩
  | some v =>
    have hd := w.remove v
    refine ⟨_, rfl, fun u hu => by cases hu; exact hd, by simp, ?_⟩
    intro m hm d hdm
    obtain ⟨n, e, hn, he, hk, rfl⟩ := getAttribute?_eq_some h
    have hp : a.parent? e.2 = some id := w.parent?_of_mem hn <|
      List.mem_append_right _ (List.mem_map.2 ⟨e, he, rfl⟩)
    rw [hd.node? id, hn, hp] at hm
    simp only [Option.map_some, Arena.cut, if_true, Option.some.injEq] at hm
    subst hm
    obtain ⟨hdn, hne⟩ := List.mem_filter.1 hdm
    by_contra hdk
    have hde : d.1.sameKey e.1 = true :=
      Symbol.sameKey_trans (Bool.not_eq_false _ ▸ hdk) (Symbol.sameKey_comm .. ▸ hk)
    simp [Keyed.eq_of_sameKey (w.keyed hn) hdn he hde] at hne

/-- The node at `x` after the detached node `value` became an attribute of
    `id`. -/
def hang (id : NodeId) (key : Symbol) (value x : NodeId) (n : Node) : Node :=
  if x = id then { n with attributes := n.attributes ++ [(key, value)] }
  else if x = value then { n with parent := some id }
  else n

theorem kind_hang (x : NodeId) (n : Node) : (hang id key value x n).kind = n.kind := by
  unfold hang; split_ifs <;> rfl

theorem count_hang (x : NodeId) (n : Node) (c : NodeId) :
    (hang id key value x n).owned.count c =
      n.owned.count c + if x = id ∧ c = value then 1 else 0 := by
  unfold hang
  by_cases h : x = id
  · simp [h, Node.owned, List.count_singleton, Nat.add_assoc, eq_comm (a := c)]
  · rw [if_neg h, if_neg fun h' : x = id ∧ c = value => h h'.1]
    split_ifs <;> rfl

theorem parent?_hang (h : Remapped (hang id key value) a b) (hne : value ≠ id)
    (hl : ∃ m, a.node? value = some m) :
    b.parent? x = if x = value then some id else a.parent? x := by
  obtain ⟨m, hm⟩ := hl
  rw [parent?, h x]
  by_cases hx : x = value
  · simp [hx, hang, hne, hm]
  · cases hn : a.node? x with
    | none => simp [hx, parent?, hn]
    | some n =>
      simp only [hang, hx, parent?, hn, if_false, Option.map_some, Option.bind_some]
      split_ifs <;> rfl

/-- Adding a detached node as an attribute keeps the links in step. -/
theorem Wf.hang (w : a.Wf) (hi : ∃ n, a.node? id = some n) (hv : a.parent? value = none)
    (hl : ∃ m, a.node? value = some m) (hu : ¬ a.Under value id)
    (hk : ∀ n, a.node? id = some n → ∀ e ∈ n.attributes, e.1.sameKey key = false)
    (h : Remapped (hang id key value) a b) : b.Wf := by
  have hne : value ≠ id := by rintro rfl; exact hu .refl
  have hpar (x : NodeId) := parent?_hang (x := x) h hne hl
  have hlink (x q : NodeId) (hq : b.parent? x = some q) :
      a.parent? x = some q ∨ q = id ∧ ¬ a.Under x id := by
    rw [hpar] at hq
    split_ifs at hq with h1
    · cases hq; exact .inr ⟨rfl, h1 ▸ hu⟩
    · exact .inl hq
  refine w.remap h kind_hang ?_ ?_ (acyclic_of_link w.acyclic hlink) ?_ ?_
  · intro q n hn c
    rw [count_hang, w.count hn, hpar]
    by_cases hc : c = value
    · subst hc; simp [hv, eq_comm]
    · simp [hc]
  · intro c q hq
    rcases hlink c q hq with hq | ⟨rfl, -⟩
    · exact w.live hq
    · exact hi
  · intro q n hn s hs
    unfold Arena.hang at hs
    split_ifs at hs
    · simp only [Node.slots, Content.allSlots, Content.attributeSlots, List.map_append,
        ← List.append_assoc] at hs
      rcases List.mem_append.1 hs with hs | hs
      · exact .inl hs
      · right
        cases List.mem_singleton.1 hs
        exact fun _ _ => rfl
    all_goals exact .inl hs
  · intro q n hn
    have hkn := w.keyed hn
    unfold Arena.hang
    split_ifs with h1
    · refine List.pairwise_append.2 ⟨hkn, List.pairwise_singleton .., fun d hd e he => ?_⟩
      cases List.mem_singleton.1 he
      exact hk n (h1 ▸ hn) d hd
    all_goals exact hkn

theorem remapped_attach (hi : ∃ n, a.node? id = some n) (hne : value ≠ id) :
    Remapped (hang id key value) a (a.attach id key value) := by
  obtain ⟨n, hn⟩ := hi
  intro x
  simp only [attach, hn, node?_setParent, node?_put _ (node?_lt hn)]
  by_cases hx : x = id
  · subst hx; simp [hne.symm, hn, Arena.hang]
  by_cases hx' : x = value
  · subst hx'; cases a.node? x <;> simp [hne, Arena.hang]
  · cases a.node? x <;> simp [hx, hx', Arena.hang]

@[simp] theorem next_attach (a : Arena) (id : NodeId) (key : Symbol) (value : NodeId) :
    (a.attach id key value).next = a.next := by
  unfold attach
  cases a.node? id <;> simp

/-- When a node becomes an attribute of another one. -/
structure Attaches (a : Arena) (id value : NodeId) : Prop where
  ownerLive : ∃ n, a.node? id = some n
  valueLive : ∃ m, a.node? value = some m
  outside : ¬ a.Under value id

/-- A node that may become an attribute does so. -/
theorem Wf.setAttribute_ok (w : a.Wf) (h : Attaches a id value) (key : Symbol) :
    ∃ b c d, a.removeAttribute id key = (a.getAttribute? id key, b) ∧ Detached value b c ∧
      setAttribute id key value a =
        some (.ok ((a.getAttribute? id key).filter (· != value)), d) ∧
      Remapped (Arena.hang id key value) c d ∧ d.next = a.next ∧ d.Wf := by
  -- the value that the key had is detached first, and both nodes are still there
  obtain ⟨b, hb, hs, hn, hk⟩ := w.removeAttribute_spec id key
  obtain ⟨wb, hnb, hub, hlb⟩ : b.Wf ∧ b.next = a.next ∧ (∀ x y, b.Under x y → a.Under x y) ∧
      ∀ x, b.contains x = a.contains x := by
    cases hg : a.getAttribute? id key with
    | none => rw [hn hg]; exact ⟨w, rfl, fun _ _ u => u, fun _ => rfl⟩
    | some v => exact ⟨(hs v hg).wf, (hs v hg).next, fun _ _ => (hs v hg).under,
        fun _ => (hs v hg).contains⟩
  have hd := wb.remove value
  set c := (b.remove value).2 with hc
  have hl (x : NodeId) (hx : ∃ n, a.node? x = some n) : ∃ n, c.node? x = some n := by
    rw [← contains_iff] at hx ⊢
    rw [hd.contains, hlb, hx]
  have hu : ¬ c.Under value id := fun u => h.outside (hub _ _ (hd.under u))
  have hne : value ≠ id := by rintro rfl; exact h.outside .refl
  have hr : Remapped (Arena.hang id key value) c _ := remapped_attach (hl _ h.ownerLive) hne
  refine ⟨b, c, _, hb, hd, ?_, hr, ?_, hd.wf.hang (hl _ h.ownerLive) hd.parent?_self
    (hl _ h.valueLive) hu ?_ hr⟩
  · have ha : a.isAncestorOrSelf value id = false := by
      rw [← Bool.not_eq_true, w.acyclic.isAncestorOrSelf_iff]
      exact h.outside
    rw [setAttribute, Edit.bind_ok (Edit.get_run a)]
    simp only [contains_iff.2 h.ownerLive, contains_iff.2 h.valueLive, ha, hb, ← hc]
    rfl
  · rw [next_attach, hd.next, hnb]
  · intro m hm e he
    rw [hd.node? id, Option.map_eq_some_iff] at hm
    obtain ⟨m, hm, rfl⟩ := hm
    refine hk m hm e ?_
    unfold Arena.cut at he
    split_ifs at he
    · exact (List.mem_filter.1 he).1
    all_goals exact he

/-- A node that may not become an attribute does not, and nothing changes. -/
theorem Wf.setAttribute_kept (w : a.Wf) (h : ¬ Attaches a id value) (key : Symbol) :
    ∃ e, setAttribute id key value a = some (.error e, a) := by
  rw [setAttribute, Edit.bind_ok (Edit.get_run a)]
  by_cases hl : a.contains id = true ∧ a.contains value = true
  · have hu : a.isAncestorOrSelf value id = true := by
      rw [w.acyclic.isAncestorOrSelf_iff]
      by_contra hu
      exact h ⟨contains_iff.1 hl.1, contains_iff.1 hl.2, hu⟩
    refine ⟨.refused .attributeCycle, ?_⟩
    simp only [hl.1, hl.2, hu]
    rfl
  · refine ⟨.refused .attributeStale, ?_⟩
    have : (!a.contains id || !a.contains value) = true := by
      simpa [Classical.or_iff_not_imp_left] using hl
    simp only [this]
    rfl

end OpenMath.Arena
