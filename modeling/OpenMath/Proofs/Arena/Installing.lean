/-
  Putting a node into the slot of another.

  The node is detached first, and the slot is looked up again afterwards: what
  was behind the node in a sequence has moved up by then.  Nothing is refused any
  more once the node is detached, so that it never ends up without a slot.

  * `Location.closeUp`: where a node is after another slot of its owner was
    emptied;
  * `Tree.prune`: a tree without one of the trees inside it;
  * `Detached.tree?`: what detaching does to the trees of an arena;
  * `Installed`: what there is afterwards, node by node;
  * `Reachable.replaceWith_installs`: when a node takes the slot of another, and
    that nothing changes otherwise.
-/
import OpenMath.Proofs.Arena.Addresses
import OpenMath.Proofs.Arena.Trees

namespace OpenMath

/-! ## Closing up -/

/-- The location of a node after what was at another location of its owner is
    taken out: in a sequence, what was behind that moves up. -/
def Location.closeUp : Location → Option Location → Location
  | child i, some (child j) => child (if j < i then i - 1 else i)
  | bound i, some (bound j) => bound (if j < i then i - 1 else i)
  | l, _ => l

theorem Location.closeUp_child {i : Nat} {o : Option Location} (h : ∀ j, o ≠ some (child j)) :
    (child i).closeUp o = child i := by
  rcases o with _ | (j | _ | _ | _ | _)
  · rfl
  · exact absurd rfl (h j)
  all_goals rfl

theorem Location.closeUp_bound {i : Nat} {o : Option Location} (h : ∀ j, o ≠ some (bound j)) :
    (bound i).closeUp o = bound i := by
  rcases o with _ | (_ | j | _ | _ | _)
  · rfl
  · rfl
  · exact absurd rfl (h j)
  all_goals rfl

/-- In a list without repetitions, what is behind an item moves up when that is
    taken out. -/
theorem getElem?_filter_ne {xs : List NodeId} {x y : NodeId} {i j : Nat} (hn : xs.Nodup)
    (hi : xs[i]? = some x) (hj : xs[j]? = some y) (hne : x ≠ y) :
    (xs.filter (· != y))[if j < i then i - 1 else i]? = some x := by
  obtain ⟨hlt, rfl⟩ := List.getElem?_eq_some_iff.1 hj
  have hij : i ≠ j := by
    rintro rfl
    exact hne (Option.some.inj (hi.symm.trans hj))
  rw [← hn.erase_eq_filter, hn.erase_getElem j hlt, List.getElem?_eraseIdx]
  by_cases h : j < i
  · rw [if_pos h, if_neg (by omega), Nat.sub_add_cancel (by omega), hi]
  · rw [if_neg h, if_pos (by omega), hi]

/-- The place that a new item took over from another one, after the new item was
    taken out of where it was in the list, if it was there. -/
theorem index_rename_filter {xs : List NodeId} {x y : NodeId} {i k : Nat} (hn : xs.Nodup)
    (hne : x ≠ y) (hi : xs[i]? = some x)
    (hk : ((xs.filter (· != y)).map fun z => if z = x then y else z)[k]? = some y) :
    (∀ j, xs[j]? = some y → k = if j < i then i - 1 else i) ∧ (y ∉ xs → k = i) := by
  have hx : (xs.filter (· != y))[k]? = some x := by
    rw [List.getElem?_map, Option.map_eq_some_iff] at hk
    obtain ⟨z, hz, he⟩ := hk
    have hzy : z ≠ y := by simpa using (List.mem_filter.1 (List.mem_of_getElem? hz)).2
    split_ifs at he with hzx
    · rw [hz, hzx]
    · exact absurd he hzy
  refine ⟨fun j hj => ?_, fun hy => ?_⟩
  · exact Node.index_inj (hn.filter _) hx (getElem?_filter_ne hn hi hj hne)
  · rw [filter_ne_self hy] at hx
    exact Node.index_inj hn hx hi

theorem Content.children_filter {α : Type} (keep : α → Bool) (c : Content α) :
    (c.filter keep).children = c.children.filter keep := by
  cases c <;> rfl

theorem Content.bound_filter {α : Type} (keep : α → Bool) (c : Content α) :
    (c.filter keep).bound = c.bound.filter keep := by
  cases c <;> rfl

namespace Node

variable {n : Node} {x y : NodeId} {l : Location}

theorem without_eq_self (h : y ∉ n.owned) : n.without y = n := by
  obtain ⟨c, as, p⟩ := n
  simp only [owned, List.mem_append, not_or, List.mem_map, not_exists, not_and] at h
  simp only [without, keepOwned, Content.filter_ne_self h.1]
  rw [List.filter_eq_self.2 fun e he => by simpa using h.2 e he]

theorem location?_eq_none {isVar : Bool} (h : y ∉ n.owned) : n.location? y isVar = none := by
  simp only [owned, List.mem_append, not_or] at h
  rw [location?, Content.location?_eq_none h.1, List.find?_eq_none.2 fun e he => ?_]
  · rfl
  · simpa using fun hy : e.2 = y => h.2 (List.mem_map.2 ⟨e, he, hy⟩)

/-- Where a node is found that took the slot of another one, after it was taken
    out of its own slot in the same owner, if it had one there. -/
theorem closeUp_eq {l' : Location} {o : Option Location} (hn : n.owned.Nodup) (hne : x ≠ y)
    (hx : n.at? l = some x) (hy : ((n.without y).rename x y).at? l' = some y)
    (hrole : l'.role = l.role) (ho : ∀ l₁, o = some l₁ → n.at? l₁ = some y)
    (hout : o = none → y ∉ n.owned) : l' = l.closeUp o := by
  have hs : n.content.structural.Nodup := (List.nodup_append.1 hn).1
  simp only [Content.structural, List.nodup_append] at hs
  obtain ⟨⟨⟨hc, -, -⟩, hb, -⟩, -, -⟩ := hs
  -- what is found in a slot of its own is there in no other slot
  have hfound {m : Location} (h : n.at? m = some y) : ∃ l₂, o = some l₂ ∧ m.Agrees l₂ := by
    cases o with
    | none =>
      refine absurd ?_ (hout rfl)
      rcases mem_slots_of_at? h with ⟨-, hm⟩ | ⟨-, e, -, he, rfl, -⟩
      · exact mem_owned_of_slot hm
      · exact mem_owned_of_slot (mem_slots_of_attribute he)
    | some l₂ => exact ⟨l₂, rfl, agrees_of_at? hn h (ho l₂ rfl)⟩
  cases l with
  | child i =>
    obtain ⟨i', rfl⟩ : ∃ i', l' = .child i' := by cases l' <;> simp_all [Location.role]
    obtain ⟨hin, hno⟩ := index_rename_filter (k := i') hc hne hx (by
      simpa [at?, rename, mapOwned, without, keepOwned, Content.children_filter] using hy)
    by_cases hm : y ∈ n.content.children
    · obtain ⟨j, hj⟩ := List.mem_iff_getElem?.1 hm
      obtain ⟨_, rfl, rfl⟩ := hfound (m := .child j) hj
      exact congrArg _ (hin j hj)
    · rw [hno hm, Location.closeUp_child fun j e => hm (List.mem_of_getElem? (ho _ e))]
  | bound i =>
    obtain ⟨i', rfl⟩ : ∃ i', l' = .bound i' := by cases l' <;> simp_all [Location.role]
    obtain ⟨hin, hno⟩ := index_rename_filter (k := i') hb hne hx (by
      simpa [at?, rename, mapOwned, without, keepOwned, Content.bound_filter] using hy)
    by_cases hm : y ∈ n.content.bound
    · obtain ⟨j, hj⟩ := List.mem_iff_getElem?.1 hm
      obtain ⟨_, rfl, rfl⟩ := hfound (m := .bound j) hj
      exact congrArg _ (hin j hj)
    · rw [hno hm, Location.closeUp_bound fun j e => hm (List.mem_of_getElem? (ho _ e))]
  | head => cases l' <;> simp_all [Location.role, Location.closeUp]
  | body => cases l' <;> simp_all [Location.role, Location.closeUp]
  | attr key => cases l' <;> simp_all [Location.role, Location.closeUp]

end Node

/-! ## Taking a tree out of another -/

namespace Tree

variable {ι : Type} [DecidableEq ι]

/-- The tree without the trees at a label that are inside it. -/
def prune (x : ι) : Tree ι → Tree ι :=
  fold fun l k ss => node l k (ss.filter fun s => s.content.label != x)

theorem prune_node (x l : ι) (k : Kind) (ss : Slots (Tree ι)) :
    (node l k ss).prune x =
      node l k (Slots.mapContent (prune x) (ss.filter fun s => s.content.label != x)) := by
  have label_prune (t : Tree ι) : (t.prune x).label = t.label := by
    cases t
    rw [prune, fold_node, label_node, label_node]
  rw [prune, fold_node, ← prune, Slots.mapContent, Slots.mapContent, List.filter_map]
  simp [Function.comp_def, Slot.map, label_prune]

@[simp] theorem label_prune (x : ι) (t : Tree ι) : (t.prune x).label = t.label := by
  cases t
  rw [prune_node, label_node, label_node]

theorem prune_eq_self {x : ι} {t : Tree ι} (h : x ∉ t.labels) : t.prune x = t := by
  induction t using Tree.induction with
  | node l k ss ih =>
    simp only [labels_node, List.mem_cons, List.mem_flatMap, not_or, not_exists, not_and] at h
    have hkeep : ss.filter (fun s => s.content.label != x) = ss :=
      List.filter_eq_self.2 fun s hs => by
        simpa using fun e : s.content.label = x => h.2 s hs (e ▸ s.content.label_mem_labels)
    have hmap : Slots.mapContent (prune x) ss = ss :=
      (List.map_congr_left fun s hs => by rw [Slot.map, ih s hs (h.2 s hs)]; rfl).trans
        (List.map_id ss)
    rw [prune_node, hkeep, hmap]

end Tree

/-! ## Detaching -/

namespace Arena

variable {a b c : Arena} {id other p x y : NodeId} {l : Location} {n : Node} {t : Tree NodeId}

/-- After a node is detached, nothing has it in a slot. -/
theorem Detached.slots (h : Detached other a b) (w : a.Wf) (hn : a.node? x = some n) :
    ∃ m, b.node? x = some m ∧ m.kind = n.kind ∧
      m.slots = n.slots.filter fun s => s.content != other := by
  refine ⟨_, by rw [h.node? x, hn]; rfl, kind_cut .., ?_⟩
  unfold cut
  by_cases hp : a.parent? other = some x
  · rw [if_pos hp, Node.without, Node.slots_keepOwned]
  · have hno : n.slots.filter (fun s => s.content != other) = n.slots :=
      List.filter_eq_self.2 fun s hs => by
        have hne : s.content ≠ other := fun e =>
          hp (w.parent?_of_mem hn (e ▸ Node.mem_owned_of_slot hs))
        simpa using hne
    rw [if_neg hp, hno]
    split_ifs <;> rfl

/-- After a node is detached, no tree has its tree inside. -/
theorem Detached.tree? (h : Detached other a b) (w : a.Wf) (ht : a.tree? id = some t) :
    b.tree? id = some (t.prune other) := by
  refine tree?_induction (P := fun id t => b.tree? id = some (t.prune other)) ?_ ht
  intro id n ss hn hss _ ih
  obtain ⟨m, hm, hk, hs⟩ := h.slots w hn
  rw [Tree.prune_node, tree?_eq_some_iff]
  refine ⟨rfl, m, hm, hk, ?_, ?_⟩
  · rw [hs, hss, Slots.mapContent_mapContent]
    simp [Slots.mapContent, List.filter_map, Function.comp_def, Slot.map]
  · intro s' hs'
    obtain ⟨s, hs, rfl⟩ := List.mem_map.1 hs'
    simpa [Slot.map] using ih s (List.mem_filter.1 hs).1

/-! ## What there is afterwards -/

/-- What there is after `other` took the slot `l` of `id` at `p`. -/
structure Installed (a b : Arena) (id other p : NodeId) (l : Location) : Prop where
  parent : b.parent? other = some p
  /-- a sequence closes up if the node was in it before -/
  location : b.location? other = some (l.closeUp (a.locationIn? p other))
  root : b.parent? id = none
  /-- the tree that was in the slot keeps all but the node, if that was inside -/
  subtree : ∀ t, a.tree? id = some t → b.tree? id = some (t.prune other)
  intact : a.isAncestorOrSelf id other = false → b.tree? id = a.tree? id
  moved : b.tree? other = a.tree? other
  /-- the former slot is emptied, or spliced out of its sequence, and the slot in
      which `id` was has `other` -/
  node? : Remapped (fun x n => swap p id other x (n.without other)) a b
  kept : ∀ x, x ≠ p → x ≠ id → x ≠ other → a.parent? other ≠ some x → b.node? x = a.node? x

/-- Detaching a node and putting it in the slot of another, seen from one node. -/
theorem swap_cut (w : a.Wf) (hne : other ≠ p) (hn : a.node? x = some n) :
    swap p id other x (cut (a.parent? other) other x n) = swap p id other x (n.without other) := by
  unfold cut
  by_cases ho : a.parent? other = some x
  · rw [if_pos ho]
  · have hno : other ∉ n.owned := fun hm => ho (w.parent?_of_mem hn hm)
    rw [if_neg ho, Node.without_eq_self hno]
    -- the link upwards is written twice
    by_cases hx : x = other
    · subst hx
      simp [swap, hne]
    · rw [if_neg hx]

/-- The slot that a node took over is found, closed up if the node was in another
    slot of the same owner. -/
theorem Wf.locationIn?_installed (w : a.Wf) (wb : b.Wf) (hne : id ≠ other)
    (hn : a.node? p = some n) (hl : a.locationIn? p id = some l)
    (hm : b.node? p = some ((n.without other).rename id other))
    (hp : b.parent? other = some p) :
    b.locationIn? p other = some (l.closeUp (a.locationIn? p other)) := by
  have hfound {x : NodeId} {l : Location} (h : a.locationIn? p x = some l) : n.at? l = some x :=
    Node.at?_location? (w.keyed hn) (by simpa [locationIn?, hn] using h)
  have hid : id ∈ n.owned := by
    by_contra hno
    simp [locationIn?, hn, Node.location?_eq_none hno] at hl
  obtain ⟨n', l₀, hn', hl₀, hs⟩ := w.locationIn?_spec (w.parent?_of_mem hn hid)
  cases hn.symm.trans hn'
  cases hl.symm.trans hl₀
  obtain ⟨m, l', hm', hl', hs'⟩ := wb.locationIn?_spec hp
  cases hm.symm.trans hm'
  rw [hl']
  refine congrArg some (Node.closeUp_eq (w.owned_nodup hn) hne (hfound hl) ?_ ?_
    (fun _ => hfound) fun hnone ho => ?_)
  · exact Node.at?_location? (wb.keyed hm) (by simpa [locationIn?, hm] using hl')
  · -- there is only one slot in which it is, and it has the role of the slot it took
    refine wb.role_eq hm hs'.mem ?_
    rw [Node.rename, Node.slots_mapOwned, Node.without, Node.slots_keepOwned]
    exact List.mem_map.2 ⟨⟨l.role, id⟩, List.mem_filter.2 ⟨hs.mem, by simpa using hne⟩,
      by simp [Slot.map]⟩
  · obtain ⟨_, _, -, hsome, -⟩ := w.locationIn?_spec (w.parent?_of_mem hn ho)
    cases hnone.symm.trans hsome

/-- Taking the slot of another node is all that happens. -/
theorem Wf.installed (w : a.Wf) (h : Replaces a id other p l) :
    ∃ b, replaceWith id other a = some (.ok (some id), b) ∧ Installed a b id other p l := by
  obtain ⟨b, c, hd, hrun, hswap, -, wc⟩ := w.replaceWith_ok h
  have hop : other ≠ p := fun e => h.outside (e ▸ .of_parent h.parent)
  have hid : id ≠ p := w.acyclic.parent?_ne h.parent
  have hnode (x : NodeId) :
      c.node? x = (a.node? x).map fun n => Arena.swap p id other x (n.without other) := by
    rw [hswap x, hd.node? x, Option.map_map]
    exact Option.map_congr fun n hn => swap_cut w hop hn
  have hpar (x : NodeId) := parent?_swap (x := x) hswap hid hop (hd.live.2 h.live)
  have hparent : c.parent? other = some p := by rw [hpar, if_pos rfl]
  have htree {y : NodeId} {t : Tree NodeId} (ht : b.tree? y = some t) (hy : ¬ a.Under y p) :
      c.tree? y = some t :=
    tree?_swap hswap ht fun hm => hy (hd.under ((hd.wf.mem_labels ht).1 hm))
  have hsubtree (t : Tree NodeId) (ht : a.tree? id = some t) : c.tree? id = some (t.prune other) :=
    htree (hd.tree? w ht) (w.acyclic.not_under h.parent)
  refine ⟨c, hrun, hparent, ?_, ?_, hsubtree, ?_, ?_, hnode, ?_⟩
  · obtain ⟨n, l', hn, hl', hs⟩ := w.locationIn?_spec h.parent
    cases h.location.symm.trans hl'
    rw [location?, hparent, Option.bind_some]
    exact w.locationIn?_installed wc h.ne hn hl' (by simp [hnode p, hn, Arena.swap]) hparent
  · rw [hpar, if_neg h.ne, if_pos rfl]
  · intro hu
    obtain ⟨m, hm, -⟩ := node?_of_parent? h.parent
    obtain ⟨t, ht⟩ := w.exists_tree hm
    rw [ht, hsubtree t ht, Tree.prune_eq_self]
    rw [w.mem_labels ht, ← w.acyclic.isAncestorOrSelf_iff, hu]
    exact Bool.false_ne_true
  · obtain ⟨m, hm⟩ := h.live
    obtain ⟨t, ht⟩ := w.exists_tree hm
    rw [ht]
    refine tree?_congr ht fun x hx n hn => ?_
    have hu : a.Under other x := (w.mem_labels ht).1 hx
    have hxp : x ≠ p := by
      rintro rfl
      exact h.outside (.step h.parent hu)
    have hno : other ∉ n.owned := fun hm => w.acyclic.not_under (w.parent?_of_mem hn hm) hu
    refine ⟨_, by rw [hnode x, hn, Option.map_some, Node.without_eq_self hno], ?_⟩
    rw [Arena.swap, if_neg hxp]
    split_ifs <;> exact ⟨rfl, rfl⟩
  · intro x hxp hxi hxo hx
    rw [hnode x]
    cases hn : a.node? x with
    | none => rfl
    | some n =>
      have hno : other ∉ n.owned := fun hm => hx (w.parent?_of_mem hn hm)
      simp [Arena.swap, hxp, hxi, hxo, Node.without_eq_self hno]

/-- When a node takes the slot of another, by what can be asked of an arena. -/
theorem Wf.replaces_iff (w : a.Wf) :
    (∃ p l, Replaces a id other p l) ↔ a.contains id = true ∧ a.contains other = true ∧
      id ≠ other ∧ (∃ p, a.parent? id = some p) ∧ a.isAncestorOrSelf other id = false ∧
      ∃ l k, a.location? id = some l ∧ a.kind? other = some k ∧ l.role.admits k = true := by
  rw [← Bool.not_eq_true (a.isAncestorOrSelf other id), w.acyclic.isAncestorOrSelf_iff]
  constructor
  · rintro ⟨p, l, h⟩
    obtain ⟨m, hm⟩ := h.live
    obtain ⟨n, hn, -⟩ := node?_of_parent? h.parent
    have hk : a.kind? other = some m.kind := kind?_eq_some.2 ⟨m, hm, rfl⟩
    exact ⟨contains_iff.2 ⟨n, hn⟩, contains_iff.2 h.live, h.ne, ⟨p, h.parent⟩, h.outside, l, m.kind,
      by simp [location?, h.parent, h.location], hk, h.admits _ hk⟩
  · rintro ⟨-, ho, hne, ⟨p, hp⟩, hu, l, k, hl, hk, hadm⟩
    refine ⟨p, l, hne, contains_iff.1 ho, hp, by simpa [location?, hp] using hl, ?_, hu⟩
    rintro k' hk'
    cases hk.symm.trans hk'
    exact hadm

/-- A node takes the slot of another exactly if both are there, they are two, the
    other is attached and not inside of the node, and the slot admits the kind of
    the node.  Then that is all that happens, and otherwise nothing happens at
    all. -/
theorem Reachable.replaceWith_installs (h : a.Reachable) (id other : NodeId) :
    ∃ r b, replaceWith id other a = some (r, b) ∧
      (r = .ok (some id) ↔ a.contains id = true ∧ a.contains other = true ∧ id ≠ other ∧
        (∃ p, a.parent? id = some p) ∧ a.isAncestorOrSelf other id = false ∧
        ∃ l k, a.location? id = some l ∧ a.kind? other = some k ∧ l.role.admits k = true) ∧
      (r = .ok (some id) → ∃ p l, a.parent? id = some p ∧ a.location? id = some l ∧
        Installed a b id other p l) ∧
      (r ≠ .ok (some id) → b = a) := by
  have w := h.wf
  rw [← w.replaces_iff]
  by_cases hrep : ∃ p l, Replaces a id other p l
  · obtain ⟨p, l, hr⟩ := hrep
    obtain ⟨b, hrun, hb⟩ := w.installed hr
    exact ⟨_, b, hrun, iff_of_true rfl ⟨p, l, hr⟩,
      fun _ => ⟨p, l, hr.parent, by simp [location?, hr.parent, hr.location], hb⟩,
      fun hne => absurd rfl hne⟩
  · obtain ⟨r, hrun, hr⟩ := w.replaceWith_kept fun p l h => hrep ⟨p, l, h⟩
    exact ⟨r, a, hrun, iff_of_false (hr id) hrep, fun e => absurd e (hr id), fun _ => rfl⟩

/-- The operator of an application that takes the place of the only operand stays
    where it is, as the sequence closes up. -/
theorem replaceWith_installs_applied :
    ∃ b, replaceWith 1 0 applied = some (.ok (some 1), b) ∧
      Installed applied b 1 0 2 (.child 1) ∧ b.location? 0 = some (.child 0) := by
  obtain ⟨r, b, hrun, hok, hins, -⟩ := reachable_applied.replaceWith_installs 1 0
  have hr : r = .ok (some 1) := hok.2
    ⟨rfl, rfl, by decide, ⟨2, rfl⟩, by cbv, .child 1, .var "f", rfl, rfl, rfl⟩
  obtain ⟨p, l, hp, hl, hb⟩ := hins hr
  cases hp.symm.trans (rfl : applied.parent? 1 = some 2)
  cases hl.symm.trans (rfl : applied.location? 1 = some (.child 1))
  exact ⟨b, hr ▸ hrun, hb, hb.location.trans rfl⟩

end Arena

end OpenMath
