/-
  Trees that are added to an arena.

  * `Planted`: an arena with more trees in it, which are detached and made of new
    nodes, and otherwise as it was;
  * `Planted.trans`: trees added to an arena with added trees;
  * `Planted.insert`: a node over all added trees makes them one;
  * `Planted.discard`: an added tree is freed;
  * `Planted.size_eq`: how many nodes an added tree has.
-/
import OpenMath.Proofs.Arena.Discarding

namespace OpenMath.Arena

variable {a b c d : Arena} {id p x : NodeId} {u v : Tree NodeId} {us vs : List (Tree NodeId)}

/-- `b` is `a` with the trees `us` added. -/
structure Planted (a b : Arena) (us : List (Tree NodeId)) : Prop where
  wf : b.Wf
  next_le : a.next ≤ b.next
  /-- nothing that was there changes, and no place is used again -/
  old : ∀ x, x < a.next → b.node? x = a.node? x
  tree : ∀ u ∈ us, b.tree? u.label = some u
  root : ∀ u ∈ us, b.parent? u.label = none
  fresh : ∀ u ∈ us, ∀ x ∈ u.labels, a.next ≤ x
  /-- what is new is in one of the trees -/
  covered : ∀ x n, a.next ≤ x → b.node? x = some n → ∃ u ∈ us, x ∈ u.labels
  distinct : (us.map Tree.label).Nodup

namespace Planted

theorem nil (w : a.Wf) : Planted a a [] where
  wf := w
  next_le := le_rfl
  old _ _ := rfl
  tree := by simp
  root := by simp
  fresh := by simp
  covered x n hx hn := absurd (node?_lt hn) (not_lt.2 hx)
  distinct := List.nodup_nil

theorem perm (h : Planted a b us) (hp : us.Perm vs) : Planted a b vs where
  wf := h.wf
  next_le := h.next_le
  old := h.old
  tree u hu := h.tree u (hp.mem_iff.2 hu)
  root u hu := h.root u (hp.mem_iff.2 hu)
  fresh u hu := h.fresh u (hp.mem_iff.2 hu)
  covered x n hx hn := by
    obtain ⟨u, hu, hxu⟩ := h.covered x n hx hn
    exact ⟨u, hp.mem_iff.1 hu, hxu⟩
  distinct := (hp.map _).nodup_iff.1 h.distinct

theorem label_lt (h : Planted a b us) (hu : u ∈ us) (hx : x ∈ u.labels) : x < b.next := by
  obtain ⟨n, hn⟩ := live_of_mem_labels (h.tree u hu) hx
  exact node?_lt hn

theorem node?_old (h : Planted a b us) {n : Node} (hn : a.node? x = some n) : b.node? x = some n :=
  (h.old x (node?_lt hn)).trans hn

theorem tree?_old (h : Planted a b us) {t : Tree NodeId} (ht : a.tree? id = some t) :
    b.tree? id = some t :=
  tree?_of_kept h.old ht

theorem parent?_old (h : Planted a b us) (hx : x < a.next) : b.parent? x = a.parent? x := by
  simp only [Arena.parent?, h.old x hx]

theorem locationIn?_old (h : Planted a b us) (hp : p < a.next) (hx : x < a.next) :
    b.locationIn? p x = a.locationIn? p x := by
  rw [locationIn?, locationIn?, h.old p hp, isVar, isVar, kind?, kind?, h.old x hx]

/-- Trees added to an arena with added trees. -/
theorem trans (h : Planted a b us) (h' : Planted b c vs) : Planted a c (us ++ vs) where
  wf := h'.wf
  next_le := h.next_le.trans h'.next_le
  old x hx := by rw [h'.old x (hx.trans_le h.next_le), h.old x hx]
  tree u hu := by
    rcases List.mem_append.1 hu with hu | hu
    · exact h'.tree?_old (h.tree u hu)
    · exact h'.tree u hu
  root u hu := by
    rcases List.mem_append.1 hu with hu | hu
    · rw [h'.parent?_old (h.label_lt hu u.label_mem_labels), h.root u hu]
    · exact h'.root u hu
  fresh u hu x hx := by
    rcases List.mem_append.1 hu with hu | hu
    · exact h.fresh u hu x hx
    · exact h.next_le.trans (h'.fresh u hu x hx)
  covered x n hx hn := by
    by_cases hb : x < b.next
    · obtain ⟨u, hu, hxu⟩ := h.covered x n hx (h'.old x hb ▸ hn)
      exact ⟨u, List.mem_append_left _ hu, hxu⟩
    · obtain ⟨u, hu, hxu⟩ := h'.covered x n (not_lt.1 hb) hn
      exact ⟨u, List.mem_append_right _ hu, hxu⟩
  distinct := by
    rw [List.map_append, List.nodup_append']
    refine ⟨h.distinct, h'.distinct, ?_⟩
    intro x hx hx'
    obtain ⟨u, hu, rfl⟩ := List.mem_map.1 hx
    obtain ⟨v, hv, he⟩ := List.mem_map.1 hx'
    exact absurd (he ▸ h'.fresh v hv _ v.label_mem_labels)
      (not_le.2 (h.label_lt hu u.label_mem_labels))

/-- Added trees have no node in common. -/
theorem disjoint (h : Planted a b (u :: us)) (hv : v ∈ us) : u.labels.Disjoint v.labels := by
  have hu := List.mem_cons_self (a := u) (l := us)
  have hvm := List.mem_cons_of_mem u hv
  intro x hxu hx
  rw [h.wf.mem_labels (h.tree u hu)] at hxu
  rw [h.wf.mem_labels (h.tree v hvm)] at hx
  have hne : u.label ≠ v.label := fun he =>
    (List.nodup_cons.1 h.distinct).1 (List.mem_map.2 ⟨v, hv, he.symm⟩)
  rcases hxu.total hx with u' | u' <;>
    rcases u'.cases_parent with e | ⟨q, hq, -⟩
  · exact hne e.symm
  · simp [h.root v hvm] at hq
  · exact hne e
  · simp [h.root u hu] at hq

/-- An added tree is freed again. -/
theorem discard (h : Planted a b (u :: us)) :
    ∃ c, discard u.label b = some (.ok (), c) ∧ Planted a c us := by
  have hu := List.mem_cons_self (a := u) (l := us)
  have htree := h.tree u hu
  obtain ⟨c, hc, hf, hn, w⟩ := h.wf.discard_ok (h.root u hu) htree
  have hout {v : Tree NodeId} (hv : v ∈ us) {x : NodeId} (hx : x ∈ v.labels) : x ∉ u.labels :=
    fun hxu => h.disjoint hv hxu hx
  refine ⟨c, hc, w, hn ▸ h.next_le, ?_, ?_, ?_, fun v hv => h.fresh v (List.mem_cons_of_mem _ hv),
    ?_, (List.nodup_cons.1 h.distinct).2⟩
  · intro x hx
    rw [hf x, if_neg fun hxu => absurd (h.fresh u hu x hxu) (not_le.2 hx), h.old x hx]
  · intro v hv
    exact tree?_congr (h.tree v (List.mem_cons_of_mem _ hv)) fun x hx n hxn =>
      ⟨n, by rw [hf x, if_neg (hout hv hx), hxn], rfl, rfl⟩
  · intro v hv
    rw [Arena.parent?, hf, if_neg (hout hv v.label_mem_labels)]
    exact h.root v (List.mem_cons_of_mem _ hv)
  · intro x n hx hxn
    rw [hf x] at hxn
    split at hxn
    · cases hxn
    · next hxu =>
      obtain ⟨v, hv, hxv⟩ := h.covered x n hx hxn
      rcases List.mem_cons.1 hv with rfl | hv
      · exact absurd hxv hxu
      · exact ⟨v, hv, hxv⟩

end Planted

/-! ## A new node -/

/-- `b` is `a` with a new node `n`, which owns what is in its slots. -/
def Inserted (n : Node) (a b : Arena) : Prop :=
  ∀ x, b.node? x =
    if x = a.next then some n
    else if x ∈ n.owned then (a.node? x).map fun m => { m with parent := some a.next }
    else a.node? x

theorem inserted_insert {n : Node} (hn : n.parent = none) (hout : ∀ x ∈ n.owned, x < a.next) :
    Inserted n a (a.insert n.content n.attributes).2 := by
  obtain ⟨content, attributes, parent⟩ := n
  cases hn
  intro x
  simp only [insert, node?_setParents, node?_push]
  by_cases hx : x = a.next
  · subst hx
    rw [if_neg fun hm => lt_irrefl _ (hout _ hm)]
    simp
  · simp [hx]

/-- When a new node may own what is in its slots. -/
structure Insertable (n : Node) (a : Arena) : Prop where
  parent : n.parent = none
  root : ∀ x ∈ n.owned, a.parent? x = none
  live : ∀ x ∈ n.owned, ∃ m, a.node? x = some m
  nodup : n.owned.Nodup
  keyed : n.Keyed
  fits : ∀ s ∈ n.slots, ∀ k, a.kind? s.content = some k → s.role.admits k = true

namespace Inserted

variable {n : Node}

theorem parent?_eq (h : Inserted n a b) (i : Insertable n a) (x : NodeId) :
    b.parent? x = if x ∈ n.owned then some a.next else a.parent? x := by
  rw [parent?, h x]
  by_cases hx : x = a.next
  · have hout : x ∉ n.owned := fun hm => by
      obtain ⟨m, hm⟩ := i.live x hm
      exact absurd (node?_lt hm) (hx ▸ lt_irrefl _)
    rw [if_pos hx, if_neg hout, parent?, node?_eq_none_of_le hx.ge]
    exact i.parent
  · rw [if_neg hx]
    split_ifs with hm
    · obtain ⟨m, hm'⟩ := i.live x hm
      simp [hm']
    · rfl

theorem kind?_old (h : Inserted n a b) (hx : x ≠ a.next) : b.kind? x = a.kind? x := by
  rw [kind?, h x, if_neg hx]
  split_ifs
  · simp [kind?, Node.kind, Function.comp_def]
  · rfl

/-- A node of the new arena is the new node, or it was there before with the same
    slots. -/
theorem cases_node (h : Inserted n a b) {m : Node} (hm : b.node? x = some m) :
    x = a.next ∧ m = n ∨ x ≠ a.next ∧ ∃ m', a.node? x = some m' ∧ m.content = m'.content ∧
      m.attributes = m'.attributes := by
  rw [h x] at hm
  split_ifs at hm with h1 h2
  · cases hm; exact .inl ⟨h1, rfl⟩
  · obtain ⟨m', hm', rfl⟩ := Option.map_eq_some_iff.1 hm
    exact .inr ⟨h1, m', hm', rfl, rfl⟩
  · exact .inr ⟨h1, m, hm, rfl, rfl⟩

/-- A new node keeps the links in step. -/
theorem wf (h : Inserted n a b) (i : Insertable n a) (w : a.Wf) : b.Wf := by
  have hpar := h.parent?_eq i
  have hfresh (c : NodeId) : a.parent? c ≠ some a.next := fun hc => by
    obtain ⟨m, hm⟩ := w.live hc
    exact lt_irrefl _ (node?_lt hm)
  have hlive {x : NodeId} (hx : ∃ m, a.node? x = some m) : x ≠ a.next := by
    obtain ⟨m, hm⟩ := hx
    exact (node?_lt hm).ne
  refine ⟨?_, ?_, acyclic_of_link (p := a.next) w.acyclic ?_, ?_, ?_⟩
  · intro p m hm c
    rw [hpar]
    rcases h.cases_node hm with ⟨rfl, rfl⟩ | ⟨hp, m', hm', hc', ha'⟩
    · rw [List.Nodup.count i.nodup]
      by_cases hc : c ∈ m.owned <;> simp [hc, hfresh]
    · have ho : m.owned = m'.owned := by rw [Node.owned, Node.owned, hc', ha']
      rw [ho, w.count hm']
      by_cases hc : c ∈ n.owned
      · simp [hc, i.root c hc, Ne.symm hp]
      · simp [hc]
  · intro c p hp
    rw [hpar] at hp
    split_ifs at hp with hc
    · cases hp; exact ⟨n, by rw [h, if_pos rfl]⟩
    · obtain ⟨m, hm⟩ := w.live hp
      rw [h p, if_neg (hlive ⟨m, hm⟩), hm]
      split_ifs
      · exact ⟨_, rfl⟩
      · exact ⟨m, rfl⟩
  · intro x q hq
    rw [hpar] at hq
    split_ifs at hq with hx
    · refine .inr ⟨(Option.some.inj hq).symm, fun u => ?_⟩
      rcases u.cases_parent with e | ⟨p, hp, -⟩
      · exact hlive (i.live x hx) e.symm
      · simp [parent?, node?_eq_none_of_le le_rfl] at hp
    · exact .inl hq
  · intro p m hm s hs k hk
    rcases h.cases_node hm with ⟨rfl, rfl⟩ | ⟨hp, m', hm', hc', ha'⟩
    · have ho := Node.mem_owned_of_slot hs
      rw [h.kind?_old (hlive (i.live _ ho))] at hk
      exact i.fits s hs k hk
    · have hsl : m.slots = m'.slots := by rw [Node.slots, Node.slots, hc', ha']
      rw [hsl] at hs
      have ho := Node.mem_owned_of_slot hs
      obtain ⟨l, hl, -⟩ := w.node?_of_mem hm' ho
      rw [h.kind?_old (hlive ⟨l, hl⟩)] at hk
      exact w.fits hm' s hs k hk
  · intro p m hm
    rcases h.cases_node hm with ⟨-, rfl⟩ | ⟨-, m', hm', -, ha'⟩
    · exact i.keyed
    · rw [Node.Keyed, ha']
      exact w.keyed hm'

theorem tree?_old (h : Inserted n a b) {t : Tree NodeId} (ht : a.tree? id = some t) :
    b.tree? id = some t :=
  tree?_congr ht fun x _ m hm => by
    rw [h x, if_neg (node?_lt hm).ne, hm]
    split_ifs
    · exact ⟨_, rfl, rfl, rfl⟩
    · exact ⟨_, rfl, rfl, rfl⟩

end Inserted

/-! ## A node over trees -/

section
variable {content : Content (Tree NodeId)} {attributes : List (Symbol × Tree NodeId)}

/-- The node over the roots of trees. -/
def nodeOver (content : Content (Tree NodeId)) (attributes : List (Symbol × Tree NodeId)) : Node where
  content := content.map Tree.label
  attributes := attributes.map fun e => (e.1, e.2.label)

theorem slots_nodeOver :
    (nodeOver content attributes).slots = (content.allSlots attributes).mapContent Tree.label :=
  (Content.mapContent_allSlots ..).symm

theorem owned_nodeOver :
    (nodeOver content attributes).owned =
      (content.structural ++ attributes.map (·.2)).map Tree.label := by
  simp [nodeOver, Node.owned, Content.structural_map]

namespace Planted

variable (h : Planted a b us) (hp : us.Perm (content.structural ++ attributes.map (·.2)))
include h hp

/-- A node over all added trees may be inserted. -/
theorem insertable (hf : ∀ s ∈ content.slots, s.role.admits s.content.kind = true)
    (hk : Keyed attributes) :
    Insertable (nodeOver content attributes) b := by
  have hmem {x : NodeId} (hx : x ∈ (nodeOver content attributes).owned) : ∃ u ∈ us, u.label = x := by
    rw [owned_nodeOver, List.mem_map] at hx
    simpa only [hp.mem_iff] using hx
  refine ⟨rfl, ?_, ?_, ?_, (keyed_map _).2 hk, ?_⟩
  · intro x hx
    obtain ⟨u, hu, rfl⟩ := hmem hx
    exact h.root u hu
  · intro x hx
    obtain ⟨u, hu, rfl⟩ := hmem hx
    obtain ⟨n, hn, -⟩ := exists_node_of_tree (h.tree u hu)
    exact ⟨n, hn⟩
  · rw [owned_nodeOver]
    exact (hp.map _).nodup_iff.1 h.distinct
  · intro s hs k hsk
    rw [slots_nodeOver] at hs
    obtain ⟨s, hm, rfl⟩ := List.mem_map.1 hs
    have hu : s.content ∈ us :=
      hp.mem_iff.2 (Content.contents_allSlots .. ▸ List.mem_map_of_mem hm)
    obtain ⟨n, hn, hkind, -⟩ := exists_node_of_tree (h.tree _ hu)
    obtain ⟨m, hsm, rfl⟩ := kind?_eq_some.1 hsk
    cases hn.symm.trans hsm
    rw [hkind]
    rcases List.mem_append.1 hm with hm | hm
    · exact hf s hm
    · obtain ⟨e, -, rfl⟩ := List.mem_map.1 hm
      rfl

/-- A node over all added trees makes them one. -/
theorem insert (i : Insertable (nodeOver content attributes) b)
    (hc : Inserted (nodeOver content attributes) b c) (hn : c.next = b.next + 1) :
    Planted a c [Tree.rooted b.next content attributes] := by
  have hout {x : NodeId} (hx : x ∈ (nodeOver content attributes).owned) :
      a.next ≤ x ∧ x < b.next := by
    rw [owned_nodeOver, List.mem_map] at hx
    obtain ⟨u, hu, rfl⟩ := hx
    have hu := hp.mem_iff.2 hu
    exact ⟨h.fresh u hu _ u.label_mem_labels, h.label_lt hu u.label_mem_labels⟩
  have hfresh {x : NodeId} (hx : x < a.next) : x ≠ b.next := (hx.trans_le h.next_le).ne
  refine ⟨hc.wf i h.wf, hn ▸ h.next_le.trans (Nat.le_succ _), ?_, ?_, ?_, ?_, ?_,
    List.nodup_singleton _⟩
  · intro x hx
    rw [hc x, if_neg (hfresh hx), if_neg fun hm => absurd (hout hm).1 (not_le.2 hx), h.old x hx]
  · intro u hu
    cases List.mem_singleton.1 hu
    refine tree?_eq_some_iff.2 ⟨rfl, nodeOver content attributes,
      by rw [Tree.label_rooted, hc, if_pos rfl], Content.kind_map .., slots_nodeOver,
      fun s hs => hc.tree?_old (h.tree _ (hp.mem_iff.2 ?_))⟩
    exact Content.contents_allSlots .. ▸ List.mem_map_of_mem hs
  · intro u hu
    cases List.mem_singleton.1 hu
    rw [Tree.label_rooted, hc.parent?_eq i,
      if_neg fun hm => lt_irrefl _ (hout hm).2, Arena.parent?, node?_eq_none_of_le le_rfl]
    rfl
  · intro u hu x hx
    cases List.mem_singleton.1 hu
    rcases (Tree.mem_labels_rooted ..).1 hx with rfl | ⟨u, hu, hx⟩
    · exact h.next_le
    · exact h.fresh u (hp.mem_iff.2 hu) x hx
  · intro x n hx hxn
    refine ⟨_, List.mem_singleton_self _, (Tree.mem_labels_rooted ..).2 ?_⟩
    rcases hc.cases_node hxn with ⟨rfl, -⟩ | ⟨-, m, hm, -⟩
    · exact .inl rfl
    · obtain ⟨u, hu, hxu⟩ := h.covered x m hx hm
      exact .inr ⟨u, hp.mem_iff.1 hu, hxu⟩

end Planted

end

/-! ## How many nodes there are -/

/-- The nodes that are there. -/
def liveIds (a : Arena) : List NodeId := (List.range a.next).filter a.contains

theorem mem_liveIds : x ∈ a.liveIds ↔ a.contains x = true := by
  rw [liveIds, List.mem_filter, List.mem_range, and_iff_right_iff_imp]
  intro h
  obtain ⟨n, hn⟩ := contains_iff.1 h
  exact node?_lt hn

theorem liveIds_nodup (a : Arena) : a.liveIds.Nodup := List.nodup_range.filter _

theorem length_liveIds (a : Arena) : a.liveIds.length = a.size := by
  have hplaces : a.places.toList = (List.range a.next).map a.node? := by
    refine List.ext_getElem (by simp [next]) fun i hi hi' => ?_
    have hlt : i < a.places.size := by simpa using hi
    rw [List.getElem_map, List.getElem_range, Array.getElem_toList, node?,
      Array.getElem?_eq_getElem hlt]
    rfl
  rw [liveIds, ← List.countP_eq_length_filter, size, ← Array.countP_toList, hplaces, List.countP_map]
  rfl

/-- An arena has the nodes of the added tree besides those that it had. -/
theorem Planted.size_eq (h : Planted a b [u]) : b.size = a.size + u.labels.length := by
  have hu := List.mem_singleton_self u
  have htree := h.tree u hu
  have hperm : b.liveIds.Perm (a.liveIds ++ u.labels) := by
    refine (List.perm_ext_iff_of_nodup b.liveIds_nodup ?_).2 fun x => ?_
    · refine List.nodup_append'.2 ⟨a.liveIds_nodup, h.wf.labels_nodup htree, fun x hx hxu => ?_⟩
      obtain ⟨n, hn⟩ := contains_iff.1 (mem_liveIds.1 hx)
      exact absurd (h.fresh u hu x hxu) (not_le.2 (node?_lt hn))
    · rw [List.mem_append, mem_liveIds, mem_liveIds, contains_iff]
      constructor
      · rintro ⟨n, hn⟩
        by_cases hx : x < a.next
        · exact .inl (contains_iff.2 ⟨n, h.old x hx ▸ hn⟩)
        · obtain ⟨v, hv, hxv⟩ := h.covered x n (not_lt.1 hx) hn
          exact .inr (List.mem_singleton.1 hv ▸ hxv)
      · rintro (hx | hx)
        · obtain ⟨n, hn⟩ := contains_iff.1 hx
          exact ⟨n, h.node?_old hn⟩
        · exact live_of_mem_labels htree hx
  rw [← length_liveIds, hperm.length_eq, List.length_append, length_liveIds]

end OpenMath.Arena
