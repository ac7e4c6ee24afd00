/-
  The walk of a substitution.

  What the walk does to an arena is compared with `Substitution.apply` on the tree
  that was there before.  Nodes below a bound `k` were there, others are new; the
  copies of the target and of the replacement are among the latter, so that the
  walk never meets them.

  * `Snapshots`: the copies are in the arena;
  * `Rewritten`: a tree gave way to another one, and the rest of the arena is as
    it was;
  * `Wf.substituteAt_ok`: one occurrence is replaced.
-/
import OpenMath.Proofs.Arena.Edits
import OpenMath.Proofs.Arena.Making
import OpenMath.Proofs.Arena.Scopes
import OpenMath.Proofs.Tree.Substitution
import OpenMath.Arena.Substitution

namespace OpenMath.Arena

variable {a b c : Arena} {id p x k target replacement : NodeId} {n : Node} {t t' u : Tree NodeId}
  {σ : Substitution NodeId}

/-! ## States of the walk -/

/-- What labels a node in the tree after a substitution: itself if it was there
    before. -/
def older (k x : NodeId) : Option NodeId := if x < k then some x else none

/-- The copies of what is replaced and of what replaces it, which stay as they
    are. -/
structure Snapshots (σ : Substitution NodeId) (k target replacement : NodeId) (a : Arena) : Prop where
  target : ∃ u, a.tree? target = some u ∧ (∀ x ∈ u.labels, k ≤ x) ∧
    ∀ t : Tree NodeId, t.Shaped → t.equals true u = t.equals true σ.target
  replacement : ∃ u, a.tree? replacement = some u ∧ (∀ x ∈ u.labels, k ≤ x) ∧
    u.copy = .ok σ.replacement

/-- From `a` to `b` the tree `t` gave way to `t'`. -/
structure Rewritten (t t' : Tree NodeId) (a b : Arena) : Prop where
  wf : b.Wf
  next_le : a.next ≤ b.next
  tree : b.tree? t'.label = some t'
  parent : b.parent? t'.label = a.parent? t.label
  /-- the owner has the new tree in the slot of the old one -/
  owner : ∀ p, a.parent? t.label = some p →
    b.node? p = (a.node? p).map (Node.rename t.label t'.label)
  /-- other nodes that were there stay as they are -/
  frame : ∀ x < a.next, x ∉ t.labels → a.parent? t.label ≠ some x → b.node? x = a.node? x
  /-- nodes that are no longer in the tree are given up -/
  freed : ∀ x ∈ t.labels, x ∉ t'.labels → b.node? x = none
  origin : ∀ x ∈ t'.labels, x ∈ t.labels ∨ a.next ≤ x
  /-- what is new is in the tree -/
  covered : ∀ x n, a.next ≤ x → b.node? x = some n → x ∈ t'.labels

theorem rename_self (x : NodeId) (n : Node) : n.rename x x = n := by
  have h : (fun y => if y = x then x else y) = fun y => y := by
    funext y
    split_ifs with h <;> simp [h]
  rw [Node.rename, h, Node.mapOwned, Content.map_self]
  simp

/-- A tree that stays as it is. -/
theorem Rewritten.refl (w : a.Wf) (h : a.tree? t.label = some t) : Rewritten t t a a where
  wf := w
  next_le := le_rfl
  tree := h
  parent := rfl
  owner p hp := by
    obtain ⟨n, hn⟩ := w.live hp
    rw [hn, Option.map_some, rename_self]
  frame _ _ _ _ := rfl
  freed x h h' := absurd h h'
  origin x h := .inl h
  covered x n hx hn := absurd (node?_lt hn) (not_lt.2 hx)

theorem Snapshots.mono (h : Snapshots σ k target replacement a)
    (hf : ∀ x, k ≤ x → x < a.next → b.node? x = a.node? x) :
    Snapshots σ k target replacement b where
  target := by
    obtain ⟨u, hu, hk, he⟩ := h.target
    exact ⟨u, tree?_congr hu fun x hx n hn =>
      ⟨n, by rw [hf x (hk x hx) (node?_lt hn), hn], rfl, rfl⟩, hk, he⟩
  replacement := by
    obtain ⟨u, hu, hk, he⟩ := h.replacement
    exact ⟨u, tree?_congr hu fun x hx n hn =>
      ⟨n, by rw [hf x (hk x hx) (node?_lt hn), hn], rfl, rfl⟩, hk, he⟩

/-! ## Replacing one occurrence -/

/-- A tree whose owner is not among its nodes stays as it is when the owner gets
    another node in its place. -/
theorem tree?_swap (h : Remapped (swap p id x) a b) {y : NodeId} (ht : a.tree? y = some t)
    (hp : p ∉ t.labels) : b.tree? y = some t :=
  tree?_congr ht fun z hz n hn => by
    have hne : z ≠ p := fun e => hp (e ▸ hz)
    rw [h z, hn]
    simp only [swap, if_neg hne, Option.map_some]
    split_ifs <;> exact ⟨_, rfl, rfl, rfl⟩

section
variable (hpl : Planted a b [t'])
include hpl

theorem Planted.lt_of_mem {x : NodeId} (hx : x ∈ t'.labels) : a.next ≤ x :=
  hpl.fresh t' (List.mem_singleton_self t') x hx

theorem Planted.not_mem {x : NodeId} (hx : x < a.next) : x ∉ t'.labels := fun h =>
  absurd (hpl.lt_of_mem h) (not_le.2 hx)

/-- A new root may take the slot of a node that was there before, if it has the
    kind for it. -/
theorem Planted.replaces (w : a.Wf) (hp : a.parent? id = some p) {l : Location}
    (hl : a.locationIn? p id = some l) (hf : l.role.admits t'.kind = true) :
    Replaces b id t'.label p l := by
  obtain ⟨m, hm, -⟩ := node?_of_parent? hp
  obtain ⟨n, hn⟩ := w.live hp
  have hid : id < a.next := node?_lt hm
  have htree := hpl.tree t' (List.mem_singleton_self t')
  obtain ⟨m', hm', hk, -⟩ := exists_node_of_tree htree
  refine ⟨(hid.trans_le (hpl.lt_of_mem t'.label_mem_labels)).ne, ⟨m', hm'⟩, ?_, ?_, ?_, ?_⟩
  · rw [hpl.parent?_old hid, hp]
  · rw [hpl.locationIn?_old (node?_lt hn) hid, hl]
  · intro k hk'
    obtain ⟨m'', hm'', rfl⟩ := kind?_eq_some.1 hk'
    cases hm'.symm.trans hm''
    rw [hk]
    exact hf
  · intro hu
    exact hpl.not_mem hid ((hpl.wf.mem_labels htree).2 hu)

/-- When a new tree took the slot of another one, and the latter was freed, then
    the one gave way to the other. -/
theorem Planted.rewritten (w : a.Wf) (ht : a.tree? id = some t) (hp : a.parent? id = some p)
    (hs : Remapped (swap p id t'.label) b c) {d : Arena} (wd : d.Wf) (hnext : d.next = b.next)
    (hd : ∀ y, d.node? y = if y ∈ t.labels then none else c.node? y) : Rewritten t t' a d := by
  obtain ⟨m, hm, -⟩ := node?_of_parent? hp
  obtain ⟨n, hn⟩ := w.live hp
  have hid : id < a.next := node?_lt hm
  have hpn : p < a.next := node?_lt hn
  have hlabel : t.label = id := tree?_label ht
  have hpt : p ∉ t.labels := fun h => w.acyclic.not_under hp ((w.mem_labels ht).1 h)
  have htree := hpl.tree t' (List.mem_singleton_self t')
  have hnew {y : NodeId} (hy : y ∈ t'.labels) : y ∉ t.labels := fun h => by
    obtain ⟨n, hn⟩ := live_of_mem_labels ht h
    exact hpl.not_mem (node?_lt hn) hy
  have hnode {y : NodeId} (hy : y ∉ t.labels) :
      d.node? y = (b.node? y).map (swap p id t'.label y) := by
    rw [hd y, if_neg hy, hs y]
  refine ⟨wd, hnext ▸ hpl.next_le, ?_, ?_, ?_, ?_, ?_, fun y hy => .inr (hpl.lt_of_mem hy), ?_⟩
  · refine tree?_congr (tree?_swap hs htree (hpl.not_mem hpn)) fun y hy n hn => ⟨n, ?_, rfl, rfl⟩
    rw [hd y, if_neg (hnew hy), hn]
  · obtain ⟨m', hm', -⟩ := exists_node_of_tree htree
    have hpar := parent?_swap (x := t'.label) hs (w.acyclic.parent?_ne hp)
      (hpn.trans_le (hpl.lt_of_mem t'.label_mem_labels)).ne' ⟨m', hm'⟩
    rw [hlabel, hp, parent?, hd, if_neg (hnew t'.label_mem_labels)]
    exact hpar.trans (if_pos rfl)
  · intro q hq
    rw [hlabel, hp] at hq
    cases hq
    rw [hnode hpt, hpl.old p hpn, hlabel]
    exact congrArg (fun f => (a.node? p).map f) (funext fun n => if_pos rfl)
  · intro y hy hyt hyp
    rw [hlabel, hp] at hyp
    have hyp : y ≠ p := fun e => hyp (e ▸ rfl)
    have hyi : y ≠ id := fun e => hyt (e ▸ hlabel ▸ t.label_mem_labels)
    have hyl : y ≠ t'.label := fun e => hpl.not_mem hy (e ▸ t'.label_mem_labels)
    rw [hnode hyt, hpl.old y hy]
    cases a.node? y <;> simp [swap, hyp, hyi, hyl]
  · intro y hy _
    rw [hd y, if_pos hy]
  · intro y n hy hn
    have hyt : y ∉ t.labels := fun h => by
      rw [hd y, if_pos h] at hn
      cases hn
    rw [hnode hyt] at hn
    obtain ⟨n', hn', -⟩ := Option.map_eq_some_iff.1 hn
    obtain ⟨v, hv, hyv⟩ := hpl.covered y n' hy hn'
    cases List.mem_singleton.1 hv
    exact hyv

end

/-- A copy of the replacement takes the slot of an attached node, whose tree is
    freed. -/
theorem Wf.substituteAt_ok (w : a.Wf) (hs : Snapshots σ k target replacement a)
    (ht : a.tree? id = some t) (hp : a.parent? id = some p) {l : Location}
    (hl : a.locationIn? p id = some l) (hf : l.role.admits σ.replacement.kind = true) :
    ∃ b t', substituteAt id replacement a = some (.ok t'.label, b) ∧ Rewritten t t' a b ∧
      t'.toTerm = σ.replacement ∧ ∀ x ∈ t'.labels, a.next ≤ x := by
  obtain ⟨r, hr, -, hcopy⟩ := hs.replacement
  obtain ⟨t', a₁, hc, hpl, hterm⟩ := w.copy_ok hr hcopy
  have hkind : t'.kind = σ.replacement.kind := by
    rw [← hterm]
    exact (Tree.kind_mapLabels ..).symm
  have hrep := hpl.replaces w hp hl (hkind ▸ hf)
  obtain ⟨a₂, a₃, hd, hrun, hswap, hnext, wf₃⟩ := hpl.wf.replaceWith_ok hrep
  -- the copy is a root, so that detaching it changes nothing
  have hroot := hd.node?_of_root (hpl.root t' (List.mem_singleton_self t'))
  have hswap : Remapped (Arena.swap p id t'.label) a₁ a₃ := fun y => by rw [hswap y, hroot y]
  obtain ⟨n, hn⟩ := w.live hp
  have hpn : p < a.next := node?_lt hn
  have ht₃ : a₃.tree? id = some t := tree?_swap hswap (hpl.tree?_old ht)
    fun h => w.acyclic.not_under hp ((w.mem_labels ht).1 h)
  have hp₃ : a₃.parent? id = none := by
    rw [parent?_swap hswap (w.acyclic.parent?_ne hp)
      (hpn.trans_le (hpl.lt_of_mem t'.label_mem_labels)).ne' hrep.live, if_neg hrep.ne, if_pos rfl]
  obtain ⟨a₄, hdis, hfreed, hnext₄, wf₄⟩ := wf₃.discard_ok hp₃ ht₃
  refine ⟨a₄, t', ?_, hpl.rewritten w ht hp hswap wf₄ (hnext₄.trans hnext) hfreed, hterm,
    fun x hx => hpl.lt_of_mem hx⟩
  rw [substituteAt, Edit.bind_ok hc, Edit.bind_ok (Edit.get_run a₁), hrep.parent]
  simp only [Option.isNone_some, Bool.false_eq_true, if_false]
  rw [Edit.bind_ok hrun]
  exact Edit.bind_ok hdis

/-! ## What stays as it is -/

section
variable (w : a.Wf) (ht : a.tree? u.label = some u) (hp : a.parent? u.label = some id)
include w ht hp

theorem Wf.not_mem_of_under {x : NodeId} (hx : a.Under x id) : x ∉ u.labels := fun h =>
  w.acyclic.not_under hp (((w.mem_labels ht).1 h).trans hx)

theorem Wf.not_mem_of_parent {x q : NodeId} (hx : a.parent? x = some q) (hq : a.Under q id)
    (hne : x ≠ u.label) : x ∉ u.labels := fun h => by
  rcases ((w.mem_labels ht).1 h).cases_parent with e | ⟨q', hq', hu⟩
  · exact hne e
  · cases hx.symm.trans hq'
    exact w.acyclic.not_under hp (hu.trans hq)

end

theorem Wf.live_of_under (w : a.Wf) (hn : a.node? id = some n) (hx : a.Under x id) :
    ∃ m, a.node? x = some m := by
  induction hx generalizing n with
  | refl => exact ⟨n, hn⟩
  | step hp _ ih =>
    obtain ⟨m, hm⟩ := w.live hp
    exact ih hm

theorem Wf.lt_of_under (w : a.Wf) (hn : a.node? id = some n) (hx : a.Under x id) : x < a.next := by
  obtain ⟨m, hm⟩ := w.live_of_under hn hx
  exact node?_lt hm

namespace Rewritten

variable (h : Rewritten u t' a b)
include h

theorem node?_owner (hp : a.parent? u.label = some id) (hn : a.node? id = some n) :
    b.node? id = some (n.rename u.label t'.label) := by
  rw [h.owner id hp, hn, Option.map_some]

theorem kind?_eq (hp : a.parent? u.label = some id) {x : NodeId} (hx : x < a.next)
    (hxu : x ∉ u.labels) : b.kind? x = a.kind? x ∧ b.parent? x = a.parent? x := by
  by_cases hi : x = id
  · subst hi
    have hk (n : Node) : (n.rename u.label t'.label).kind = n.kind := Node.kind_mapOwned ..
    have hpar (n : Node) : (n.rename u.label t'.label).parent = n.parent := rfl
    simp [kind?, parent?, h.owner x hp, Option.bind_map, Function.comp_def, hk, hpar]
  · have he := h.frame x hx hxu fun e => hi (Option.some.inj (e.symm.trans hp))
    simp [kind?, parent?, he]

variable (w : a.Wf) (ht : a.tree? u.label = some u) (hp : a.parent? u.label = some id)
  (hn : a.node? id = some n)
include w ht hp hn

/-- The scope at the owner stays as it is. -/
theorem scope?_eq (upto : Option NodeId) : b.scope? upto id = a.scope? upto id := by
  refine w.acyclic.scope?_congr (fun x hx => ?_) fun x y hy hu => ?_
  · exact (h.kind?_eq hp (w.lt_of_under hn hx) (w.not_mem_of_under ht hp hx)).2
  · have hx : a.Under x id := (Under.of_parent hy).trans hu
    have hxi : a.parent? u.label ≠ some x := fun e => by
      cases hp.symm.trans e
      exact w.acyclic.not_under hy hu
    obtain ⟨m, hm⟩ := w.live hy
    have hm' : b.node? x = some m := by
      rw [h.frame x (node?_lt hm) (w.not_mem_of_under ht hp hx) hxi, hm]
    rw [boundNames_eq hm', boundNames_eq hm]
    refine List.filterMap_congr fun v hv => ?_
    have hvo := Node.mem_owned_of_bound hv
    have hvp := w.parent?_of_mem hm hvo
    obtain ⟨m', hm', -⟩ := w.node?_of_mem hm hvo
    have hne : v ≠ u.label := by
      rintro rfl
      exact hxi hvp
    rw [varName?, varName?, (h.kind?_eq hp (node?_lt hm') (w.not_mem_of_parent ht hp hvp hx hne)).1]

theorem varName?_eq {v : NodeId} (hv : v ∈ n.content.bound) (hne : v ≠ u.label) :
    b.varName? v = a.varName? v := by
  have hvo := Node.mem_owned_of_bound hv
  obtain ⟨m, hm, -⟩ := w.node?_of_mem hn hvo
  rw [varName?, varName?, (h.kind?_eq hp (node?_lt hm)
    (w.not_mem_of_parent ht hp (w.parent?_of_mem hn hvo) .refl hne)).1]

/-- The names that the owner binds stay as they are if it was no bound variable
    that changed. -/
theorem boundNames_eq (hu : u.label ∉ n.content.bound) :
    b.boundNames id none = a.boundNames id none := by
  have hne {v : NodeId} (hv : v ∈ n.content.bound) : v ≠ u.label := fun e => hu (e ▸ hv)
  rw [Arena.boundNames_eq (h.node?_owner hp hn), Arena.boundNames_eq hn, Node.rename, Node.mapOwned,
    Content.bound_map, List.filterMap_map]
  refine List.filterMap_congr fun v hv => ?_
  rw [Function.comp_apply, if_neg (hne hv), h.varName?_eq w ht hp hn hv (hne hv)]

end Rewritten

end OpenMath.Arena
