/-
  Substitution in the arenas that come about.

  * `Reachable.replaceFreeWithin_substitutes`: what is done to a tree is
    `Substitution.apply`;
  * `Reachable.freeVariables_replaceFree`: no free variable is lost that is not
    one of the target, none comes from nowhere, and none of the replacement is
    captured.
-/
import Mathlib
import OpenMath.Proofs.Arena.Commands
import OpenMath.Proofs.Tree.Capture

namespace OpenMath.Arena

variable {a b : Arena} {id target replacement x : NodeId} {t t' : Tree NodeId}
  {σ : Substitution NodeId} {above : List String} {upto : Option NodeId}

/-- A node of which there can be a copy. -/
def Copyable (a : Arena) (id : NodeId) : Prop := ∃ x b, copy id a = some (.ok x, b)

theorem Wf.copyable_iff (w : a.Wf) :
    a.Copyable id ↔ ∃ t c, a.tree? id = some t ∧ t.copy = .ok c := by
  constructor
  · rintro ⟨x, b, h⟩
    rcases w.copy_cases id with ⟨e, he⟩ | h'
    · cases h.symm.trans he
    · exact h'
  · rintro ⟨t, c, ht, hc⟩
    obtain ⟨u, b, h, -⟩ := w.copy_ok ht hc
    exact ⟨_, b, h⟩

/-- The substitution of copies of one node for what equals another one. -/
structure Substitutes (a : Arena) (target replacement : NodeId) (upto : Option NodeId)
    (σ : Substitution NodeId) : Prop where
  target : a.tree? target = some σ.target
  replacement : ∃ u, a.tree? replacement = some u ∧ u.copy = .ok σ.replacement
  upto : σ.upto = upto

theorem Outcome.tree (h : Outcome σ above t t' a b) : b.tree? t'.label = some t' := by
  unfold Outcome at h
  split_ifs at h
  · exact h.tree t' (List.mem_singleton_self t')
  · exact h.tree

/-- What is new after a substitution is in the tree that it made. -/
theorem Outcome.mem_labels (w : a.Wf) (h : Outcome σ above t t' a b) (ht : a.tree? t.label = some t)
    (ha : a.node? x = none) {n : Node} (hn : b.node? x = some n) :
    a.next ≤ x ∧ x ∈ t'.labels := by
  have hx : a.next ≤ x := by
    by_contra hx
    have hf := h.frame (not_le.1 hx) (fun hm => ?_) fun hp => ?_
    · rw [hn, ha] at hf
      cases hf
    · obtain ⟨m, hm⟩ := live_of_mem_labels ht hm
      cases ha.symm.trans hm
    · obtain ⟨m, hm⟩ := w.live hp
      cases ha.symm.trans hm
  refine ⟨hx, ?_⟩
  unfold Outcome at h
  split_ifs at h
  · obtain ⟨u, hu, hxu⟩ := h.covered x n hx hn
    exact List.mem_singleton.1 hu ▸ hxu
  · exact h.covered x n hx hn

/-! ## The tree that is made -/

/-- Substitution in an arena is substitution on the tree that was there: in the
    tree that is made, the nodes that were there are labelled by themselves, and
    new nodes by none.  The names in scope at its top are those that are bound
    above it.  It is where the tree was, unless that was a root that was itself
    replaced; then the tree is left alone, and the one that is made is a root. -/
theorem Reachable.replaceFreeWithin_substitutes (h : a.Reachable) (hid : a.contains id = true)
    (ho : a.Copyable target) (hr : a.Copyable replacement) (upto : Option NodeId) :
    ∃ t σ names t' b, a.tree? id = some t ∧ Substitutes a target replacement upto σ ∧
      a.scope? upto id = some names ∧
      replaceFreeWithin id target replacement upto a = some (.ok t'.label, b) ∧
      b.tree? t'.label = some t' ∧
      t'.mapLabels (older a.next) = σ.apply t names ((a.location? id).map Location.role) ∧
      Outcome σ names t t' a b := by
  have w := h.wf
  obtain ⟨n, hn⟩ := contains_iff.1 hid
  obtain ⟨t, ht⟩ := w.exists_tree hn
  obtain ⟨o, co, ho, hco⟩ := w.copyable_iff.1 ho
  obtain ⟨r, cr, hr, hcr⟩ := w.copyable_iff.1 hr
  obtain ⟨names, b, t', hnames, hrun, hout, hterm⟩ := w.replaceFreeWithin_ok ht ho hr hco hcr upto
  exact ⟨t, ⟨o, cr, upto⟩, names, t', b, ht, ⟨ho, ⟨r, hr, hcr⟩, rfl⟩, hnames, hrun, hout.tree,
    hterm, hout⟩

theorem copyable_applied : applied.Copyable 0 ∧ applied.Copyable 1 :=
  ⟨⟨3, ⟨applied.places.push (some ⟨.var "f", [], none⟩)⟩, by cbv⟩,
    3, ⟨applied.places.push (some ⟨.var "x", [], none⟩)⟩, by cbv⟩

theorem replaceFreeWithin_applied :
    ∃ t σ names t' b, applied.tree? 2 = some t ∧ Substitutes applied 1 0 none σ ∧
      applied.scope? none 2 = some names ∧
      replaceFreeWithin 2 1 0 none applied = some (.ok t'.label, b) ∧
      b.tree? t'.label = some t' ∧
      t'.mapLabels (older 3) = σ.apply t names ((applied.location? 2).map Location.role) ∧
      Outcome σ names t t' applied b :=
  reachable_applied.replaceFreeWithin_substitutes rfl copyable_applied.2 copyable_applied.1 none

/-! ## Free variables -/

/-- In a tree of an arena, bindings that count up to its top count without end. -/
theorem Wf.apply_eq_unbounded (w : a.Wf) (ht : a.tree? id = some t) (hσ : σ.upto = some id)
    (above : List String) (role : Option Role) :
    σ.apply t above role = σ.unbounded.apply t [] role := by
  have hlabel : t.label = id := tree?_label ht
  have hscope : σ.scope t above = [] := if_pos (hlabel ▸ hσ)
  rw [Substitution.apply_eq_unbounded, hscope]
  intro s hs x hx hu
  have hnd := w.labels_nodup ht
  cases t with
  | node l kind ss =>
    rw [Tree.labels_node, List.nodup_cons] at hnd
    have hxl : x = l := Option.some.inj (hu.symm.trans (hσ.trans (congrArg some hlabel.symm)))
    exact hnd.1 (List.mem_flatMap.2 ⟨s, hs, hxl ▸ hx⟩)

/-- After a substitution in which bindings count from the node on, its free
    variables are all those from before that are not free in the target, and
    otherwise at most free variables of the replacement, which are all free if
    there is a new node, that is, if there was an occurrence that was replaced. -/
theorem Reachable.freeVariables_replaceFree (h : a.Reachable) (hid : a.contains id = true)
    (ho : a.Copyable target) (hr : a.Copyable replacement) :
    ∃ x b, replaceFree id target replacement a = some (.ok x, b) ∧
      (∀ name ∈ a.freeVariables id, name ∉ a.freeVariables target → name ∈ b.freeVariables x) ∧
      (∀ name ∈ b.freeVariables x,
        name ∈ a.freeVariables id ∨ name ∈ a.freeVariables replacement) ∧
      ((∃ y, a.contains y = false ∧ b.contains y = true) →
        ∀ name ∈ a.freeVariables replacement, name ∈ b.freeVariables x) := by
  have w := h.wf
  obtain ⟨n, hn⟩ := contains_iff.1 hid
  obtain ⟨t, ht⟩ := w.exists_tree hn
  obtain ⟨o, co, ho, hco⟩ := w.copyable_iff.1 ho
  obtain ⟨r, cr, hr, hcr⟩ := w.copyable_iff.1 hr
  obtain ⟨names, b, t', -, hrun, hout, hterm⟩ :=
    w.replaceFreeWithin_ok ht ho hr hco hcr (some id)
  rw [w.apply_eq_unbounded ht rfl] at hterm
  have hfree := (hout.wf.shaped hout.tree).freeNames_rearranged
    (Tree.rearranges_mapLabels (older a.next))
  rw [hterm] at hfree
  have hcopy : cr.Shaped ∧ cr.freeNames = r.freeNames := by
    rw [(w.shaped hr).copy_eq hcr]
    exact ⟨(w.shaped hr).rearranged Tree.rearranges_arranged,
      (w.shaped hr).freeNames_rearranged Tree.rearranges_arranged⟩
  refine ⟨t'.label, b, hrun, ?_⟩
  rw [freeVariables_eq ht, freeVariables_eq ho, freeVariables_eq hr, freeVariables_eq hout.tree]
  simp only [Tree.mem_freeVariables, ← hfree, ← hcopy.2]
  refine ⟨?_, ?_, ?_⟩
  · intro name hm hno
    exact Substitution.mem_freeNames_of_kept rfl (w.shaped ho) (w.shaped ht) hm hno
  · intro name hm
    exact Substitution.mem_freeNames_apply rfl hcopy.1 (w.shaped ht) hm
  · rintro ⟨y, hy, hy'⟩ name hm
    have hyn : a.node? y = none := Option.isSome_eq_false_iff.1 hy |> Option.isNone_iff_eq_none.1
    obtain ⟨m, hm'⟩ := contains_iff.1 hy'
    obtain ⟨hnew, hmem⟩ := hout.mem_labels w (tree?_label ht ▸ ht) hyn hm'
    refine (Substitution.mem_freeNames_of_new rfl hcopy.1 (w.shaped ht) ?_ hm).2
    rw [← hterm, Tree.labels_mapLabels]
    exact List.mem_map.2 ⟨y, hmem, if_neg (not_lt.2 hnew)⟩

theorem freeVariables_applied :
    ∃ x b, replaceFree 2 1 0 applied = some (.ok x, b) ∧ "f" ∈ b.freeVariables x := by
  obtain ⟨x, b, hrun, -, -, hnew⟩ := reachable_applied.freeVariables_replaceFree
    (rfl : applied.contains 2 = true) copyable_applied.2 copyable_applied.1
  have h : replaceFree 2 1 0 applied = some (.ok 2, ⟨#[some ⟨.var "f", [], some 2⟩, none,
      some ⟨.application [0, 5], [], none⟩, none, none, some ⟨.var "f", [], some 2⟩]⟩) := by cbv
  have hf : applied.freeVariables 0 = ["f"] := by cbv
  refine ⟨x, b, hrun, hnew ⟨5, rfl, ?_⟩ "f" (hf ▸ List.mem_singleton_self "f")⟩
  cases hrun.symm.trans h
  rfl

end OpenMath.Arena
