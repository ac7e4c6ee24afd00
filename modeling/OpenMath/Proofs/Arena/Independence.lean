/-
  Substitutions in a copy, one after the other.

  A copy is a tree of its own, and so is what a substitution makes of it, be it that the
  copy itself is replaced.  Everything else stays as it is; so the second substitution
  finds the variable and the replacement that it would have found as the first one, and
  what was made before is still there after another run.

  * `Apart`: a tree of its own, of nodes that are newer than others;
  * `Exchangeable.replaceFree`, `Apart.replaceFree`: substitution for a variable, in any tree
    and in such a one;
  * `replaceTwo`: two substitutions in a copy;
  * `Reachable.replaceTwo_comm`: for different variables, neither of which is free in the
    replacement of the other one, the order does not matter.
-/
import OpenMath.Proofs.Arena.DataModel
import OpenMath.Proofs.Tree.Independence

namespace OpenMath.Arena

open OpenMath.Tree

variable {a b c : Arena} {k t x y r s : NodeId} {u v : Tree NodeId} {name : String} {new : Term}

/-! ## Trees of their own -/

/-- A tree whose top is a root, and whose nodes are not older than a given one. -/
structure Apart (k : NodeId) (b : Arena) (u : Tree NodeId) : Prop where
  wf : b.Wf
  next_le : k ≤ b.next
  tree : b.tree? u.label = some u
  root : b.parent? u.label = none
  fresh : ∀ x ∈ u.labels, k ≤ x

theorem Planted.apart (h : Planted a b [u]) : Apart a.next b u where
  wf := h.wf
  next_le := h.next_le
  tree := h.tree u (List.mem_singleton_self u)
  root := h.root u (List.mem_singleton_self u)
  fresh := h.fresh u (List.mem_singleton_self u)

/-- What a substitution makes of a tree of its own is one in its turn, and older nodes stay
    as they are. -/
theorem Outcome.apart {σ : Substitution NodeId} {above : List String} (h : Outcome σ above u v b c)
    (hu : Apart k b u) : Apart k c v ∧ ∀ x < k, c.node? x = b.node? x := by
  constructor
  · unfold Outcome at h
    split_ifs at h
    · have hv := h.apart
      exact ⟨hv.wf, hu.next_le.trans hv.next_le, hv.tree, hv.root,
        fun x hx => hu.next_le.trans (hv.fresh x hx)⟩
    · refine ⟨h.wf, hu.next_le.trans h.next_le, h.tree, h.parent.trans hu.root, ?_⟩
      intro x hx
      rcases h.origin x hx with hx | hx
      · exact hu.fresh x hx
      · exact hu.next_le.trans hx
  · intro x hx
    refine h.frame (hx.trans_le hu.next_le) (fun hm => absurd (hu.fresh x hm) (not_le.2 hx)) ?_
    simp [hu.root]

/-! ## One substitution -/

/-- A variable without attributes can be copied, and so can what is to replace it. -/
structure Exchangeable (a : Arena) (x r : NodeId) (name : String) (new : Term) : Prop where
  tree : a.tree? x = some (rooted x (.var name) [])
  copied : ∃ o, (rooted x (.var name) []).copy = .ok o
  replacement : ∃ u, a.tree? r = some u ∧ u.copy = .ok new

theorem Exchangeable.kept (h : a.Exchangeable x r name new)
    (hb : ∀ z < a.next, b.node? z = a.node? z) : b.Exchangeable x r name new where
  tree := tree?_of_kept hb h.tree
  copied := h.copied
  replacement := by
    obtain ⟨u, hu, hc⟩ := h.replacement
    exact ⟨u, tree?_of_kept hb hu, hc⟩

/-- Substitution for a variable, in which bindings count up to the node. -/
def forVariable (x : NodeId) (name : String) (new : Term) (id : NodeId) : Substitution NodeId :=
  ⟨rooted x (.var name) [], new, some id⟩

theorem forVar_forVariable (x : NodeId) (name : String) (new : Term) (id : NodeId) :
    (forVariable x name new id).unbounded.ForVar name := ⟨⟨x, rfl⟩, rfl⟩

/-- Substitution for a variable succeeds, and does what it does on terms. -/
theorem Exchangeable.replaceFree (he : a.Exchangeable x r name new) (w : a.Wf)
    (hu : a.tree? u.label = some u) :
    ∃ v b names, Arena.replaceFree u.label x r a = some (.ok v.label, b) ∧
      Outcome (forVariable x name new u.label) names u v a b ∧
      v.mapLabels (older a.next) = (forVariable x name new u.label).unbounded.apply u []
        ((a.location? u.label).map Location.role) ∧
      v.toTerm = u.toTerm.replaceVar name new [] ((a.location? u.label).map Location.role) := by
  obtain ⟨o, ho⟩ := he.copied
  obtain ⟨t, ht, hcopy⟩ := he.replacement
  obtain ⟨names, b, v, -, hrun, hout, hterm⟩ :=
    w.replaceFreeWithin_ok hu he.tree ht ho hcopy (some u.label)
  rw [w.apply_eq_unbounded hu rfl] at hterm
  refine ⟨v, b, names, hrun, hout, hterm, ?_⟩
  rw [← toTerm_mapLabels (older a.next), hterm]
  exact (forVar_forVariable x name new u.label).toTerm_apply (w.shaped hu)

/-- Substitution for a variable in a tree of its own is that on terms. -/
theorem Apart.replaceFree (h : Apart k b u) (he : b.Exchangeable x r name new) :
    ∃ v c, replaceFree u.label x r b = some (.ok v.label, c) ∧ Apart k c v ∧
      (∀ z < k, c.node? z = b.node? z) ∧ v.toTerm = u.toTerm.replaceVar name new [] none := by
  obtain ⟨v, c, names, hrun, hout, -, hterm⟩ := he.replaceFree h.wf h.tree
  obtain ⟨hv, hkept⟩ := hout.apart h
  have hloc : b.location? u.label = none := by
    rw [location?, h.root]
    rfl
  rw [hloc] at hterm
  exact ⟨v, c, hrun, hv, hkept, hterm⟩

/-! ## Two substitutions -/

/-- Replaces a first node by a second one, and then a third node by a fourth one, in a copy
    of a tree. -/
def replaceTwo (t x r y s : NodeId) : Edit NodeId := do
  let c ← copy t
  let c ← Arena.replaceFree c x r
  Arena.replaceFree c y s

/-- Two substitutions for variables in a copy are those on terms, one after the other. -/
theorem Wf.replaceTwo_ok (w : a.Wf) (ht : a.tree? t = some u) {o : Term} (ho : u.copy = .ok o)
    {m n : String} {p q : Term} (hx : a.Exchangeable x r m p) (hy : a.Exchangeable y s n q) :
    ∃ v b, replaceTwo t x r y s a = some (.ok v.label, b) ∧ Apart a.next b v ∧
      (∀ z < a.next, b.node? z = a.node? z) ∧
      v.toTerm = (o.replaceVar m p [] none).replaceVar n q [] none := by
  obtain ⟨u₀, a₀, hrun₀, hpl, hterm₀⟩ := w.copy_ok ht ho
  have h₀ := hpl.apart
  obtain ⟨u₁, a₁, hrun₁, h₁, hkept₁, hterm₁⟩ := h₀.replaceFree (hx.kept hpl.old)
  have hkept : ∀ z < a.next, a₁.node? z = a.node? z := fun z hz =>
    (hkept₁ z hz).trans (hpl.old z hz)
  obtain ⟨u₂, a₂, hrun₂, h₂, hkept₂, hterm₂⟩ := h₁.replaceFree (hy.kept hkept)
  refine ⟨u₂, a₂, ?_, h₂, fun z hz => (hkept₂ z hz).trans (hkept z hz), ?_⟩
  · rw [replaceTwo, Edit.bind_ok hrun₀, Edit.bind_ok hrun₁]
    exact hrun₂
  · rw [hterm₂, hterm₁, hterm₀]

/-! ## In the arenas that come about -/

/-- A node is a variable without attributes. -/
def IsVariable (a : Arena) (x : NodeId) (name : String) : Prop :=
  ∃ n, a.node? x = some n ∧ n.content = .var name ∧ n.attributes = []

theorem tree?_of_isVariable (w : a.Wf) (hx : a.IsVariable x name) :
    a.tree? x = some (rooted x (.var name) []) := by
  obtain ⟨n, hn, hcontent, hattributes⟩ := hx
  obtain ⟨o, ho⟩ := w.exists_tree hn
  obtain ⟨n', cs, as, hn', hroots, rfl⟩ := exists_roots ho
  cases hn.symm.trans hn'
  have hc : cs.map Tree.label = .var name := hroots.content.symm.trans hcontent
  obtain rfl : cs = .var name := by
    cases cs <;> simp_all [Content.map]
  obtain rfl : as = [] := List.map_eq_nil_iff.1 (hroots.attributes.symm.trans hattributes)
  exact ho

/-- A variable without attributes can be replaced by whatever can be copied. -/
theorem Reachable.exchangeable (h : a.Reachable) (hx : a.IsVariable x name) (hr : a.Copyable r) :
    ∃ new, a.Exchangeable x r name new ∧ Term.OfValid new ∧
      ∀ m, m ∈ a.freeVariables r ↔ m ∈ new.freeNames := by
  have w := h.wf
  have ho := tree?_of_isVariable w hx
  obtain ⟨t, new, ht, hcopy⟩ := w.copyable_iff.1 hr
  have hs := w.shaped ht
  refine ⟨new, ⟨ho, ?_, t, ht, hcopy⟩, Edit.Changes.ofValid_of_copy hcopy, fun m => ?_⟩
  · have hwhole : (rooted x (.var name) []).Whole := by
      simp [whole_rooted, Content.structural, Content.children, Content.head?, Content.bound,
        Content.body?, Content.Complete, Content.kind]
    exact ⟨_, (w.shaped ho).copy_of_written (h.written ho hwhole)⟩
  · rw [freeVariables_eq ht, mem_freeVariables, (hs.of_copy hcopy).2.2]

theorem spec_of_ofValid {t : Term} (h : Term.OfValid t) :
    t.Shaped ∧ t.Whole ∧ t.All Kind.Acceptable := by
  obtain ⟨v, hv, hb⟩ := h
  exact ⟨shaped_build hv hb, whole_build hv hb, Wire.acceptable_build hv hb⟩

theorem Apart.written (h : Apart k b u) {o p q : Term} {m n : String} (ho : Term.OfValid o)
    (hp : Term.OfValid p) (hq : Term.OfValid q)
    (hu : u.toTerm = (o.replaceVar m p [] none).replaceVar n q [] none) : u.Written := by
  obtain ⟨-, wo, ao⟩ := spec_of_ofValid ho
  obtain ⟨-, wp, ap⟩ := spec_of_ofValid hp
  obtain ⟨-, wq, aq⟩ := spec_of_ofValid hq
  have hterm : u.toTerm.Whole ∧ u.toTerm.All Kind.Acceptable := by
    rw [hu]
    exact ⟨whole_replaceVar (whole_replaceVar wo wp) wq, all_replaceVar (all_replaceVar ao ap) aq⟩
  exact (h.wf.shaped h.tree).written ((all_mapLabels _).1 hterm.2) ((whole_mapLabels _).1 hterm.1)

/-- Two substitutions for different variables in a copy of a tree come to the same in both
    orders, if neither variable is free in the replacement of the other one: what is made has
    the same shape, occurrences included that are left alone since a variable would be
    captured.  It does not matter where the variables and the replacements are. -/
theorem Reachable.replaceTwo_comm (h : a.Reachable) {m n : String} (ht : a.Copyable t)
    (hx : a.IsVariable x m) (hy : a.IsVariable y n) (hmn : m ≠ n) (hr : a.Copyable r)
    (hs : a.Copyable s) (hms : m ∉ a.freeVariables s) (hnr : n ∉ a.freeVariables r) :
    ∃ z b z' c v, replaceTwo t x r y s a = some (.ok z, b) ∧
      replaceTwo t y s x r b = some (.ok z', c) ∧
      c.toShape z = .ok v ∧ c.toShape z' = .ok v := by
  have w := h.wf
  obtain ⟨u, o, hu, ho⟩ := w.copyable_iff.1 ht
  obtain ⟨p, hxr, hp, hfreep⟩ := h.exchangeable hx hr
  obtain ⟨q, hys, hq, hfreeq⟩ := h.exchangeable hy hs
  have hov := Edit.Changes.ofValid_of_copy ho
  obtain ⟨u₁, b, hrun₁, h₁, hkept, hterm₁⟩ := w.replaceTwo_ok hu ho hxr hys
  obtain ⟨u₂, c, hrun₂, h₂, hkept', hterm₂⟩ :=
    h₁.wf.replaceTwo_ok (tree?_of_kept hkept hu) ho (hys.kept hkept) (hxr.kept hkept)
  have hsame : u₁.toTerm = u₂.toTerm := by
    rw [hterm₁, hterm₂]
    exact (spec_of_ofValid hov).1.replaceVar_comm (spec_of_ofValid hp).1 (spec_of_ofValid hq).1 hmn
      (fun hm => hms ((hfreeq m).2 hm)) fun hn => hnr ((hfreep n).2 hn)
  have hw := (h₁.written hov hp hq hterm₁).toShape
  refine ⟨u₁.label, b, u₂.label, c, u₁.shape, hrun₁, hrun₂, ?_, ?_⟩
  · rw [toShape_eq (tree?_of_kept hkept' h₁.tree), hw]
  · rw [toShape_eq h₂.tree, ← toShape_mapLabels (fun _ => ()), ← Tree.toTerm, ← hsame, Tree.toTerm,
      toShape_mapLabels, hw]

/-- An application with a variable beside it. -/
def appliedBeside : Arena where
  places := applied.places.push (some ⟨.var "z", [], none⟩)

theorem reachable_appliedBeside : appliedBeside.Reachable :=
  .step (c := .parse "z") (r := .ok ()) reachable_applied (by cbv)

/-- In the application of one variable to another, both are replaced by a third one. -/
theorem replaceTwo_applied : ∃ (a : Arena) (z : NodeId) (b : Arena) (z' : NodeId) (c : Arena)
    (v : Json), a.Reachable ∧ replaceTwo 2 1 3 0 3 a = some (.ok z, b) ∧
      replaceTwo 2 0 3 1 3 b = some (.ok z', c) ∧ c.toShape z = .ok v ∧ c.toShape z' = .ok v := by
  have hcopied : appliedBeside.Copyable 2 := ⟨6, ⟨appliedBeside.places ++ #[some ⟨.var "f", [], some 6⟩,
    some ⟨.var "x", [], some 6⟩, some ⟨.application [4, 5], [], none⟩]⟩, by cbv⟩
  have hz : appliedBeside.Copyable 3 :=
    ⟨4, ⟨appliedBeside.places.push (some ⟨.var "z", [], none⟩)⟩, by cbv⟩
  have hfree : appliedBeside.freeVariables 3 = ["z"] := by cbv
  have hx : appliedBeside.IsVariable 1 "x" := ⟨⟨.var "x", [], some 2⟩, rfl, rfl, rfl⟩
  have hf : appliedBeside.IsVariable 0 "f" := ⟨⟨.var "f", [], some 2⟩, rfl, rfl, rfl⟩
  obtain ⟨z, b, z', c, v, h⟩ := reachable_appliedBeside.replaceTwo_comm hcopied hx hf (by decide) hz hz
    (by rw [hfree]; decide) (by rw [hfree]; decide)
  exact ⟨appliedBeside, z, b, z', c, v, reachable_appliedBeside, h⟩

end OpenMath.Arena
