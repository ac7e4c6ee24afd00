/-
  Free variables and their occurrences.

  Free variables are collected downwards, where each binding takes its names away from
  those of its body; the tests for freeness climb, and look for a binding of a name above
  an occurrence.  A name is collected at a node if and only if some occurrence of it is
  free with respect to the node.

  * `BoundBetween`: a name is bound above a node, at another one or below it;
  * `Acyclic.boundBetween_left_parent`, `Acyclic.boundBetween_right_parent`: one step more, at
    the upper and at the lower end;
  * `Wf.isFree_iff_boundBetween`: the test, by the bindings that it passes;
  * `Reaches`: the ways down through children and bodies;
  * `Wf.mem_freeNames_iff`: the names that are collected, by the occurrences;
  * `Reachable.freeVariables_iff`: both, for the arenas that come about.
-/
import OpenMath.Proofs.Arena.Addresses

namespace OpenMath.Arena

variable {a : Arena} {d id p u x : NodeId} {n : Node} {t : Tree NodeId} {name : String}
  {names : List String}

/-! ## Upwards -/

/-- A name is bound by a node that is above `d`, and that is `u` or inside it. -/
def BoundBetween (a : Arena) (u d : NodeId) (name : String) : Prop :=
  ∃ x, x ≠ d ∧ a.Under x d ∧ a.Under u x ∧ name ∈ a.boundNames x none

theorem Acyclic.not_boundBetween_self (h : a.Acyclic) : ¬ a.BoundBetween d d name := by
  rintro ⟨x, hne, hx, hd, -⟩
  exact hne (h.antisymm hx hd)

/-- From the owner of a node, the names count that the owner binds, and those that count
    from the node. -/
theorem Acyclic.boundBetween_left_parent (h : a.Acyclic) (hp : a.parent? x = some p)
    (hx : a.Under x d) :
    a.BoundBetween p d name ↔ name ∈ a.boundNames p none ∨ a.BoundBetween x d name := by
  have hpx : a.Under p x := .of_parent hp
  constructor
  · rintro ⟨y, hne, hy, hpy, hm⟩
    rcases hy.total hx with hyx | hxy
    · rcases hyx.cases_parent with rfl | ⟨q, hq, hyq⟩
      · exact .inr ⟨x, hne, hy, .refl, hm⟩
      · cases hp.symm.trans hq
        exact .inl (h.antisymm hyq hpy ▸ hm)
    · exact .inr ⟨y, hne, hy, hxy, hm⟩
  · rintro (hm | ⟨y, hne, hy, hxy, hm⟩)
    · refine ⟨p, ?_, hpx.trans hx, .refl, hm⟩
      rintro rfl
      exact h.not_under hp hx
    · exact ⟨y, hne, hy, hpx.trans hxy, hm⟩

/-- At a node, the names count that its owner binds, and those that count at the owner. -/
theorem Acyclic.boundBetween_right_parent (h : a.Acyclic) (hp : a.parent? d = some p)
    (hu : a.Under u p) :
    a.BoundBetween u d name ↔ name ∈ a.boundNames p none ∨ a.BoundBetween u p name := by
  have hpd : a.Under p d := .of_parent hp
  constructor
  · rintro ⟨y, hne, hy, huy, hm⟩
    rcases hy.cases_parent with rfl | ⟨q, hq, hyq⟩
    · exact absurd rfl hne
    · cases hp.symm.trans hq
      by_cases hyp : y = p
      · exact .inl (hyp ▸ hm)
      · exact .inr ⟨y, hyp, hyq, huy, hm⟩
  · rintro (hm | ⟨y, hne, hy, huy, hm⟩)
    · exact ⟨p, (h.parent?_ne hp).symm, hpd, hu, hm⟩
    · refine ⟨y, ?_, hy.trans hpd, huy, hm⟩
      rintro rfl
      exact h.not_under hp hy

/-- The names in scope at a node, up to another one above it, are those that are bound in
    between. -/
theorem Acyclic.mem_scope?_iff (h : a.Acyclic) (hu : a.Under u d)
    (hs : a.scope? (some u) d = some names) : name ∈ names ↔ a.BoundBetween u d name := by
  induction d using h.induction generalizing names with
  | _ d ih =>
    rcases hu.cases_parent with rfl | ⟨p, hp, hup⟩
    · rw [scope?_self] at hs
      cases hs
      exact iff_of_false List.not_mem_nil h.not_boundBetween_self
    · obtain ⟨names', hs'⟩ := h.exists_scope (some u) p
      have hne : some u ≠ some d := by
        rintro ⟨⟩
        exact h.not_under hp hup
      rw [scope?_of_parent hp hs', if_neg hne] at hs
      cases hs
      rw [List.mem_append, ih p hp hup hs', h.boundBetween_right_parent hp hup]

/-- A node is free with respect to one above it if none of its free variables is bound in
    between. -/
theorem Wf.isFree_iff_boundBetween (w : a.Wf) (hn : a.node? d = some n) (hu : a.Under u d) :
    a.isFree d (some u) = true ↔ ∀ name ∈ a.freeVariables d, ¬ a.BoundBetween u d name := by
  obtain ⟨t, ht⟩ := w.exists_tree hn
  obtain ⟨names, hs⟩ := w.acyclic.exists_scope (some u) d
  rw [w.isFree_iff ht hs, freeVariables_eq ht]
  simp only [Tree.mem_freeVariables, w.acyclic.mem_scope?_iff hu hs]

/-! ## Downwards -/

/-- A node is reached from another one by children and bodies only. -/
def Reaches (a : Arena) (id d : NodeId) : Prop :=
  ∃ path, a.index? id path = some d ∧ ∀ l ∈ path, l.role = .child ∨ l.role = .body

theorem Reaches.refl (id : NodeId) : a.Reaches id id := ⟨[], rfl, by simp⟩

theorem exists_childAt?_iff (hn : a.node? id = some n) :
    (∃ l, (l.role = .child ∨ l.role = .body) ∧ a.childAt? id l = some x) ↔
      x ∈ n.content.children ∨ n.content.body? = some x := by
  have hat (l : Location) : a.childAt? id l = n.at? l := by rw [childAt?, hn, Option.bind_some]
  constructor
  · rintro ⟨l, hl, hx⟩
    rw [hat] at hx
    cases l with
    | child i => exact .inl (List.mem_of_getElem? hx)
    | body => exact .inr hx
    | _ => simp [Location.role] at hl
  · rintro (hx | hx)
    · obtain ⟨i, hi⟩ := List.mem_iff_getElem?.1 hx
      exact ⟨.child i, .inl rfl, (hat _).trans hi⟩
    · exact ⟨.body, .inr rfl, (hat _).trans hx⟩

/-- What is reached from a node is the node itself, or is reached from a child or from the
    body of it. -/
theorem reaches_iff (hn : a.node? id = some n) :
    a.Reaches id d ↔ d = id ∨
      ∃ x, (x ∈ n.content.children ∨ n.content.body? = some x) ∧ a.Reaches x d := by
  constructor
  · rintro ⟨path, hd, hpath⟩
    cases path with
    | nil => exact .inl (Option.some.inj hd).symm
    | cons l path =>
      rw [index?_cons, Option.bind_eq_some_iff] at hd
      obtain ⟨x, hx, hd⟩ := hd
      obtain ⟨hl, hpath⟩ := List.forall_mem_cons.1 hpath
      exact .inr ⟨x, (exists_childAt?_iff hn).1 ⟨l, hl, hx⟩, path, hd, hpath⟩
  · rintro (rfl | ⟨x, hx, path, hd, hpath⟩)
    · exact .refl d
    · obtain ⟨l, hl, hx⟩ := (exists_childAt?_iff hn).2 hx
      refine ⟨l :: path, ?_, List.forall_mem_cons.2 ⟨hl, hpath⟩⟩
      rw [index?_cons, hx, Option.bind_some, hd]

theorem Wf.under_of_reaches (w : a.Wf) (h : a.Reaches id d) : a.Under id d := by
  obtain ⟨path, hd, -⟩ := h
  induction path generalizing id with
  | nil =>
    cases hd
    exact .refl
  | cons l path ih =>
    rw [index?_cons, Option.bind_eq_some_iff] at hd
    obtain ⟨x, hx, hd⟩ := hd
    exact (Under.of_parent (w.agrees_of_childAt? hx).1).trans (ih hd)

/-- A free name of a tree is that of a variable that is reached from the top, and that is
    not bound in between. -/
theorem Wf.mem_freeNames_iff (w : a.Wf) (ht : a.tree? id = some t) :
    name ∈ t.freeNames ↔ ∃ d, a.Reaches id d ∧ a.kind? d = some (.var name) ∧
      ¬ a.BoundBetween id d name := by
  refine tree?_induction_rooted (P := fun id t => name ∈ t.freeNames ↔ ∃ d, a.Reaches id d ∧
    a.kind? d = some (.var name) ∧ ¬ a.BoundBetween id d name) ?_ ht
  intro id n cs as hn hr ih _
  have hself : cs.kind.varName? = some name ↔ a.kind? id = some (.var name) := by
    rw [kind?, hn, Option.map_some, Node.kind, hr.content, Content.kind_map]
    cases cs <;> simp [Content.kind, Kind.varName?]
  -- below a part, the names do not count that are bound here
  have hpart {u : Tree NodeId} (hu : u ∈ cs.structural) :
      name ∈ u.freeNames ∧ name ∉ Tree.namesOf cs.bound ↔ ∃ d, a.Reaches u.label d ∧
        a.kind? d = some (.var name) ∧ ¬ a.BoundBetween id d name := by
    have hstep {d : NodeId} (hd : a.Reaches u.label d) : a.BoundBetween id d name ↔
        name ∈ Tree.namesOf cs.bound ∨ a.BoundBetween u.label d name := by
      rw [← boundNames_roots hn hr]
      exact w.acyclic.boundBetween_left_parent ((hr.parent w hn).1 u hu) (w.under_of_reaches hd)
    rw [ih u hu]
    constructor
    · rintro ⟨⟨d, hd, hk, hb⟩, hm⟩
      exact ⟨d, hd, hk, fun h => ((hstep hd).1 h).elim hm hb⟩
    · rintro ⟨d, hd, hk, hb⟩
      exact ⟨⟨d, hd, hk, fun h => hb ((hstep hd).2 (.inr h))⟩, fun h => hb ((hstep hd).2 (.inl h))⟩
  have hbelow {x : NodeId} : x ∈ n.content.children ∨ n.content.body? = some x ↔
      ∃ u, (u ∈ cs.children ∨ cs.body? = some u) ∧ u.label = x := by
    rw [hr.content, Content.children_map, Content.body?_map, List.mem_map, Option.map_eq_some_iff]
    simp only [or_and_right, exists_or]
  rw [Tree.mem_freeNames_rooted, hself]
  constructor
  · rintro (hk | ⟨u, hu, hm⟩ | ⟨u, hu, hm⟩)
    · exact ⟨id, .refl id, hk, w.acyclic.not_boundBetween_self⟩
    · have hnone : name ∉ Tree.namesOf cs.bound := by
        rw [Content.bound_of_child hu]
        exact List.not_mem_nil
      obtain ⟨d, hd, h⟩ := (hpart (Content.mem_structural_of_child hu)).1 ⟨hm, hnone⟩
      exact ⟨d, (reaches_iff hn).2 (.inr ⟨_, hbelow.2 ⟨u, .inl hu, rfl⟩, hd⟩), h⟩
    · obtain ⟨d, hd, h⟩ := (hpart (Content.mem_structural_of_body hu)).1 hm
      exact ⟨d, (reaches_iff hn).2 (.inr ⟨_, hbelow.2 ⟨u, .inr hu, rfl⟩, hd⟩), h⟩
  · rintro ⟨d, hd, h⟩
    rcases (reaches_iff hn).1 hd with rfl | ⟨x, hx, hd⟩
    · exact .inl h.1
    · obtain ⟨u, hu | hu, rfl⟩ := hbelow.1 hx
      · have hm := (hpart (Content.mem_structural_of_child hu)).2 ⟨d, hd, h⟩
        exact .inr (.inl ⟨u, hu, hm.1⟩)
      · have hm := (hpart (Content.mem_structural_of_body hu)).2 ⟨d, hd, h⟩
        exact .inr (.inr ⟨u, hu, hm⟩)

/-- A name is among the free variables of a node if and only if a variable of that name is
    reached from the node that is free with respect to it; and a node is free with respect to
    one above it if and only if no binding from its owner up to that one binds a free
    variable of it. -/
theorem Reachable.freeVariables_iff (h : a.Reachable) :
    (∀ id name, a.contains id = true → (name ∈ a.freeVariables id ↔ ∃ d, a.Reaches id d ∧
      a.kind? d = some (.var name) ∧ a.isFree d (some id) = true)) ∧
    ∀ d u, a.contains d = true → a.isAncestorOrSelf u d = true → u ≠ d →
      (a.isFree d (some u) = true ↔ ∀ name ∈ a.freeVariables d, ∀ x, x ≠ d →
        a.isAncestorOrSelf x d = true → a.isAncestorOrSelf u x = true →
        ∀ n, a.node? x = some n → ∀ v ∈ n.content.bound, a.varName? v ≠ some name) := by
  have w := h.wf
  constructor
  · intro id name hid
    obtain ⟨n, hn⟩ := contains_iff.1 hid
    obtain ⟨t, ht⟩ := w.exists_tree hn
    rw [freeVariables_eq ht, Tree.mem_freeVariables, w.mem_freeNames_iff ht]
    refine exists_congr fun d => and_congr_right fun hd => and_congr_right fun hk => ?_
    obtain ⟨m, hm, -⟩ := kind?_eq_some.1 hk
    obtain ⟨u, hu⟩ := w.exists_tree hm
    have hkind : u.kind = .var name := Option.some.inj ((kind?_of_tree hu).symm.trans hk)
    rw [w.isFree_iff_boundBetween hm (w.under_of_reaches hd), freeVariables_eq hu]
    simp only [Tree.mem_freeVariables, Tree.freeNames_var hkind, List.mem_singleton, forall_eq]
  · intro d u hd hu _
    obtain ⟨n, hn⟩ := contains_iff.1 hd
    simp only [w.acyclic.isAncestorOrSelf_iff] at hu ⊢
    rw [w.isFree_iff_boundBetween hn hu]
    refine forall₂_congr fun name _ => ?_
    simp only [BoundBetween, mem_boundNames, not_exists, not_and, ne_eq]

/-- The body of a binding has a free variable that is not free with respect to the binding. -/
theorem freeVariables_identity :
    (∃ d, identity.Reaches 2 d ∧ identity.kind? d = some (.var "x") ∧
      identity.isFree d (some 2) = true) ∧ ¬ identity.isFree 2 (some 3) = true := by
  obtain ⟨hnames, hfree⟩ := reachable_identity.freeVariables_iff
  have hx : "x" ∈ identity.freeVariables 2 := by
    have h : identity.freeVariables 2 = ["x"] := by cbv
    rw [h]
    exact List.mem_singleton_self "x"
  refine ⟨(hnames 2 "x" rfl).1 hx, fun h => ?_⟩
  have hup : identity.isAncestorOrSelf 3 2 = true := by cbv
  have hself : identity.isAncestorOrSelf 3 3 = true := by cbv
  exact (hfree 2 3 rfl hup (by decide)).1 h "x" hx 3 (by decide) hup hself _ rfl 1
    (List.mem_singleton_self 1) rfl

end OpenMath.Arena
