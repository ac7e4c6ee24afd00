/-
  The names in scope at a node.

  The tests for freeness climb from a node.  What they find depends only on the
  names that the bindings above the node bind, up to and including a given
  node; above that node itself no names count.

  * `scope?`: these names;
  * `Wf.isFree_iff`: a node is free if none of its free names is in scope;
  * `Wf.isFreeToReplace_iff`: a node may take the slot of another if the slot
    admits it and none of its free names is in scope there.
-/
import OpenMath.Proofs.Arena.Trees
import OpenMath.Arena.Scope

namespace OpenMath.Arena

variable {a b : Arena} {id p x y : NodeId} {n : Node} {names free : List String}
  {upto : Option NodeId}

/-- The names that are bound by the nodes above a node, the nearest one first, up
    to and including a given node; none if there is no end to the way up. -/
def scope? (a : Arena) (upto : Option NodeId) (id : NodeId) : Option (List String) :=
  if upto = some id then some []
  else match a.parent? id with
    | none => some []
    | some p => do
      let names ← a |>.scope? upto p
      return a.boundNames p none ++ names
partial_fixpoint

/-! ## Bound names -/

theorem boundNames_eq (h : a.node? id = some n) :
    a.boundNames id none = n.content.bound.filterMap a.varName? := by
  simp only [boundNames, h]
  have key (xs : List NodeId) (k : Nat) :
      (xs.zipIdx k).filterMap (a.boundName? id none) = xs.filterMap a.varName? := by
    induction xs generalizing k with
    | nil => rfl
    | cons x xs ih => simp only [List.zipIdx_cons, List.filterMap_cons, ih, boundName?]
  exact key _ 0

theorem mem_boundNames {name : String} :
    name ∈ a.boundNames id none ↔
      ∃ n, a.node? id = some n ∧ ∃ v ∈ n.content.bound, a.varName? v = some name := by
  cases h : a.node? id with
  | none => simp [boundNames, h]
  | some n => simp [boundNames_eq h]

theorem kind?_of_tree {t : Tree NodeId} (h : a.tree? id = some t) : a.kind? id = some t.kind := by
  obtain ⟨n, hn, hk, -⟩ := exists_node_of_tree h
  rw [kind?, hn, Option.map_some, hk]

theorem boundNames_roots {cs : Content (Tree NodeId)} {as : List (Symbol × Tree NodeId)}
    (hn : a.node? id = some n) (hr : a.Roots n cs as) :
    a.boundNames id none = Tree.namesOf cs.bound := by
  rw [boundNames_eq hn, hr.content, Content.bound_map, List.filterMap_map, Tree.namesOf]
  refine List.filterMap_congr fun u hu => ?_
  rw [Function.comp_apply, varName?,
    kind?_of_tree (hr.part u (Content.mem_structural_of_bound hu))]
  rfl

theorem isBinding_of_mem {name : String} (h : name ∈ a.boundNames id none) :
    a.isBinding id = true := by
  obtain ⟨n, hn, v, hv, -⟩ := mem_boundNames.1 h
  have hk : n.kind = .binding := by
    rw [Node.kind]
    cases hc : n.content with
    | binding => rfl
    | _ => simp [hc, Content.bound] at hv
  simp [isBinding, kind?, hn, hk]

/-! ## Scopes -/

theorem scope?_self (a : Arena) (id : NodeId) : a.scope? (some id) id = some [] := by
  rw [scope?, if_pos rfl]

theorem scope?_root (hp : a.parent? id = none) : a.scope? upto id = some [] := by
  rw [scope?, hp]
  simp

theorem scope?_of_parent (hp : a.parent? id = some p) (h : a.scope? upto p = some names) :
    a.scope? upto id = some (if upto = some id then [] else a.boundNames p none ++ names) := by
  rw [scope?]
  split_ifs
  · rfl
  · simp [hp, h]

theorem Acyclic.exists_scope (h : a.Acyclic) (upto : Option NodeId) (id : NodeId) :
    ∃ names, a.scope? upto id = some names := by
  induction id using h.induction with
  | _ id ih =>
    cases hp : a.parent? id with
    | none => exact ⟨[], scope?_root hp⟩
    | some p =>
      obtain ⟨names, hn⟩ := ih p hp
      exact ⟨_, scope?_of_parent hp hn⟩

/-- The scope at a node depends on the chain above it and on what is bound
    there. -/
theorem Acyclic.scope?_congr (h : a.Acyclic) (hp : ∀ x, a.Under x id → b.parent? x = a.parent? x)
    (hb : ∀ x y, a.parent? y = some x → a.Under y id →
      b.boundNames x none = a.boundNames x none) :
    b.scope? upto id = a.scope? upto id := by
  induction id using h.induction with
  | _ id ih =>
    rw [scope?, scope?, hp id .refl]
    split_ifs
    · rfl
    · cases hq : a.parent? id with
      | none => rfl
      | some q =>
        simp only
        have hu {x : NodeId} (u : a.Under x q) : a.Under x id := .step hq u
        rw [ih q hq (fun x u => hp x (hu u)) fun x y hy u => hb x y hy (hu u), hb q id hq .refl]

/-! ## The tests -/

/-- The search upwards finds a name that is bound at its start or in scope
    there. -/
theorem Acyclic.isCaptured_iff (h : a.Acyclic) (hs : a.scope? upto p = some names) :
    a.isCaptured free upto none (some p) = true ↔
      ∃ name ∈ free, name ∈ a.boundNames p none ++ names := by
  induction p using h.induction generalizing names with
  | _ p ih =>
    have hcond : (a.isBinding p && free.any (a.boundNames p none).contains) = true ↔
        ∃ name ∈ free, name ∈ a.boundNames p none := by
      simp only [Bool.and_eq_true, List.any_eq_true, List.contains_eq_mem, decide_eq_true_eq]
      exact ⟨And.right, fun ⟨name, hf, hb⟩ => ⟨isBinding_of_mem hb, name, hf, hb⟩⟩
    rw [isCaptured]
    simp only [List.mem_append, and_or_left, exists_or]
    split_ifs with h1 h2
    · exact iff_of_true rfl (.inl (hcond.1 h1))
    · rw [h2, scope?_self] at hs
      cases hs
      simpa using mt hcond.2 h1
    · rw [or_iff_right (mt hcond.2 h1)]
      cases hq : a.parent? p with
      | none =>
        rw [scope?_root hq] at hs
        cases hs
        simp [isCaptured]
      | some q =>
        obtain ⟨names', hn⟩ := h.exists_scope upto q
        rw [scope?_of_parent hq hn, if_neg h2] at hs
        cases hs
        exact ih q hq hn

theorem freeVariables_eq {t : Tree NodeId} (h : a.tree? id = some t) :
    a.freeVariables id = t.freeVariables := by
  rw [freeVariables, h]
  rfl

/-- A node is free if none of its free names is in scope. -/
theorem Wf.isFree_iff (w : a.Wf) {t : Tree NodeId} (ht : a.tree? id = some t)
    (hs : a.scope? upto id = some names) :
    a.isFree id upto = true ↔ ∀ name ∈ t.freeNames, name ∉ names := by
  rw [isFree, Bool.or_eq_true, beq_iff_eq, Bool.not_eq_true', ← Bool.not_eq_true]
  cases hp : a.parent? id with
  | none =>
    rw [scope?_root hp] at hs
    cases hs
    simp [isCaptured]
  | some p =>
    obtain ⟨names', hn⟩ := w.acyclic.exists_scope upto p
    rw [scope?_of_parent hp hn] at hs
    rw [w.acyclic.isCaptured_iff hn, freeVariables_eq ht]
    simp only [Tree.mem_freeVariables]
    split_ifs at hs with h
    · cases hs
      simp [h]
    · cases hs
      simp [h]

theorem isFreeToReplace_root (hp : a.parent? id = none) : a.isFreeToReplace x id upto = true := by
  rw [isFreeToReplace, hp]
  simp

/-- A node may take the slot of another if the slot admits it, and if none of its
    free names is in scope there.  This holds of the slot of a bound variable only
    where scopes end at the variable; elsewhere the variable would be renamed. -/
theorem Wf.isFreeToReplace_iff (w : a.Wf) {r : Tree NodeId} (hr : a.tree? x = some r)
    (hne : x ≠ id) (hp : a.parent? id = some p) {l : Location} (hl : a.locationIn? p id = some l)
    (hb : l.role = .bound → upto = some id) (hs : a.scope? upto id = some names) :
    a.isFreeToReplace x id upto = true ↔
      l.role.admits r.kind = true ∧ ∀ name ∈ r.freeNames, name ∉ names := by
  obtain ⟨names', hn⟩ := w.acyclic.exists_scope upto p
  rw [scope?_of_parent hp hn] at hs
  simp only [isFreeToReplace, if_neg hne, hp, hl, kind?_of_tree hr, Bool.and_eq_true,
    Bool.or_eq_true, beq_iff_eq, Bool.not_eq_true']
  refine and_congr_right fun _ => ?_
  split_ifs at hs with h
  · cases hs
    simp [h]
  · have ho : overrideOf p l r.kind = none := by
      unfold overrideOf
      split
      · exact absurd (hb rfl) h
      · rfl
    cases hs
    rw [ho, or_iff_right h, ← Bool.not_eq_true, w.acyclic.isCaptured_iff hn, freeVariables_eq hr]
    simp only [Tree.mem_freeVariables]
    simp

end OpenMath.Arena
