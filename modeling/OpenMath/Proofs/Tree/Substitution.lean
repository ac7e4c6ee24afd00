/-
  Substitution on trees.

  What is to be replaced is looked for from the top.  The names that are bound
  above a tree are carried along; they are forgotten at the node up to which
  bindings count.  A binding binds its names in all of its slots.

  * `Substitution.apply`: the tree after the substitution, where the nodes that
    are kept are told from those that are new;
  * `apply_rooted`: its equation at a node.
-/
import OpenMath.Proofs.Tree.Shaped

namespace OpenMath

/-! ## Contents part by part -/

namespace Content

variable {α β : Type}

/-- The same content with other parts, where a part may change according to its
    role. -/
def mapRoles (f : Role → α → β) : Content α → Content β
  | integer v => integer v
  | float x => float x
  | string s => string s
  | byteArray bs => byteArray bs
  | symbol s => symbol s
  | var name => var name
  | application cs => application (cs.map (f .child))
  | binding h vs b => binding (h.map (f .head)) (vs.map (f .bound)) (b.map (f .body))
  | error h cs => error (h.map (f .head)) (cs.map (f .child))

@[simp] theorem kind_mapRoles (f : Role → α → β) (c : Content α) : (c.mapRoles f).kind = c.kind := by
  cases c <;> rfl

theorem mapRoles_eq_var {f : Role → α → β} {c : Content α} {name : String} :
    c.mapRoles f = .var name ↔ c = .var name := by
  cases c <;> simp [mapRoles]

theorem children_mapRoles (f : Role → α → β) (c : Content α) :
    (c.mapRoles f).children = c.children.map (f .child) := by
  cases c <;> rfl

theorem head?_mapRoles (f : Role → α → β) (c : Content α) :
    (c.mapRoles f).head? = c.head?.map (f .head) := by
  cases c <;> rfl

theorem bound_mapRoles (f : Role → α → β) (c : Content α) :
    (c.mapRoles f).bound = c.bound.map (f .bound) := by
  cases c <;> rfl

theorem body?_mapRoles (f : Role → α → β) (c : Content α) :
    (c.mapRoles f).body? = c.body?.map (f .body) := by
  cases c <;> rfl

theorem slots_mapRoles (f : Role → α → β) (c : Content α) :
    (c.mapRoles f).slots = c.slots.map fun s => ⟨s.role, f s.role s.content⟩ := by
  cases c <;>
    simp [mapRoles, slots, placed, children, head?, bound, body?, Option.toList_map,
      Function.comp_def]

theorem mapRoles_congr {f g : Role → α → β} {c : Content α}
    (h : ∀ s ∈ c.slots, f s.role s.content = g s.role s.content) :
    c.mapRoles f = c.mapRoles g := by
  obtain ⟨hc, hh, hv, hb⟩ := (forall_slots (P := fun r x => f r x = g r x)).1 h
  cases c with
  | application cs => exact congrArg application (List.map_congr_left hc)
  | binding hd vs b =>
    have hh : hd.map (f .head) = hd.map (g .head) := Option.map_congr hh
    have hv : vs.map (f .bound) = vs.map (g .bound) := List.map_congr_left hv
    have hb : b.map (f .body) = b.map (g .body) := Option.map_congr hb
    rw [mapRoles, mapRoles, hh, hv, hb]
  | error hd cs =>
    have hh : hd.map (f .head) = hd.map (g .head) := Option.map_congr hh
    have hc : cs.map (f .child) = cs.map (g .child) := List.map_congr_left hc
    rw [mapRoles, mapRoles, hh, hc]
  | _ => rfl

theorem map_eq_mapRoles (g : α → β) (c : Content α) : c.map g = c.mapRoles fun _ => g := by
  cases c <;> rfl

theorem mapRoles_mapRoles {γ : Type} (f : Role → α → β) (g : Role → β → γ) (c : Content α) :
    (c.mapRoles f).mapRoles g = c.mapRoles fun role u => g role (f role u) := by
  cases c <;> simp [mapRoles, Function.comp_def]

end Content

/-! ## Substitution -/

/-- What is to be replaced, and by what; bindings count up to a given node, or all
    the way up. -/
structure Substitution (ι : Type) where
  target : Tree ι
  replacement : Term
  upto : Option ι

namespace Substitution

open OpenMath.Tree

variable {ι : Type} (σ : Substitution ι)

/-- A tree is to be replaced if it equals the target and none of its free names is
    in scope. -/
def hits (t : Tree ι) (names : List String) : Bool :=
  t.equals true σ.target && t.freeNames.all fun name => !names.contains name

/-- The replacement may stand in a slot if the slot admits it and none of its free
    names is in scope; at the top there is no slot. -/
def fits (names : List String) (role : Option Role) : Bool :=
  role.all (·.admits σ.replacement.kind) &&
    σ.replacement.freeNames.all fun name => !names.contains name

/-- The names that count at a tree, of those that are bound above it. -/
def scope [DecidableEq ι] (t : Tree ι) (above : List String) : List String :=
  if σ.upto = some t.label then [] else above

/-- A slot after the substitution, given the tree in it and the results for that
    tree.  Attributes are kept. -/
def rewriteSlot (names : List String)
    (s : Slot (Tree ι × (List String → Option Role → Tree (Option ι)))) :
    Slot (Tree (Option ι)) :=
  match s.role with
  | .attr _ => s.map fun r => r.1.mapLabels some
  | role => s.map fun r => r.2 names (some role)

/-- A tree after the substitution, given the names that are bound above it and its
    role.  A node that is kept is labelled by itself, a new one by none. -/
def apply [DecidableEq ι] : Tree ι → List String → Option Role → Tree (Option ι) :=
  recurse fun t ss above role =>
    let names := σ.scope t above
    if σ.hits t names then
      if σ.fits names role then σ.replacement.mapLabels fun _ => none else t.mapLabels some
    else .node (some t.label) t.kind (ss.map (rewriteSlot (t.boundNames ++ names)))

variable {σ}

theorem hits_iff {t : Tree ι} {names : List String} :
    σ.hits t names = true ↔ t.equals true σ.target = true ∧ ∀ name ∈ t.freeNames, name ∉ names := by
  simp [hits]

theorem hits_var {l : ι} {as : List (Symbol × Tree ι)} {name : String} {names : List String}
    (h : name ∈ names) : σ.hits (rooted l (.var name) as) names = false := by
  rw [← Bool.not_eq_true, hits_iff, freeNames_rooted]
  intro hh
  exact hh.2 name (List.mem_singleton_self _) h

theorem fits_iff {names : List String} {role : Option Role} :
    σ.fits names role = true ↔ (∀ r, role = some r → r.admits σ.replacement.kind = true) ∧
      ∀ name ∈ σ.replacement.freeNames, name ∉ names := by
  cases role <;> simp [fits]

variable [DecidableEq ι]

theorem apply_eq (t : Tree ι) (above : List String) (role : Option Role) :
    σ.apply t above role =
      if σ.hits t (σ.scope t above) then
        if σ.fits (σ.scope t above) role then σ.replacement.mapLabels fun _ => none
        else t.mapLabels some
      else .node (some t.label) t.kind (t.slots.map fun s =>
        rewriteSlot (t.boundNames ++ σ.scope t above) (s.map fun u => (u, σ.apply u))) := by
  rw [apply, recurse_eq]
  simp only [Slots.mapContent, List.map_map]
  rfl

theorem apply_replaced {t : Tree ι} {above : List String} {role : Option Role}
    (hh : σ.hits t (σ.scope t above) = true) (hf : σ.fits (σ.scope t above) role = true) :
    σ.apply t above role = σ.replacement.mapLabels fun _ => none := by
  rw [apply_eq, if_pos hh, if_pos hf]

theorem apply_kept {t : Tree ι} {above : List String} {role : Option Role}
    (hh : σ.hits t (σ.scope t above) = true) (hf : σ.fits (σ.scope t above) role = false) :
    σ.apply t above role = t.mapLabels some := by
  rw [apply_eq, if_pos hh, if_neg (by simp [hf])]

/-- Elsewhere the search goes on in the parts of the node. -/
theorem apply_rooted {l : ι} {c : Content (Tree ι)} {as : List (Symbol × Tree ι)}
    {above : List String} {role : Option Role}
    (hh : σ.hits (rooted l c as) (σ.scope (rooted l c as) above) = false) :
    σ.apply (rooted l c as) above role =
      rooted (some l)
        (c.mapRoles fun r u =>
          σ.apply u (namesOf c.bound ++ σ.scope (rooted l c as) above) (some r))
        (as.map fun e => (e.1, e.2.mapLabels some)) := by
  rw [apply_eq, if_neg (by simp [hh])]
  set names := namesOf c.bound ++ σ.scope (rooted l c as) above with hnames
  have hslots : c.slots.map (fun s => rewriteSlot names (s.map fun u => (u, σ.apply u))) =
      (c.mapRoles fun r u => σ.apply u names (some r)).slots := by
    rw [Content.slots_mapRoles]
    refine List.map_congr_left fun s hs => ?_
    have hr := Content.role_ne_attr hs
    obtain ⟨role, u⟩ := s
    cases role with
    | attr key => exact absurd rfl (hr key)
    | _ => rfl
  rw [slots_rooted, boundNames_rooted, ← hnames, label_rooted, kind_rooted, rooted,
    Content.kind_mapRoles, Content.allSlots, Content.allSlots, ← hslots]
  simp [Content.attributeSlots, rewriteSlot, Slot.map, Function.comp_def]

/-- At a variable whose name is in scope it does not matter which other names
    are. -/
theorem apply_variable {t : Tree ι} (ht : t.Shaped) {name : String} (hk : t.kind = .var name)
    {above above' : List String} (h : name ∈ above) (h' : name ∈ above') (role : Option Role) :
    σ.apply t above role = σ.apply t above' role := by
  obtain ⟨l, c, as, -, -, -, -⟩ := ht
  obtain rfl : c = .var name := by
    cases c <;> cases hk
    rfl
  by_cases hu : σ.upto = some l
  · have hs (names : List String) : σ.scope (rooted l (.var name) as) names = [] := if_pos hu
    simp only [apply_eq, hs]
  · have hs (names : List String) : σ.scope (rooted l (.var name) as) names = names := if_neg hu
    rw [apply_rooted (by rw [hs]; exact hits_var h), apply_rooted (by rw [hs]; exact hits_var h')]
    rfl

end Substitution

end OpenMath
