/-
  Trials.

  Whether a node could take the slot of another is answered without an edit: names are
  looked up on the way upwards as it is, where a slot whose variable the edit would
  rename is taken to hold the new name already.  The answer is the one that a trial
  gives, in which a copy of the node is put into the slot and then tested for freeness.

  * `Acyclic.isCaptured_congr`: what a search upwards depends on;
  * `replaceWith_notAdmitted`: a slot that does not admit a node is left alone;
  * `Planted.boundNames_swap`: what is bound above the slot after the edit, by the arena
    before it;
  * `Planted.isFree_swap`: freeness after the edit;
  * `Reachable.isFreeToReplace_trial`: the answer and the trial.
-/
import OpenMath.Proofs.Arena.Addresses
import OpenMath.Proofs.Arena.CaptureAvoidance

namespace OpenMath.Arena

variable {a b c : Arena} {id other p q x : NodeId} {n : Node} {u t : Tree NodeId} {l : Location}
  {upto : Option NodeId} {free : List String} {o o' : Option Override}

/-! ## The search upwards -/

/-- A search upwards depends on the chain above its start, and on the names that are
    bound there. -/
theorem Acyclic.isCaptured_congr (h : a.Acyclic)
    (hp : ∀ x, a.Under x p → b.parent? x = a.parent? x)
    (hk : ∀ x, a.Under x p → b.isBinding x = a.isBinding x)
    (hb : ∀ x, a.Under x p → b.boundNames x o' = a.boundNames x o) :
    b.isCaptured free upto o' (some p) = a.isCaptured free upto o (some p) := by
  induction p using h.induction with
  | _ p ih =>
    rw [isCaptured, isCaptured, hk p .refl, hb p .refl, hp p .refl]
    cases hq : a.parent? p with
    | none => rw [isCaptured, isCaptured]
    | some q =>
      have hu {x : NodeId} (u : a.Under x q) : a.Under x p := .step hq u
      rw [ih q hq (fun x u => hp x (hu u)) (fun x u => hk x (hu u)) fun x u => hb x (hu u)]

theorem boundName?_overrideOf {k : Kind} (hf : l.role.admits k = true) (v : NodeId) (i : Nat) :
    a.boundName? q (overrideOf p l k) (v, i) =
      if q = p ∧ l = .bound i then k.varName? else a.varName? v := by
  cases l with
  | bound j =>
    cases k with
    | var name => simp [overrideOf, boundName?, Kind.varName?, eq_comm]
    | _ => cases hf
  | _ => simp [overrideOf, boundName?]

theorem boundNames_eq_override {m : Node} (hn : a.node? q = some n) (hm : b.node? q = some m)
    {f : NodeId → NodeId} (hf : m.content.bound = n.content.bound.map f)
    (h : ∀ i v, n.content.bound[i]? = some v → b.varName? (f v) = a.boundName? q o (v, i)) :
    b.boundNames q none = a.boundNames q o := by
  rw [boundNames_eq hm, hf, List.filterMap_map]
  simp only [boundNames, hn]
  conv_lhs => rw [← List.zipIdx_map_fst 0 n.content.bound]
  rw [List.filterMap_map]
  refine List.filterMap_congr ?_
  rintro ⟨v, i⟩ hv
  exact h i v (List.mk_mem_zipIdx_iff_getElem?.1 hv)

/-! ## The edit -/

/-- A node does not take a slot that does not admit it. -/
theorem replaceWith_notAdmitted (hne : id ≠ other) {k : Kind} (hk : a.kind? other = some k)
    (hp : a.parent? id = some p) (hl : a.locationIn? p id = some l)
    (hf : l.role.admits k = false) :
    ∃ fault, replaceWith id other a = some (.error (.refused fault), a) := by
  obtain ⟨fault, hfault⟩ : ∃ fault, admissionFault? l.role k = some fault := by
    refine Option.ne_none_iff_exists'.1 fun h => ?_
    rw [admissionFault?_eq_none, hf] at h
    exact Bool.false_ne_true h
  refine ⟨fault, ?_⟩
  rw [replaceWith, Edit.bind_ok (Edit.get_run a), if_neg hne]
  simp only [hk, hp, hl, hfault]
  rfl

section
variable (w : a.Wf) (hpl : Planted a b [u]) (hs : Remapped (swap p id u.label) b c)
include hpl hs

theorem Planted.kind?_swap (hx : x < a.next) : c.kind? x = a.kind? x := by
  rw [hs.kind? (kind_swap p id u.label), kind?, hpl.old x hx, kind?]

variable (hp : a.parent? id = some p)
include w hp

theorem Planted.node?_swap (hq : a.Under q p) (hn : a.node? q = some n) :
    c.node? q = some (if q = p then n.rename id u.label else n) := by
  have hlt : q < a.next := node?_lt hn
  have hne : q ≠ u.label := fun e => hpl.not_mem hlt (e ▸ u.label_mem_labels)
  have hid : q ≠ id := by
    rintro rfl
    exact w.acyclic.not_under hp hq
  rw [hs q, hpl.old q hlt, hn, Option.map_some, swap]
  split_ifs <;> rfl

/-- The names that are bound above the slot after the edit are those that were bound there
    before, with the slot overridden. -/
theorem Planted.boundNames_swap (hl : a.locationIn? p id = some l)
    (hf : l.role.admits u.kind = true) (hq : a.Under q p) (hn : a.node? q = some n) :
    c.boundNames q none = a.boundNames q (overrideOf p l u.kind) := by
  have hold {v : NodeId} (hv : v ∈ n.content.bound) : c.varName? v = a.varName? v := by
    obtain ⟨m, hm, -⟩ := w.node?_of_mem hn (Node.mem_owned_of_bound hv)
    rw [varName?, varName?, hpl.kind?_swap hs (node?_lt hm)]
  have hnode := hpl.node?_swap w hs hp hq hn
  by_cases hqp : q = p
  · subst hqp
    rw [if_pos rfl] at hnode
    obtain ⟨l', hl', hat⟩ := w.childAt?_locationIn? hp
    cases hl.symm.trans hl'
    have hat : n.at? l = some id := by simpa [childAt?, hn] using hat
    refine boundNames_eq_override hn hnode (Content.bound_map ..) ?_
    intro i v hv
    have hvat : n.at? (.bound i) = some v := hv
    rw [boundName?_overrideOf hf]
    by_cases hv' : v = id
    · -- the variable that is replaced
      subst hv'
      have hslot : l = .bound i := by
        have := Node.agrees_of_at? (w.owned_nodup hn) hat hvat
        cases l <;> exact this
      rw [if_pos rfl, if_pos ⟨rfl, hslot⟩, varName?, hs.kind? (kind_swap q v u.label),
        kind?_of_tree (hpl.tree u (List.mem_singleton_self u)), Option.bind_some]
    · have hslot : l ≠ .bound i := by
        rintro rfl
        exact hv' (Option.some.inj (hvat.symm.trans hat))
      rw [if_neg hv', if_neg fun h => hslot h.2, hold (List.mem_of_getElem? hv)]
  · rw [if_neg hqp] at hnode
    refine boundNames_eq_override hn hnode (List.map_id' _).symm ?_
    intro i v hv
    rw [boundName?_overrideOf hf, if_neg fun h => hqp h.1, hold (List.mem_of_getElem? hv)]

/-- A search upwards from the slot finds after the edit what it found before, with the slot
    overridden. -/
theorem Planted.isCaptured_swap (hl : a.locationIn? p id = some l)
    (hf : l.role.admits u.kind = true) :
    c.isCaptured free upto none (some p) =
      a.isCaptured free upto (overrideOf p l u.kind) (some p) := by
  obtain ⟨m, hm⟩ := w.live hp
  have hlive {x : NodeId} (hx : a.Under x p) : ∃ n, a.node? x = some n := w.live_of_under hm hx
  refine w.acyclic.isCaptured_congr ?_ ?_ ?_
  · intro x hx
    obtain ⟨n, hn⟩ := hlive hx
    rw [parent?, hpl.node?_swap w hs hp hx hn, parent?, hn, Option.bind_some, Option.bind_some]
    split_ifs <;> rfl
  · intro x hx
    obtain ⟨n, hn⟩ := hlive hx
    rw [isBinding, isBinding, hpl.kind?_swap hs (node?_lt hn)]
  · intro x hx
    obtain ⟨n, hn⟩ := hlive hx
    exact hpl.boundNames_swap w hs hp hl hf hx hn

/-- What took the slot is free there if the search upwards with the slot overridden finds no
    free variable of it. -/
theorem Planted.isFree_swap (hl : a.locationIn? p id = some l)
    (hf : l.role.admits u.kind = true) :
    c.isFree u.label upto = (upto == some u.label ||
      !a.isCaptured u.freeVariables upto (overrideOf p l u.kind) (some p)) := by
  have hrep := hpl.replaces w hp hl hf
  obtain ⟨n, hn⟩ := w.live hp
  have hout : p ∉ u.labels := hpl.not_mem (node?_lt hn)
  have hpu : c.parent? u.label = some p := by
    rw [parent?_swap hs (hpl.wf.acyclic.parent?_ne hrep.parent)
      (fun e => hout (e ▸ u.label_mem_labels)) hrep.live, if_pos rfl]
  have hcu : c.tree? u.label = some u :=
    tree?_swap hs (hpl.tree u (List.mem_singleton_self u)) hout
  rw [isFree, freeVariables_eq hcu, hpu, hpl.isCaptured_swap w hs hp hl hf]

end

/-! ## The trial -/

theorem Planted.replaceWith_refused (w : a.Wf) (hpl : Planted a b [u]) (hp : a.parent? id = some p)
    (hl : a.locationIn? p id = some l) (hf : l.role.admits u.kind = false) :
    ∃ fault, replaceWith id u.label b = some (.error (.refused fault), b) := by
  obtain ⟨m, hm, -⟩ := node?_of_parent? hp
  obtain ⟨n, hn⟩ := w.live hp
  have hid : id < a.next := node?_lt hm
  have hne : id ≠ u.label := fun e => hpl.not_mem hid (e ▸ u.label_mem_labels)
  have hk : b.kind? u.label = some u.kind := kind?_of_tree (hpl.tree u (List.mem_singleton_self u))
  exact replaceWith_notAdmitted hne hk ((hpl.parent?_old hid).trans hp)
    ((hpl.locationIn?_old (node?_lt hn) hid).trans hl) hf

theorem Planted.replaceWith_done (w : a.Wf) (hpl : Planted a b [u]) (hp : a.parent? id = some p)
    (hl : a.locationIn? p id = some l) (hf : l.role.admits u.kind = true) :
    ∃ c, replaceWith id u.label b = some (.ok (some id), c) ∧
      Remapped (swap p id u.label) b c := by
  obtain ⟨b', c, hd, hrun, hrem, -, -⟩ := hpl.wf.replaceWith_ok (hpl.replaces w hp hl hf)
  refine ⟨c, hrun, ?_⟩
  intro x
  rw [hrem x, hd.node?_of_root (hpl.root u (List.mem_singleton_self u))]

theorem Planted.copied (w : a.Wf) (hpl : Planted a b [u]) (ht : a.tree? id = some t) {k : Term}
    (hk : t.copy = .ok k) (hu : u.toTerm = k) :
    u.kind = t.kind ∧ u.freeVariables = t.freeVariables := by
  have hs := hpl.wf.shaped (hpl.tree u (List.mem_singleton_self u))
  obtain ⟨-, hkind, hnames⟩ := (w.shaped ht).of_copy hk
  rw [← hu, Tree.toTerm] at hkind hnames
  constructor
  · rwa [Tree.kind_mapLabels] at hkind
  · rw [hs.freeNames_rearranged (Tree.rearranges_mapLabels _)] at hnames
    rw [Tree.freeVariables, Tree.freeVariables, hnames]

/-- A node could take the slot of another one if and only if a copy of it does, and then is
    free there; with respect to itself, if names were to be looked up to the other node.
    Anything may take the place of a root.  The copy has an identity that was never given
    before, and so none at which the way upwards could have been said to end. -/
theorem Reachable.isFreeToReplace_trial (h : a.Reachable) {r s : NodeId} (hr : a.Copyable r)
    (hne : r ≠ s) (upto : Option NodeId) :
    (a.parent? s = none → a.isFreeToReplace r s upto = true) ∧
      (a.parent? s ≠ none → ∃ x b result c,
        copy r a = some (.ok x, b) ∧ a.next ≤ x ∧
        replaceWith s x b = some (result, c) ∧
        (result = .ok (some s) ∨ ∃ fault, result = .error (.refused fault)) ∧
        (upto ≠ some x → (a.isFreeToReplace r s upto = true ↔ result = .ok (some s) ∧
          c.isFree x (if upto = some s then some x else upto) = true))) := by
  have w := h.wf
  refine ⟨isFreeToReplace_root, ?_⟩
  intro hp
  obtain ⟨p, hp⟩ := Option.ne_none_iff_exists'.1 hp
  obtain ⟨n, l, hn, hl, -⟩ := w.locationIn?_spec hp
  obtain ⟨t, k, ht, hk⟩ := w.copyable_iff.1 hr
  obtain ⟨u, b, hcopy, hpl, hu⟩ := w.copy_ok ht hk
  obtain ⟨hkind, hfree⟩ := hpl.copied w ht hk hu
  have hnew : a.next ≤ u.label := hpl.lt_of_mem u.label_mem_labels
  have htest : a.isFreeToReplace r s upto = (l.role.admits u.kind && (upto == some s ||
      !a.isCaptured u.freeVariables upto (overrideOf p l u.kind) (some p))) := by
    simp only [isFreeToReplace, if_neg hne, hp, hl, kind?_of_tree ht, freeVariables_eq ht, hkind,
      hfree]
  cases hf : l.role.admits u.kind with
  | false =>
    obtain ⟨fault, hrun⟩ := hpl.replaceWith_refused w hp hl hf
    refine ⟨u.label, b, _, b, hcopy, hnew, hrun, .inr ⟨fault, rfl⟩, fun _ => ?_⟩
    simp [htest, hf]
  | true =>
    obtain ⟨c, hrun, hs⟩ := hpl.replaceWith_done w hp hl hf
    refine ⟨u.label, b, _, c, hcopy, hnew, hrun, .inl rfl, fun hx => ?_⟩
    rw [htest, hf, hpl.isFree_swap w hs hp hl hf]
    by_cases hup : upto = some s
    · simp [hup]
    · simp [hup, hx]

/-- A variable is bound where it would take the place of the body. -/
theorem isFreeToReplace_identity :
    ∃ x b result c, copy 1 identity = some (.ok x, b) ∧ replaceWith 2 x b = some (result, c) ∧
      (identity.isFreeToReplace 1 2 none = true ↔
        result = .ok (some 2) ∧ c.isFree x none = true) := by
  have hcopy : identity.Copyable 1 :=
    ⟨4, ⟨identity.places.push (some ⟨.var "x", [], none⟩)⟩, by cbv⟩
  obtain ⟨x, b, result, c, hrun, -, hreplace, -, h⟩ :=
    (reachable_identity.isFreeToReplace_trial hcopy (by decide : 1 ≠ 2) none).2 (by decide)
  exact ⟨x, b, result, c, hrun, hreplace, h (by simp)⟩

end OpenMath.Arena
