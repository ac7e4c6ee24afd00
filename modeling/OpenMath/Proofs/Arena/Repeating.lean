/-
  A substitution done twice.

  What a substitution for a variable makes is where the tree was that it was made of, and
  the variable and the replacement, if they are in other trees, are left alone.  So the
  second run is one on the term that the first run made, and on that there is nothing left
  to do, provided that the replacement does not bring in the variable: an occurrence that
  was refused is refused again.

  * `Outcome.tree?_of_root`: other trees are left alone;
  * `Outcome.role_eq`: what is made is where the tree was;
  * `Exchangeable.replaceFree_settled`: where nothing is left to do, nothing is done;
  * `Reachable.replaceFree_idempotent`: the second run changes nothing.
-/
import OpenMath.Proofs.Arena.Displacing
import OpenMath.Proofs.Arena.Independence

namespace OpenMath.Arena

open OpenMath.Tree

variable {a b : Arena} {id x y r : NodeId} {n : Node} {t t' u : Tree NodeId} {name : String}
  {new : Term} {σ : Substitution NodeId} {names : List String}

/-! ## What a substitution leaves alone -/

/-- A tree whose top is a root stays as it is, if what is replaced is not inside it. -/
theorem Outcome.tree?_of_root (h : Outcome σ names t t' a b) (w : a.Wf)
    (ht : a.tree? t.label = some t) (hu : a.tree? y = some u) (hroot : a.parent? y = none)
    (hout : ¬ a.Under y t.label) : b.tree? y = some u := by
  refine tree?_congr hu fun z hz m hm => ⟨m, ?_, rfl, rfl⟩
  have hyz : a.Under y z := (w.mem_labels hu).1 hz
  rw [h.frame (node?_lt hm), hm]
  · intro hzt
    rcases hyz.total ((w.mem_labels ht).1 hzt) with hu | hu
    · exact hout hu
    · rcases hu.cases_parent with e | ⟨p, hp, -⟩
      · exact hout (e ▸ .refl)
      · cases hroot.symm.trans hp
  · intro hp
    exact hout (hyz.trans (.of_parent hp))

/-- What a substitution makes is in the slot in which the tree was. -/
theorem Outcome.role_eq (h : Outcome σ names t t' a b) (w : a.Wf) :
    (b.location? t'.label).map Location.role = (a.location? t.label).map Location.role := by
  rw [location?, location?, h.parent]
  cases hp : a.parent? t.label with
  | none => rfl
  | some p =>
    have hrew : Rewritten t t' a b := by
      rwa [Outcome, hp, if_neg (by simp)] at h
    obtain ⟨n, l, hn, hl, hs⟩ := w.locationIn?_spec hp
    obtain ⟨m, l', hm, hl', hs'⟩ := h.wf.locationIn?_spec (h.parent.trans hp)
    have hm' := hrew.node?_owner hp hn
    have hslot : ⟨l.role, t'.label⟩ ∈ (n.rename t.label t'.label).slots := by
      rw [Node.rename, Node.slots_mapOwned]
      exact List.mem_map.2 ⟨_, hs.mem, by simp [Slot.map]⟩
    cases hm.symm.trans hm'
    rw [Option.bind_some, Option.bind_some, hl, hl', Option.map_some, Option.map_some,
      h.wf.role_eq hm' hs'.mem hslot]

/-! ## The second run -/

theorem Reachable.whole_of_copy (h : a.Reachable) (ht : a.tree? id = some t)
    (hc : t.copy = .ok new) : t.Whole :=
  (h.wf.whole_iff ht).2 ((h.wf.described_iff h.acceptable ht).1
    ((h.wf.shaped ht).described_of_copy (h.acceptable.tree ht) hc))

/-- Where a substitution for a variable has nothing to do on the term, it does nothing. -/
theorem Exchangeable.replaceFree_settled (he : a.Exchangeable x r name new) (w : a.Wf)
    (ht : a.tree? t.label = some t) (hname : name ∉ new.freeNames)
    (hterm : t.toTerm.replaceVar name new [] ((a.location? t.label).map Location.role) =
      t.toTerm) :
    ∃ b, Arena.replaceFree t.label x r a = some (.ok t.label, b) ∧
      ∀ y, b.node? y = a.node? y := by
  obtain ⟨t', b, names, hrun, hout, happly, -⟩ := he.replaceFree w ht
  rw [(forVar_forVariable x name new t.label).apply_eq_self (w.shaped ht) hname hterm] at happly
  obtain rfl := eq_of_mapLabels_older happly
  exact ⟨b, hrun, hout.unchanged w ht⟩

/-- A substitution for a variable, that the replacement does not bring in, has nothing left
    to do after it was done.  The variable and the replacement are in trees of their own. -/
theorem Reachable.replaceFree_idempotent (h : a.Reachable) (hid : a.Copyable id)
    (hx : a.IsVariable x name) (hr : a.Copyable r) (hxroot : a.parent? x = none)
    (hrroot : a.parent? r = none) (hxid : a.isAncestorOrSelf x id = false)
    (hrid : a.isAncestorOrSelf r id = false) (hname : name ∉ a.freeVariables r) :
    ∃ t b c v, replaceFree id x r a = some (.ok t, b) ∧ replaceFree t x r b = some (.ok t, c) ∧
      b.toShape t = .ok v ∧ c.toShape t = .ok v ∧ ∀ y, c.node? y = b.node? y := by
  have w := h.wf
  obtain ⟨u, o, hu, ho⟩ := w.copyable_iff.1 hid
  obtain rfl := tree?_label hu
  obtain ⟨new, he, hnew, hfree⟩ := h.exchangeable hx hr
  obtain ⟨hnews, hneww, -⟩ := spec_of_ofValid hnew
  have hname : name ∉ new.freeNames := fun hm => hname ((hfree name).2 hm)
  rw [← Bool.not_eq_true, w.acyclic.isAncestorOrSelf_iff] at hxid hrid
  obtain ⟨t, b, names, hrun, hout, -, hterm⟩ := he.replaceFree w hu
  have he' : b.Exchangeable x r name new := by
    obtain ⟨s, hs, hcopy⟩ := he.replacement
    exact ⟨hout.tree?_of_root w hu he.tree hxroot hxid, he.copied,
      s, hout.tree?_of_root w hu hs hrroot hrid, hcopy⟩
  have hdone : t.toTerm.replaceVar name new [] ((b.location? t.label).map Location.role) =
      t.toTerm := by
    rw [hout.role_eq w, hterm]
    exact ((w.shaped hu).rearranged (rearranges_mapLabels _)).replaceVar_replaceVar hnews hname
  obtain ⟨c, hrun', hsame⟩ := he'.replaceFree_settled hout.wf hout.tree hname hdone
  have hb : b.Reachable := .step (c := .replaceFree u.label x r) (r := .ok ()) h (Edit.bind_ok hrun)
  have hwhole : t.toTerm.Whole :=
    hterm ▸ whole_replaceVar ((whole_mapLabels _).2 (h.whole_of_copy hu ho)) hneww
  have hshape := (hb.written hout.tree ((whole_mapLabels _).1 hwhole)).toShape
  refine ⟨t.label, b, c, t.shape, hrun, hrun', (toShape_eq hout.tree).trans hshape, ?_, hsame⟩
  have htree : c.tree? t.label = some t :=
    tree?_of_kept (fun y _ => hsame y) hout.tree
  exact (toShape_eq htree).trans hshape

/-- An arena with an application to a variable and to a binding that has the variable in its
    body. -/
def capturing : Arena where
  places := #[some ⟨.var "f", [], some 6⟩, some ⟨.var "x", [], some 6⟩,
    some ⟨.symbol binder, [], some 5⟩, some ⟨.var "y", [], some 5⟩,
    some ⟨.var "x", [], some 5⟩, some ⟨.binding (some 2) [3] (some 4), [], some 6⟩,
    some ⟨.application [0, 1, 5], [], none⟩]

/-- The same, with that variable and the bound one beside it. -/
def capturingBeside : Arena where
  places := capturing.places ++ #[some ⟨.var "x", [], none⟩, some ⟨.var "y", [], none⟩]

theorem reachable_capturingBeside : capturingBeside.Reachable :=
  .step (c := .parse "y") (r := .ok ())
    (.step (c := .parse "x") (r := .ok ()) (b := ⟨capturing.places.push (some ⟨.var "x", [], none⟩)⟩)
      (.step (c := .parse "f(x,q.l[y,x])") (r := .ok ()) (b := capturing) .empty (by cbv)) (by cbv))
    (by cbv)

/-- The same with a copy of the application. -/
def capturingCopied : Arena where
  places := capturingBeside.places ++ #[some ⟨.var "f", [], some 15⟩,
    some ⟨.var "x", [], some 15⟩, some ⟨.symbol binder, [], some 14⟩, some ⟨.var "y", [], some 14⟩,
    some ⟨.var "x", [], some 14⟩, some ⟨.binding (some 11) [12] (some 13), [], some 15⟩,
    some ⟨.application [9, 10, 14], [], none⟩]

/-- The arena with both variables after the replacement of the one by the other, which is not
    made in the binding. -/
def capturingReplaced : Arena where
  places := #[some ⟨.var "f", [], some 6⟩, none, some ⟨.symbol binder, [], some 5⟩,
    some ⟨.var "y", [], some 5⟩, some ⟨.var "x", [], some 5⟩,
    some ⟨.binding (some 2) [3] (some 4), [], some 6⟩, some ⟨.application [0, 11, 5], [], none⟩,
    some ⟨.var "x", [], none⟩, some ⟨.var "y", [], none⟩, none, none, some ⟨.var "y", [], some 6⟩]

/-- A variable gives way to one that is bound in part of the tree, and stays there. -/
theorem replaceFree_idempotent_captured : ∃ (a b c : Arena) (t : NodeId) (v : Json),
    a.Reachable ∧ replaceFree 6 7 8 a = some (.ok t, b) ∧ replaceFree t 7 8 b = some (.ok t, c) ∧
      b.contains 1 = false ∧ b.contains 4 = true ∧ b.toShape t = .ok v ∧ c.toShape t = .ok v := by
  have hid : capturingBeside.Copyable 6 := ⟨15, capturingCopied, by cbv⟩
  have hy : capturingBeside.Copyable 8 :=
    ⟨9, ⟨capturingBeside.places.push (some ⟨.var "y", [], none⟩)⟩, by cbv⟩
  have hx : capturingBeside.IsVariable 7 "x" := ⟨⟨.var "x", [], none⟩, rfl, rfl, rfl⟩
  have hfree : capturingBeside.freeVariables 8 = ["y"] := by cbv
  have hapart : capturingBeside.isAncestorOrSelf 7 6 = false ∧
      capturingBeside.isAncestorOrSelf 8 6 = false := by
    constructor <;> cbv
  obtain ⟨t, b, c, v, hrun, hrun', hb, hc, -⟩ := reachable_capturingBeside.replaceFree_idempotent
    hid hx hy rfl rfl hapart.1 hapart.2 (by rw [hfree]; decide)
  have h : replaceFree 6 7 8 capturingBeside = some (.ok 6, capturingReplaced) := by cbv
  cases hrun.symm.trans h
  exact ⟨capturingBeside, _, c, 6, v, reachable_capturingBeside, hrun, hrun', rfl, rfl, hb, hc⟩

end OpenMath.Arena
