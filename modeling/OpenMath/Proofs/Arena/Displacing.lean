/-
  What there is after a substitution.

  Each occurrence that gives way is given up with all that it owns, and in its place is a
  copy of the replacement, made of nodes that were never in use.  That is all that there is
  to see afterwards: what was copied to compare with is gone, and no other node changed,
  except that an owner of an occurrence has the copy in the slot.  A root that is an
  occurrence is left alone, and the copy stands beside it.

  * `Displaced`: what is given up;
  * `Exchanged`: what there is afterwards;
  * `Rewritten.exchanged`, `Planted.exchanged`: below a node, and for a root that is an
    occurrence;
  * `Outcome.unchanged`: a tree that is made of its own nodes;
  * `Exchanged.tree?_eq`: trees with none of the occurrences stay as they are;
  * `Wf.replaceFreeWithin_exchanged`: substitution in a tree of an arena;
  * `Reachable.replaceFreeWithin_displaces`: substitution in the arenas that come about.
-/
import OpenMath.Proofs.Arena.Grafting

namespace OpenMath.Arena

variable {a b : Arena} {id x y target replacement : NodeId} {n : Node} {t t' u : Tree NodeId}
  {gs : List (Tree NodeId × Tree NodeId)} {σ : Substitution NodeId} {upto : Option NodeId}
  {found : NodeId → Prop} {copyOf : NodeId → NodeId}

/-! ## What is given up and what is new -/

/-- A node is an attached one of those that were found, or is inside such a node. -/
def Displaced (a : Arena) (found : NodeId → Prop) (y : NodeId) : Prop :=
  ∃ x p, found x ∧ a.parent? x = some p ∧ a.isAncestorOrSelf x y = true

/-- From `a` to `b`, each node that was found gave way to a copy of the replacement. -/
structure Exchanged (a b : Arena) (found : NodeId → Prop) (replacement : NodeId)
    (copyOf : NodeId → NodeId) : Prop where
  /-- a copy is written like the replacement was -/
  shape : ∀ x, found x → ∃ v, a.toShape replacement = .ok v ∧ b.toShape (copyOf x) = .ok v
  place : ∀ x, found x → b.parent? (copyOf x) = a.parent? x
  fresh : ∀ x, found x → ∀ y, b.isAncestorOrSelf (copyOf x) y = true → a.next ≤ y
  apart : ∀ x y, found x → found y → b.isAncestorOrSelf (copyOf x) (copyOf y) = true → x = y
  other : ∀ x, ¬ found x → copyOf x = x
  /-- what is in use is what was and is not displaced, and the copies -/
  live : ∀ y, b.contains y = true ↔ (a.contains y = true ∧ ¬ a.Displaced found y) ∨
    ∃ x, found x ∧ b.isAncestorOrSelf (copyOf x) y = true
  /-- what stays is as it was, but for the slots with the copies -/
  kept : ∀ y n, a.node? y = some n → ¬ a.Displaced found y → b.node? y = some (n.mapOwned copyOf)

theorem Wf.toShape_copy (w : a.Wf) (ht : a.tree? id = some t) (hc : t.copy = .ok u.toTerm)
    (hu : b.tree? u.label = some u) : ∃ v, a.toShape id = .ok v ∧ b.toShape u.label = .ok v := by
  have hs := w.shaped ht
  obtain ⟨v, hv, -⟩ := Except.bind_eq_ok.1 hc
  exact ⟨v, (toShape_eq ht).trans hv, toShape_of_arranged hs hv hu (hs.copy_eq hc)⟩

/-! ## Below a node -/

namespace Rewritten

/-- What is in use after a tree gave way to another one. -/
theorem contains_iff (h : Rewritten t t' a b) :
    b.contains y = true ↔ (a.contains y = true ∧ y ∉ t.labels) ∨ y ∈ t'.labels := by
  rw [Arena.contains_iff, Arena.contains_iff]
  by_cases hy : y ∈ t'.labels
  · exact iff_of_true (live_of_mem_labels h.tree hy) (.inr hy)
  rw [or_iff_left hy]
  by_cases hyt : y ∈ t.labels
  · simp [h.freed y hyt hy, hyt]
  rw [and_iff_left hyt]
  by_cases hp : a.parent? t.label = some y
  · simp [h.owner y hp]
  by_cases hlt : y < a.next
  · rw [h.frame y hlt hyt hp]
  · refine iff_of_false (fun ⟨n, hn⟩ => hy (h.covered y n (not_lt.1 hlt) hn)) ?_
    simp [node?_eq_none_of_le (not_lt.1 hlt)]

variable (h : Rewritten t t' a b) (w : a.Wf) (ht : a.tree? t.label = some t)
  (hg : t.Grafted t' gs)
include h w ht hg

theorem contains_grafts : b.contains y = true ↔
    (a.contains y = true ∧ ¬ ∃ g ∈ gs, y ∈ g.1.labels) ∨ ∃ g ∈ gs, y ∈ g.2.labels := by
  rw [h.contains_iff, hg.mem_labels (w.labels_nodup ht)]
  by_cases hy : y ∈ t.labels
  · have hlive : a.contains y = true := Arena.contains_iff.2 (live_of_mem_labels ht hy)
    simp only [hy, hlive, not_true, and_false, false_or, true_and, not_exists, not_and]
  · have hout : ¬ ∃ g ∈ gs, y ∈ g.1.labels := fun ⟨g, hm, hyg⟩ => hy (hg.mem_of_source hm hyg)
    simp only [hy, hout, not_false_eq_true, and_true, false_and, false_or]

/-- A node that did not give way is as it was, but for the slots of what did. -/
theorem node?_grafts {f : NodeId → NodeId} (hf : ∀ g ∈ gs, f g.1.label = g.2.label)
    (hother : ∀ x, (∀ g ∈ gs, g.1.label ≠ x) → f x = x) (hn : a.node? y = some n)
    (hno : ¬ ∃ g ∈ gs, y ∈ g.1.labels) : b.node? y = some (n.mapOwned f) := by
  have hrel : t.Relabels f gs := ⟨hf, fun x _ => hother x⟩
  by_cases hy : y ∈ t.labels
  · exact Arena.node?_grafts w h.wf hg ht h.tree h.parent hrel hy
      (fun g hm hyg => hno ⟨g, hm, hyg⟩) hn
  -- what gave way inside the tree has its owner there
  have hstay {z : NodeId} (hz : z ∈ n.owned) (hne : z ≠ t.label) : f z = z := by
    refine hother z fun g hm e => ?_
    have hu := (w.mem_labels ht).1 (e ▸ hg.mem_of_source hm g.1.label_mem_labels)
    rcases hu.cases_parent with he | ⟨q, hq, hu⟩
    · exact hne he
    · cases (w.parent?_of_mem hn hz).symm.trans hq
      exact hy ((w.mem_labels ht).2 hu)
  by_cases hp : a.parent? t.label = some y
  · rw [h.owner y hp, hn, Option.map_some]
    refine congrArg some (Node.mapOwned_congr fun z hz => ?_)
    split_ifs with hzt
    · rw [hzt, hrel.label hg (w.labels_nodup ht)]
    · exact (hstay hz hzt).symm
  · have hself : n.mapOwned f = n.mapOwned fun x => x := Node.mapOwned_congr fun z hz =>
      hstay hz fun e => hp (e ▸ w.parent?_of_mem hn hz)
    rw [h.frame y (node?_lt hn) hy hp, hn, hself, mapOwned_self]

end Rewritten

/-- Where a tree gave way to itself, nothing changed. -/
theorem Rewritten.unchanged (h : Rewritten t t a b) (w : a.Wf) (ht : a.tree? t.label = some t)
    (y : NodeId) : b.node? y = a.node? y := by
  cases hy : a.node? y with
  | none =>
    have hc := h.contains_grafts w ht (.kept t) (y := y)
    simpa [contains, hy] using hc
  | some n =>
    have hn := h.node?_grafts w ht (.kept t) (f := fun x => x) (List.forall_mem_nil _)
      (fun _ _ => rfl) hy (by simp)
    rw [hn, mapOwned_self]

namespace Grafts

variable (hg : a.Grafts target replacement upto σ t t' gs) (w : a.Wf)
include hg w

theorem attached
    (hroot : a.parent? t.label = none → ¬ a.Meets target replacement upto t.label t.label)
    {g : Tree NodeId × Tree NodeId} (hm : g ∈ gs) : ∃ p, a.parent? g.1.label = some p := by
  have hmeets := (hg.sources _).2 ⟨g, hm, rfl⟩
  rcases (hmeets.under w).cases_parent with he | ⟨p, hp, -⟩
  · refine Option.ne_none_iff_exists'.1 fun hp => ?_
    rw [he] at hp hmeets
    exact hroot hp hmeets
  · exact ⟨p, hp⟩

/-- What is displaced is in one of the trees that gave way. -/
theorem displaced_iff (ht : a.tree? t.label = some t) (ht' : b.tree? t'.label = some t')
    (hroot : a.parent? t.label = none → ¬ a.Meets target replacement upto t.label t.label) :
    a.Displaced (a.Meets target replacement upto t.label) y ↔ ∃ g ∈ gs, y ∈ g.1.labels := by
  have htree {g : Tree NodeId × Tree NodeId} (hm : g ∈ gs) := (tree?_grafts hg.grafted ht ht' hm).1
  constructor
  · rintro ⟨x, p, hx, -, hy⟩
    obtain ⟨g, hm, rfl⟩ := (hg.sources x).1 hx
    exact ⟨g, hm, (w.mem_labels (htree hm)).2 (w.acyclic.isAncestorOrSelf_iff.1 hy)⟩
  · rintro ⟨g, hm, hy⟩
    obtain ⟨p, hp⟩ := hg.attached w hroot hm
    exact ⟨_, p, (hg.sources _).2 ⟨g, hm, rfl⟩, hp,
      w.acyclic.isAncestorOrSelf_iff.2 ((w.mem_labels (htree hm)).1 hy)⟩

end Grafts

/-- When a tree gave way to what a substitution made of it, the occurrences gave way to
    copies. -/
theorem Rewritten.exchanged (h : Rewritten t t' a b) (w : a.Wf) (ht : a.tree? t.label = some t)
    (hs : Substitutes a target replacement upto σ)
    (hg : a.Grafts target replacement upto σ t t' gs)
    (hroot : a.parent? t.label = none → ¬ a.Meets target replacement upto t.label t.label) :
    ∃ copyOf, t'.label = copyOf t.label ∧
      a.Exchanged b (a.Meets target replacement upto t.label) replacement copyOf := by
  have hnd := w.labels_nodup ht
  have hnd' := (h.wf.labels_nodup h.tree).sublist hg.grafted.symm.labels_sublist
  rw [List.flatMap_map] at hnd'
  obtain ⟨f, hf, hother⟩ := Tree.exists_relabels (hnd.sublist hg.grafted.labels_sublist)
  have hlabel : f t.label = t'.label := Tree.Relabels.label ⟨hf, fun x _ => hother x⟩ hg.grafted hnd
  have htree {g : Tree NodeId × Tree NodeId} (hm : g ∈ gs) := tree?_grafts hg.grafted ht h.tree hm
  have hunder {g : Tree NodeId × Tree NodeId} (hm : g ∈ gs) (y : NodeId) :
      b.isAncestorOrSelf (f g.1.label) y = true ↔ y ∈ g.2.labels := by
    rw [hf g hm, h.wf.acyclic.isAncestorOrSelf_iff, h.wf.mem_labels (htree hm).2]
  refine ⟨f, hlabel.symm, ?_, ?_, ?_, ?_, ?_, ?_, ?_⟩
  · intro x hx
    obtain ⟨g, hm, rfl⟩ := (hg.sources x).1 hx
    obtain ⟨r, hr, hcopy⟩ := hs.replacement
    rw [hf g hm]
    exact w.toShape_copy hr ((hg.copies g hm).1 ▸ hcopy) (htree hm).2
  · intro x hx
    obtain ⟨g, hm, rfl⟩ := (hg.sources x).1 hx
    rw [hf g hm]
    exact parent?_grafts w h.wf hg.grafted ht h.tree h.parent hm
  · intro x hx y hy
    obtain ⟨g, hm, rfl⟩ := (hg.sources x).1 hx
    exact (hg.copies g hm).2 y ((hunder hm y).1 hy)
  · intro x y hx hy hxy
    obtain ⟨g, hm, rfl⟩ := (hg.sources x).1 hx
    obtain ⟨g', hm', rfl⟩ := (hg.sources y).1 hy
    rw [hunder hm, hf g' hm'] at hxy
    rw [eq_of_mem_flatMap hnd' hm hm' hxy g'.2.label_mem_labels]
  · intro x hx
    exact hother x fun g hm e => hx ((hg.sources x).2 ⟨g, hm, e⟩)
  · intro y
    rw [h.contains_grafts w ht hg.grafted, hg.displaced_iff w ht h.tree hroot]
    refine or_congr_right ⟨fun ⟨g, hm, hy⟩ => ?_, fun ⟨x, hx, hy⟩ => ?_⟩
    · exact ⟨_, (hg.sources _).2 ⟨g, hm, rfl⟩, (hunder hm y).2 hy⟩
    · obtain ⟨g, hm, rfl⟩ := (hg.sources x).1 hx
      exact ⟨g, hm, (hunder hm y).1 hy⟩
  · intro y n hn hno
    rw [hg.displaced_iff w ht h.tree hroot] at hno
    exact h.node?_grafts w ht hg.grafted hf hother hn hno

/-! ## A root that is an occurrence, and nothing to be done -/

/-- When a root is itself an occurrence, a copy is added, and nothing changes. -/
theorem Planted.exchanged (h : Planted a b [t']) (w : a.Wf) (hp : a.parent? id = none)
    (hfound : ∀ y, found y ↔ y = id) (hr : a.tree? replacement = some u)
    (hcopy : u.copy = .ok t'.toTerm) :
    a.Exchanged b found replacement (fun y => if y = id then t'.label else y) := by
  have hm := List.mem_singleton_self t'
  have hcopyOf {y : NodeId} (hy : found y) : (if y = id then t'.label else y) = t'.label :=
    if_pos ((hfound y).1 hy)
  have hunder (y : NodeId) : b.isAncestorOrSelf t'.label y = true ↔
      b.contains y = true ∧ a.next ≤ y := by
    rw [h.wf.acyclic.isAncestorOrSelf_iff, h.under_iff]
  have hkept (y : NodeId) : ¬ a.Displaced found y := by
    rintro ⟨x, p, hx, hxp, -⟩
    rw [(hfound x).1 hx, hp] at hxp
    cases hxp
  refine ⟨?_, ?_, ?_, ?_, ?_, ?_, ?_⟩
  · intro x hx
    rw [hcopyOf hx]
    exact w.toShape_copy hr hcopy (h.tree t' hm)
  · intro x hx
    rw [hcopyOf hx, h.root t' hm, (hfound x).1 hx, hp]
  · intro x hx y hy
    rw [hcopyOf hx, hunder] at hy
    exact hy.2
  · intro x y hx hy _
    rw [(hfound x).1 hx, (hfound y).1 hy]
  · intro x hx
    exact if_neg fun e => hx ((hfound x).2 e)
  · intro y
    have hnew : (∃ x, found x ∧ b.isAncestorOrSelf (if x = id then t'.label else x) y = true) ↔
        b.contains y = true ∧ a.next ≤ y := by
      rw [← hunder]
      exact ⟨fun ⟨x, hx, hy⟩ => hcopyOf hx ▸ hy,
        fun hy => ⟨id, (hfound id).2 rfl, by rwa [if_pos rfl]⟩⟩
    rw [hnew, and_iff_left (hkept y)]
    by_cases hy : y < a.next
    · simp [contains, h.old y hy, not_le.2 hy]
    · simp [contains, node?_eq_none_of_le (not_lt.1 hy), not_lt.1 hy]
  · intro y n hn _
    have hself : n.mapOwned (fun z => if z = id then t'.label else z) = n.mapOwned fun z => z :=
      Node.mapOwned_congr fun z hz => if_neg fun e => by
        simpa [e, hp] using w.parent?_of_mem hn hz
    rw [h.node?_old hn, hself, mapOwned_self]

/-- A substitution that leaves every node of a tree in its place changes nothing. -/
theorem Outcome.unchanged {names : List String} (h : Outcome σ names t t a b) (w : a.Wf)
    (ht : a.tree? t.label = some t) (y : NodeId) : b.node? y = a.node? y := by
  unfold Outcome at h
  split_ifs at h
  · -- the nodes of a copy were not there before
    obtain ⟨n, hn⟩ := live_of_mem_labels ht t.label_mem_labels
    exact absurd t.label_mem_labels (h.not_mem (node?_lt hn))
  · exact h.unchanged w ht y

/-! ## The whole -/

/-- Trees in which nothing was displaced, and that are in nothing that was, stay as they
    are. -/
theorem Exchanged.tree?_eq (h : a.Exchanged b found replacement copyOf) (w : a.Wf)
    (hlive : a.contains y = true) (hout : ∀ x p, found x → a.parent? x = some p →
      a.isAncestorOrSelf x y = false ∧ a.isAncestorOrSelf y x = false) :
    b.tree? y = a.tree? y := by
  simp only [← Bool.not_eq_true, w.acyclic.isAncestorOrSelf_iff] at hout
  obtain ⟨n, hn⟩ := contains_iff.1 hlive
  obtain ⟨t, ht⟩ := w.exists_tree hn
  rw [ht]
  refine tree?_congr ht fun z hz m hm => ?_
  have hz : a.Under y z := (w.mem_labels ht).1 hz
  have hno : ¬ a.Displaced found z := by
    rintro ⟨x, p, hx, hp, hxz⟩
    rcases (w.acyclic.isAncestorOrSelf_iff.1 hxz).total hz with hu | hu
    · exact (hout x p hx hp).1 hu
    · exact (hout x p hx hp).2 hu
  have hself : m.mapOwned copyOf = m := (Node.mapOwned_congr fun v hv => h.other v fun hf => by
    have hp := w.parent?_of_mem hm hv
    exact (hout v z hf hp).2 (.step hp hz)).trans (mapOwned_self m)
  exact ⟨m, by rw [h.kept z m hm hno, hself], rfl, rfl⟩

/-- What a substitution makes of a tree is all that there is to see. -/
theorem Outcome.exchanged {names : List String} {role : Option Role}
    (h : Outcome σ names t t' a b) (w : a.Wf) (hs : Substitutes a target replacement upto σ)
    (hpl : Placed a.next t role a) (hsc : a.scope? upto t.label = some (σ.scope t names))
    (hterm : t'.mapLabels (older a.next) = σ.apply t names role) :
    ∃ copyOf, t'.label = copyOf t.label ∧
      a.Exchanged b (a.Meets target replacement upto t.label) replacement copyOf := by
  have hhits := hs.hits_eq w hpl.tree hsc
  have htree := h.tree
  unfold Outcome at h
  split_ifs at h with hroot
  · obtain ⟨hp, hh⟩ := hroot
    rw [hh] at hhits
    have hfree : a.isFreeToReplace replacement t.label upto = true := isFreeToReplace_root hp
    obtain ⟨r, hr, hcopy⟩ := hs.replacement
    obtain ⟨m, hm, -⟩ := exists_node_of_tree hr
    rw [Substitution.apply_replaced hh ((hs.fits_eq w hpl hsc hh).symm.trans hfree)] at hterm
    have ht' : t'.toTerm = σ.replacement := by
      rw [← Tree.toTerm_mapLabels (older a.next), hterm, Tree.toTerm_mapLabels, Tree.toTerm_term]
    refine ⟨fun y => if y = t.label then t'.label else y, (if_pos rfl).symm,
      h.exchanged w hp (fun y => ?_) hr (ht' ▸ hcopy)⟩
    rw [meets_found hhits, and_iff_left ⟨contains_iff.2 ⟨m, hm⟩, hfree⟩]
  · obtain ⟨gs, hg⟩ := hs.grafts w hpl hsc hterm (h.wf.shaped htree)
    refine h.exchanged w hpl.tree hs hg fun hp hmeets => ?_
    have hh : σ.hits t (σ.scope t names) = false :=
      Bool.eq_false_iff.2 fun hh => hroot ⟨hp, hh⟩
    obtain ⟨n, hn, -⟩ := exists_node_of_tree hpl.tree
    obtain ⟨z, hz, hmeets⟩ := (meets_rooted (hhits.trans hh) hn).1 hmeets
    exact w.acyclic.not_under (w.parent?_of_mem hn (List.mem_append_left _ hz)) (hmeets.under w)

/-- A substitution in a tree of an arena, with all that there is to see of it. -/
theorem Wf.replaceFreeWithin_exchanged (w : a.Wf) (ht : a.tree? t.label = some t)
    {o r : Tree NodeId} (ho : a.tree? target = some o) (hr : a.tree? replacement = some r)
    {co cr : Term} (hco : o.copy = .ok co) (hcr : r.copy = .ok cr) (upto : Option NodeId) :
    ∃ names b t' copyOf,
      replaceFreeWithin t.label target replacement upto a = some (.ok t'.label, b) ∧
      Outcome ⟨o, cr, upto⟩ names t t' a b ∧
      t'.mapLabels (older a.next) =
        Substitution.apply ⟨o, cr, upto⟩ t names ((a.location? t.label).map Location.role) ∧
      t'.label = copyOf t.label ∧
      a.Exchanged b (a.Meets target replacement upto t.label) replacement copyOf := by
  obtain ⟨names, b, t', hnames, hrun, hout, hterm⟩ := w.replaceFreeWithin_ok ht ho hr hco hcr upto
  have hs : Substitutes a target replacement upto ⟨o, cr, upto⟩ := ⟨ho, ⟨r, hr, hcr⟩, rfl⟩
  obtain ⟨copyOf, hlabel, hb⟩ := hout.exchanged w hs ((Planted.nil w).placed w ht)
    (by rw [hnames, scope_eq_of_scope? (σ := ⟨o, cr, upto⟩) hnames]) hterm
  exact ⟨names, b, t', copyOf, hrun, hout, hterm, hlabel, hb⟩

end OpenMath.Arena
