/-
  The occurrences that a substitution replaces.

  They are found by walking down from a node, in the arena as it was before anything
  changed; the search stops at each occurrence, whether it gives way or not.  The trees at
  these occurrences are those that the substitution replaced, and every other node of the
  tree is what it was, except that a node with an occurrence in one of its slots now has
  the copy there.

  * `Meets`: the occurrences that give way;
  * `Wf.node?_of_tree`: the nodes of a tree that stays as it is;
  * `node?_grafts`: the nodes of a tree in which others gave way;
  * `Substitutes.grafts`: the trees that gave way are those at the occurrences.
-/
import OpenMath.Proofs.Arena.Copies
import OpenMath.Proofs.Tree.Grafts
import OpenMath.Proofs.Tree.Independence

namespace OpenMath.Arena

variable {a b : Arena} {id p x y target replacement : NodeId} {n : Node} {t t' u : Tree NodeId}
  {gs : List (Tree NodeId × Tree NodeId)} {σ : Substitution NodeId} {upto : Option NodeId}

/-! ## Nodes of a tree that stays -/

/-- A node is known by the trees that it owns, and by what owns it. -/
theorem Roots.eq_mapOwned {n m : Node} {c c' : Content (Tree NodeId)}
    {as : List (Symbol × Tree NodeId)} {f : NodeId → NodeId} (hn : a.Roots n c as)
    (hm : b.Roots m c' as) (hp : m.parent = n.parent)
    (hc : c'.map Tree.label = c.map fun u => f u.label) (has : ∀ e ∈ as, f e.2.label = e.2.label) :
    m = n.mapOwned f := by
  have hattributes : m.attributes = n.attributes.map fun e => (e.1, f e.2) := by
    rw [hm.attributes, hn.attributes, List.map_map]
    exact List.map_congr_left fun e he => Prod.ext rfl (has e he).symm
  have hcontent : m.content = n.content.map f := by
    rw [hm.content, hn.content, Content.map_map, hc]
  cases m
  cases hp
  cases hcontent
  cases hattributes
  rfl

/-- If a node has one tree in two arenas, and one owner, then the nodes of the tree are the
    same in both. -/
theorem Wf.node?_of_tree (w : a.Wf) (w' : b.Wf) (ht : a.tree? id = some t) (ht' : b.tree? id = some t)
    (hp : b.parent? id = a.parent? id) (hx : x ∈ t.labels) : b.node? x = a.node? x := by
  refine tree?_induction_rooted (P := fun id t => b.tree? id = some t →
    b.parent? id = a.parent? id → x ∈ t.labels → b.node? x = a.node? x) ?_ ht ht' hp hx
  intro id n c as hn hr parts values ht' hp hx
  obtain ⟨m, hm, hr'⟩ := roots_of_tree? ht'
  have hpar := hr.parent w hn
  have hpar' := hr'.parent w' hm
  rcases (Tree.mem_labels_rooted ..).1 hx with rfl | ⟨u, hu, hx⟩
  · have hpn : m.parent = n.parent := by simpa [parent?, hm, hn] using hp
    rw [hm, hn, hr.eq_mapOwned (f := fun x => x) hr' hpn rfl fun _ _ => rfl, mapOwned_self]
  · rcases List.mem_append.1 hu with hu | hu
    · exact parts u hu (hr'.part u hu) ((hpar'.1 u hu).trans (hpar.1 u hu).symm) hx
    · obtain ⟨e, he, rfl⟩ := List.mem_map.1 hu
      exact values e he (hr'.value e he) ((hpar'.2 e he).trans (hpar.2 e he).symm) hx

theorem Wf.node?_of_tree_fixed (w : a.Wf) (w' : b.Wf) (ht : a.tree? id = some t)
    (ht' : b.tree? id = some t) (hp : b.parent? id = a.parent? id) {f : NodeId → NodeId}
    (hf : ∀ x ∈ t.labels, f x = x) (hx : x ∈ t.labels) (hn : a.node? x = some n) :
    b.node? x = some (n.mapOwned f) := by
  rw [w.node?_of_tree w' ht ht' hp hx, hn]
  have hself : n.mapOwned f = n.mapOwned fun y => y := Node.mapOwned_congr fun y hy =>
    hf y (w.labels_closed ht (w.parent?_of_mem hn hy) hx)
  rw [hself, mapOwned_self]

/-! ## Nodes of a tree in which others gave way -/

/-- Trees that gave way, and those that took their places, are trees of the arenas in
    which the whole ones are. -/
theorem tree?_grafts (h : Tree.Grafted t t' gs) (ht : a.tree? t.label = some t)
    (ht' : b.tree? t'.label = some t') {g : Tree NodeId × Tree NodeId} (hg : g ∈ gs) :
    a.tree? g.1.label = some g.1 ∧ b.tree? g.2.label = some g.2 := by
  induction h with
  | whole => exact List.mem_singleton.1 hg ▸ ⟨ht, ht'⟩
  | kept => cases hg
  | parts l c as gs _ ih =>
    obtain ⟨n, -, hr⟩ := roots_of_tree? ht
    obtain ⟨m, -, hr'⟩ := roots_of_tree? ht'
    obtain ⟨e, he, hg⟩ := List.mem_flatMap.1 hg
    exact ih e he (hr.part e.1 (Content.mem_structural_map he))
      (hr'.part e.2 (Content.mem_structural_map he)) hg

/-- What took a place has the owner of what was there. -/
theorem parent?_grafts (w : a.Wf) (w' : b.Wf) (h : Tree.Grafted t t' gs)
    (ht : a.tree? t.label = some t) (ht' : b.tree? t'.label = some t')
    (hp : b.parent? t'.label = a.parent? t.label) {g : Tree NodeId × Tree NodeId} (hg : g ∈ gs) :
    b.parent? g.2.label = a.parent? g.1.label := by
  induction h with
  | whole => exact List.mem_singleton.1 hg ▸ hp
  | kept => cases hg
  | parts l c as gs _ ih =>
    obtain ⟨n, hn, hr⟩ := roots_of_tree? ht
    obtain ⟨m, hm, hr'⟩ := roots_of_tree? ht'
    obtain ⟨e, he, hg⟩ := List.mem_flatMap.1 hg
    have hu : e.1 ∈ (c.map Prod.fst).structural := Content.mem_structural_map he
    have hu' : e.2 ∈ (c.map Prod.snd).structural := Content.mem_structural_map he
    exact ih e he (hr.part e.1 hu) (hr'.part e.2 hu')
      (((hr'.parent w' hm).1 e.2 hu').trans ((hr.parent w hn).1 e.1 hu).symm) hg

/-- A node that is in none of the trees that gave way stays as it is, except that what took a
    place is in its slot. -/
theorem node?_grafts (w : a.Wf) (w' : b.Wf) (h : Tree.Grafted t t' gs)
    (ht : a.tree? t.label = some t) (ht' : b.tree? t'.label = some t')
    (hp : b.parent? t'.label = a.parent? t.label) {f : NodeId → NodeId} (hf : Tree.Relabels f t gs)
    (hx : x ∈ t.labels) (hno : ∀ g ∈ gs, x ∉ g.1.labels) (hn : a.node? x = some n) :
    b.node? x = some (n.mapOwned f) := by
  induction h with
  | whole t t' => exact absurd hx (hno _ (List.mem_singleton_self _))
  | kept t => exact w.node?_of_tree_fixed w' ht ht' hp (fun x hx => hf.other x hx (List.forall_mem_nil _)) hx hn
  | parts l c as gs h ih =>
    have hnd := w.labels_nodup ht
    obtain ⟨m, hm, hr⟩ : ∃ m, a.node? l = some m ∧ a.Roots m _ _ := roots_of_tree? ht
    obtain ⟨m', hm', hr'⟩ : ∃ m, b.node? l = some m ∧ b.Roots m _ _ := roots_of_tree? ht'
    rcases (Tree.mem_labels_rooted_map ..).1 hx with rfl | ⟨e, he, hx⟩ | ⟨d, hd, hx⟩
    · cases hn.symm.trans hm
      have hpn : m'.parent = n.parent := by
        rw [Tree.label_rooted, Tree.label_rooted] at hp
        simpa [parent?, hm', hn] using hp
      rw [hm', hr.eq_mapOwned hr' hpn ?_ fun d hd => hf.value h hnd hd d.2.label_mem_labels]
      rw [Content.map_map, Content.map_map]
      exact Content.map_congr fun e he =>
        ((hf.part h hnd he).label (h e he) ((Tree.nodup_parts hnd).1 e he).1).symm
    · have hu : e.1 ∈ (c.map Prod.fst).structural := Content.mem_structural_map he
      have hu' : e.2 ∈ (c.map Prod.snd).structural := Content.mem_structural_map he
      exact ih e he (hr.part e.1 hu) (hr'.part e.2 hu')
        (((hr'.parent w' hm').1 e.2 hu').trans ((hr.parent w hm).1 e.1 hu).symm)
        (hf.part h hnd he) hx fun g hg => hno g (List.mem_flatMap.2 ⟨e, he, hg⟩)
    · exact w.node?_of_tree_fixed w' (hr.value d hd) (hr'.value d hd)
        (((hr'.parent w' hm').2 d hd).trans ((hr.parent w hm).2 d hd).symm)
        (fun x hx => hf.value h hnd hd hx) hx hn

/-! ## The occurrences that give way -/

/-- Going down from a node one meets an occurrence of the target that is free there, and
    whose slot the replacement may take.  The search does not go on below what is an
    occurrence and free. -/
inductive Meets (a : Arena) (target replacement : NodeId) (upto : Option NodeId) :
    NodeId → NodeId → Prop
  | here {x : NodeId} (h : (a.equals x target true && a.isFree x upto) = true)
      (hlive : a.contains replacement = true)
      (hfree : a.isFreeToReplace replacement x upto = true) : Meets a target replacement upto x x
  | part {x y z : NodeId} {n : Node} (h : (a.equals x target true && a.isFree x upto) = false)
      (hn : a.node? x = some n) (hz : z ∈ n.content.structural)
      (hm : Meets a target replacement upto z y) : Meets a target replacement upto x y

theorem Meets.under (w : a.Wf) (h : a.Meets target replacement upto x y) : a.Under x y := by
  induction h with
  | here => exact .refl
  | part _ hn hz _ ih =>
    exact (Under.of_parent (w.parent?_of_mem hn (List.mem_append_left _ hz))).trans ih

theorem meets_found (h : (a.equals x target true && a.isFree x upto) = true) :
    a.Meets target replacement upto x y ↔
      y = x ∧ a.contains replacement = true ∧ a.isFreeToReplace replacement x upto = true := by
  constructor
  · rintro (⟨-, hlive, hfree⟩ | ⟨h', -, -, -⟩)
    · exact ⟨rfl, hlive, hfree⟩
    · rw [h] at h'
      cases h'
  · rintro ⟨rfl, hlive, hfree⟩
    exact .here h hlive hfree

theorem meets_rooted (h : (a.equals x target true && a.isFree x upto) = false) (hn : a.node? x = some n) :
    a.Meets target replacement upto x y ↔
      ∃ z ∈ n.content.structural, a.Meets target replacement upto z y := by
  constructor
  · rintro (⟨h', -, -⟩ | ⟨-, hn', hz, hm⟩)
    · rw [h] at h'
      cases h'
    · cases hn.symm.trans hn'
      exact ⟨_, hz, hm⟩
  · rintro ⟨z, hz, hm⟩
    exact .part h hn hz hm

namespace Substitutes

variable {above : List String} {k : NodeId} {role : Option Role}
  (hs : Substitutes a target replacement upto σ) (w : a.Wf)
include hs w

theorem hits_eq (ht : a.tree? id = some t) (hsc : a.scope? upto id = some (σ.scope t above)) :
    (a.equals id target true && a.isFree id upto) = σ.hits t (σ.scope t above) := by
  have heq : a.equals id target true = t.equals true σ.target := by
    rw [equals, ht, hs.target]
  rw [Bool.eq_iff_iff, Bool.and_eq_true, heq, w.isFree_iff ht hsc, Substitution.hits_iff]

/-- The test for the slot of an occurrence; it is passed by the occurrence itself. -/
theorem fits_eq (hpl : Placed k t role a) (hsc : a.scope? upto t.label = some (σ.scope t above))
    (hh : σ.hits t (σ.scope t above) = true) :
    a.isFreeToReplace replacement t.label upto = σ.fits (σ.scope t above) role := by
  obtain ⟨u, hu, hcopy⟩ := hs.replacement
  have hru : σ.replacement.kind = u.kind ∧ σ.replacement.freeNames = u.freeNames := by
    have hsh := w.shaped hu
    rw [hsh.copy_eq hcopy]
    exact ⟨Tree.rearranges_arranged.kind u, hsh.freeNames_rearranged Tree.rearranges_arranged⟩
  cases hp : a.parent? t.label with
  | none =>
    rw [scope?_root hp, Option.some.injEq] at hsc
    rw [isFreeToReplace_root hp, eq_comm, Substitution.fits_iff, hpl.root hp, ← hsc]
    simp
  | some p =>
    obtain ⟨n, l, hn, hl, hsits⟩ := w.locationIn?_spec hp
    obtain ⟨-, n', r, hn', rfl, hr⟩ := hpl.slot p hp
    cases hn.symm.trans hn'
    obtain rfl : r = l.role := w.role_eq hn hr hsits.mem
    by_cases hne : replacement = t.label
    · subst hne
      cases hu.symm.trans hpl.tree
      have hadm := w.fits hn _ hr t.kind (kind?_of_tree hu)
      rw [isFreeToReplace, if_pos rfl, eq_comm, Substitution.fits_iff, hru.1, hru.2]
      exact ⟨by rintro _ ⟨⟩; exact hadm, (Substitution.hits_iff.1 hh).2⟩
    · have hb : l.role = .bound → upto = some t.label := fun e => hs.upto ▸
        w.upto_of_bound hpl.tree hp hn (mem_bound_iff.1 (e ▸ hr)) (hs.upto ▸ hsc) hh
      rw [Bool.eq_iff_iff, w.isFreeToReplace_iff hu hne hp hl hb hsc, Substitution.fits_iff, hru.1,
        hru.2]
      simp

end Substitutes

/-! ## The trees that gave way -/

theorem older_eq_some {k x y : NodeId} (h : older k x = some y) : x = y := by
  unfold older at h
  split_ifs at h
  exact Option.some.inj h

theorem le_of_older_eq_none {k x : NodeId} (h : older k x = none) : k ≤ x := by
  unfold older at h
  split_ifs at h with hx
  exact not_lt.1 hx

theorem eq_of_mapLabels_older {k : NodeId} (h : t'.mapLabels (older k) = t.mapLabels some) : t' = t :=
  Tree.eq_of_mapLabels (fun _ _ => older_eq_some) h

/-- Where a node is kept, its parts and attributes are those that were there, each after the
    substitution. -/
theorem exists_kept {k : NodeId} {cs : Content (Tree NodeId)} {as : List (Symbol × Tree NodeId)}
    {F : Role → Tree NodeId → Tree (Option NodeId)} (hs : t'.Shaped)
    (h : t'.mapLabels (older k) =
      .rooted (some id) (cs.mapRoles F) (as.map fun e => (e.1, e.2.mapLabels some))) :
    ∃ d : Content (Tree NodeId × Tree NodeId), cs = d.map Prod.fst ∧
      t' = .rooted id (d.map Prod.snd) as ∧
      ∀ s ∈ d.slots, s.content.2.mapLabels (older k) = F s.role s.content.1 := by
  obtain ⟨l, c', as', -, -, -, -⟩ := hs
  rw [Tree.mapLabels_rooted] at h
  obtain rfl : l = id := older_eq_some (congrArg Tree.label h)
  obtain ⟨hc, has⟩ := Tree.rooted_injective h
  have hvalues : as' = as := eq_of_map_eq_map has fun e _ e' he =>
    Prod.ext (Prod.ext_iff.1 he).1 (eq_of_mapLabels_older (Prod.ext_iff.1 he).2)
  obtain ⟨d, rfl, rfl, hd⟩ := Content.exists_pairs hc
  exact ⟨d, rfl, by rw [hvalues], hd⟩

/-- A part of a node has the role of its slot. -/
theorem Roots.placed {cs : Content (Tree NodeId)} {as : List (Symbol × Tree NodeId)}
    (hr : a.Roots n cs as) (w : a.Wf) (hn : a.node? id = some n) {s : Slot (Tree NodeId)}
    (hs : s ∈ cs.slots) : Placed a.next s.content (some s.role) a := by
  have hu : s.content ∈ cs.structural := cs.contents_slots ▸ List.mem_map_of_mem hs
  have hp := (hr.parent w hn).1 _ hu
  refine ⟨hr.part _ hu, fun x hx => ?_, fun hq => ?_, fun q hq => ?_⟩
  · obtain ⟨m, hm⟩ := live_of_mem_labels (hr.part _ hu) hx
    exact node?_lt hm
  · cases hp.symm.trans hq
  · cases hp.symm.trans hq
    refine ⟨node?_lt hn, n, s.role, hn, rfl, hr.slots ▸ ?_⟩
    exact List.mem_map_of_mem (f := Slot.map Tree.label) (List.mem_append_left _ hs)

/-- From `t` to `t'` the trees at the occurrences that are met gave way, to trees of new
    nodes that are copies of the replacement. -/
structure Grafts (a : Arena) (target replacement : NodeId) (upto : Option NodeId)
    (σ : Substitution NodeId) (t t' : Tree NodeId) (gs : List (Tree NodeId × Tree NodeId)) :
    Prop where
  grafted : t.Grafted t' gs
  sources : ∀ y, a.Meets target replacement upto t.label y ↔ ∃ g ∈ gs, g.1.label = y
  copies : ∀ g ∈ gs, g.2.toTerm = σ.replacement ∧ ∀ y ∈ g.2.labels, a.next ≤ y

namespace Substitutes

variable {above : List String} {role : Option Role}
  (hs : Substitutes a target replacement upto σ) (w : a.Wf) (hpl : Placed a.next t role a)
  (hsc : a.scope? upto t.label = some (σ.scope t above))
  (h : t'.mapLabels (older a.next) = σ.apply t above role)
include hs w hpl hsc h

/-- An occurrence gives way as a whole, or stays. -/
theorem grafts_found (hh : σ.hits t (σ.scope t above) = true) :
    ∃ gs, a.Grafts target replacement upto σ t t' gs := by
  obtain ⟨u, hu, -⟩ := hs.replacement
  obtain ⟨m, hm, -⟩ := exists_node_of_tree hu
  have hlive : a.contains replacement = true := contains_iff.2 ⟨m, hm⟩
  have hfound := hs.hits_eq w hpl.tree hsc
  have hfit := hs.fits_eq w hpl hsc hh
  rw [hh] at hfound
  by_cases hf : σ.fits (σ.scope t above) role = true
  · rw [Substitution.apply_replaced hh hf] at h
    refine ⟨_, .whole t t', fun y => ?_, fun g hg => ?_⟩
    · rw [meets_found hfound, hfit]
      simp [hlive, hf, eq_comm]
    · obtain rfl := List.mem_singleton.1 hg
      refine ⟨?_, fun y hy => le_of_older_eq_none ?_⟩
      · rw [← Tree.toTerm_mapLabels (older a.next), h, Tree.toTerm_mapLabels, Tree.toTerm_term]
      · have hm := List.mem_map_of_mem (f := older a.next) hy
        rw [← Tree.labels_mapLabels, h, Tree.labels_mapLabels] at hm
        obtain ⟨_, -, he⟩ := List.mem_map.1 hm
        exact he.symm
  · rw [Substitution.apply_kept hh (Bool.not_eq_true _ ▸ hf)] at h
    rw [eq_of_mapLabels_older h]
    refine ⟨[], .kept t, fun y => ?_, List.forall_mem_nil _⟩
    rw [meets_found hfound, hfit]
    simp [hf]

/-- A substitution replaces the trees at the occurrences that are met. -/
theorem grafts (hshape : t'.Shaped) : ∃ gs, a.Grafts target replacement upto σ t t' gs := by
  refine tree?_induction_rooted (P := fun _ t => ∀ (above : List String) (role : Option Role)
    (t' : Tree NodeId), Placed a.next t role a → a.scope? upto t.label = some (σ.scope t above) →
    t'.mapLabels (older a.next) = σ.apply t above role → t'.Shaped →
    ∃ gs, a.Grafts target replacement upto σ t t' gs) ?_ hpl.tree above role t' hpl hsc h hshape
  clear! t t' above role
  intro id n cs as hn hr ih _ above role t' hpl hsc h hshape
  by_cases hh : σ.hits (.rooted id cs as) (σ.scope (.rooted id cs as) above) = true
  · exact hs.grafts_found w hpl hsc h hh
  have hmiss := hs.hits_eq w hpl.tree hsc
  rw [Bool.not_eq_true] at hh
  rw [hh] at hmiss
  rw [Substitution.apply_rooted hh] at h
  obtain ⟨d, rfl, rfl, hd⟩ := exists_kept hshape h
  have hparts (e : Tree NodeId × Tree NodeId) :
      ∃ gs, e ∈ d.structural → a.Grafts target replacement upto σ e.1 e.2 gs := by
    by_cases he : e ∈ d.structural
    · have hu : e.1 ∈ (d.map Prod.fst).structural := Content.mem_structural_map he
      have hu' : e.2 ∈ (d.map Prod.snd).structural := Content.mem_structural_map he
      obtain ⟨s, hsd, rfl⟩ := List.mem_map.1 (d.contents_slots ▸ he)
      have hsc' := scope?_of_parent ((hr.parent w hn).1 _ hu) hsc
      rw [boundNames_roots hn hr, ← hs.upto] at hsc'
      have hplaced : Placed a.next s.content.1 (some s.role) a := hr.placed w hn
        (s := s.map Prod.fst) (Content.slots_map Prod.fst d ▸ List.mem_map_of_mem hsd)
      obtain ⟨gs, hgs⟩ := ih s.content.1 hu _ _ s.content.2 hplaced (hs.upto ▸ hsc') (hd s hsd)
        (hshape.of_rooted.1 _ hu')
      exact ⟨gs, fun _ => hgs⟩
    · exact ⟨[], fun h => absurd h he⟩
  choose gs hgs using hparts
  refine ⟨_, .parts id d as gs fun e he => (hgs e he).grafted, fun y => ?_, fun g hg => ?_⟩
  · refine (meets_rooted hmiss hn).trans ?_
    simp only [hr.content, Content.structural_map, List.mem_map, List.mem_flatMap,
      exists_exists_and_eq_and]
    constructor
    · rintro ⟨e, he, hm⟩
      obtain ⟨g, hg, hy⟩ := ((hgs e he).sources y).1 hm
      exact ⟨g, ⟨e, he, hg⟩, hy⟩
    · rintro ⟨g, ⟨e, he, hg⟩, hy⟩
      exact ⟨e, he, ((hgs e he).sources y).2 ⟨g, hg, hy⟩⟩
  · obtain ⟨e, he, hg⟩ := List.mem_flatMap.1 hg
    exact (hgs e he).copies g hg

end Substitutes

end OpenMath.Arena
