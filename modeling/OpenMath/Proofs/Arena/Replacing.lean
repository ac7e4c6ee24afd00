/-
  Substitution with its copies.

  The copies of the target and of the replacement are made before the walk and
  discarded after it.  What is left is what the walk did to the tree, and nothing
  else.

  * `Outcome`: a tree gave way to another one, or, as a root that is itself
    replaced, it stays and the other one is added;
  * `Wf.exchange_ok`: the walk, from wherever it starts;
  * `Cleared`: the copies are discarded;
  * `Wf.replaceFreeWithin_ok`: the walk between the copies;
  * `replaceFreeWithin_stale`, `Wf.replaceFreeWithin_nothing`,
    `Wf.replaceFreeWithin_error`: when there is nothing to be done, or a copy
    fails, every node stays as it is.
-/
import OpenMath.Proofs.Arena.Substituting

namespace OpenMath

theorem Edit.observing_run {α : Type} {x : Edit α} {a b : Arena} {r : Except Error α}
    (h : x a = some (r, b)) : (observing x : Edit (Except Error α)) a = some (.ok r, b) := by
  show ((do let v ← x; pure (.ok v) : Edit (Except Error α)) a).bind _ = _
  cases r with
  | ok v => rw [Edit.bind_ok h]; rfl
  | error e => rw [Edit.bind_error h]; rfl

namespace Arena

variable {a b c d e : Arena} {id p k x target replacement : NodeId} {t t' u v o r : Tree NodeId}
  {us vs : List (Tree NodeId)} {σ : Substitution NodeId} {above : List String} {role : Option Role}
  {upto : Option NodeId}

/-! ## The walk from its start -/

/-- What the walk makes of a tree: it gives way to another one, but a root that is
    itself replaced stays as it is, and the other one is added. -/
def Outcome (σ : Substitution NodeId) (above : List String) (t t' : Tree NodeId) (a b : Arena) :
    Prop :=
  if a.parent? t.label = none ∧ σ.hits t (σ.scope t above) = true then Planted a b [t']
  else Rewritten t t' a b

/-- A root that is replaced is left alone; the result is a copy of the
    replacement. -/
theorem Wf.walks_root (w : a.Wf) (hs : Snapshots σ k target replacement a)
    (ht : a.tree? t.label = some t) (hp : a.parent? t.label = none)
    (hsc : a.scope? σ.upto t.label = some (σ.scope t above))
    (hh : σ.hits t (σ.scope t above) = true) :
    ∃ b t', Exchange.run ⟨target, replacement, σ.upto⟩ t.label a = some (.ok t'.label, b) ∧
      Planted a b [t'] ∧ t'.mapLabels (older k) = σ.apply t above none := by
  obtain ⟨u, hu, -, hcopy⟩ := hs.replacement
  obtain ⟨t', b, hc, hpl, hterm⟩ := w.copy_ok hu hcopy
  have hroot : b.parent? t.label = none := by
    obtain ⟨n, hn, -⟩ := exists_node_of_tree ht
    rw [hpl.parent?_old (node?_lt hn), hp]
  have hf : σ.fits (σ.scope t above) none = true := by
    rw [scope?_root hp, Option.some.injEq] at hsc
    simp [Substitution.fits_iff, ← hsc]
  refine ⟨b, t', ?_, hpl, ?_⟩
  · rw [Exchange.run_eq, w.hits_eq hs ht hsc, if_pos hh, isFreeToReplace_root hp, if_pos rfl,
      substituteAt, Edit.bind_ok hc, Edit.bind_ok (Edit.get_run b), hroot]
    rfl
  · have hnew (x : NodeId) (hx : x ∈ t'.labels) : k ≤ x :=
      hs.lt_next.le.trans (hpl.fresh t' (List.mem_singleton_self t') x hx)
    rw [Substitution.apply_replaced hh hf, ← hterm, Tree.toTerm, Tree.mapLabels_mapLabels]
    exact Tree.mapLabels_congr fun x hx => if_neg (not_lt.2 (hnew x hx))

/-- The walk from wherever it starts. -/
theorem Wf.exchange_ok (w : a.Wf) (hs : Snapshots σ k target replacement a)
    (hpl : Placed k t role a) (hsc : a.scope? σ.upto t.label = some (σ.scope t above)) :
    ∃ b t', Exchange.run ⟨target, replacement, σ.upto⟩ t.label a = some (.ok t'.label, b) ∧
      Outcome σ above t t' a b ∧ t'.mapLabels (older k) = σ.apply t above role := by
  by_cases hroot : a.parent? t.label = none ∧ σ.hits t (σ.scope t above) = true
  · obtain ⟨b, t', hrun, hnew, hterm⟩ := w.walks_root hs hpl.tree hroot.1 hsc hroot.2
    refine ⟨b, t', hrun, ?_, hpl.root hroot.1 ▸ hterm⟩
    rwa [Outcome, if_pos hroot]
  · obtain ⟨b, t', hrun, hrew, hterm⟩ := walks σ k target replacement t a above role w hs hpl hsc
      fun hp => Bool.not_eq_true _ ▸ fun hh => hroot ⟨hp, hh⟩
    refine ⟨b, t', hrun, ?_, hterm⟩
    rwa [Outcome, if_neg hroot]

theorem Outcome.wf (h : Outcome σ above t t' a b) : b.Wf := by
  unfold Outcome at h
  split_ifs at h
  · exact h.wf
  · exact h.wf

theorem Outcome.next_le (h : Outcome σ above t t' a b) : a.next ≤ b.next := by
  unfold Outcome at h
  split_ifs at h
  · exact h.next_le
  · exact h.next_le

theorem Outcome.frame (h : Outcome σ above t t' a b) (hx : x < a.next) (ht : x ∉ t.labels)
    (hp : a.parent? t.label ≠ some x) : b.node? x = a.node? x := by
  unfold Outcome at h
  split_ifs at h
  · exact h.old x hx
  · exact h.frame x hx ht hp

theorem Outcome.parent (h : Outcome σ above t t' a b) :
    b.parent? t'.label = a.parent? t.label := by
  unfold Outcome at h
  split_ifs at h with hroot
  · rw [hroot.1, h.root t' (List.mem_singleton_self t')]
  · exact h.parent

/-! ## Discarding the copies -/

/-- From `b` to `c` the trees `us` are given up, and nothing else changes. -/
structure Cleared (us : List (Tree NodeId)) (b c : Arena) : Prop where
  wf : c.Wf
  next : c.next = b.next
  node? : ∀ x, c.node? x = if x ∈ us.flatMap Tree.labels then none else b.node? x

/-- Two trees that were added before the walk are discarded after it. -/
theorem Planted.clear (h : Planted a b [u, v]) (w : c.Wf)
    (hc : ∀ x, a.next ≤ x → x < b.next → c.node? x = b.node? x) :
    ∃ d e, Arena.discard u.label c = some (.ok (), d) ∧ Arena.discard v.label d = some (.ok (), e) ∧
      Cleared [u, v] c e := by
  have hu := List.mem_cons_self (a := u) (l := [v])
  have hv := List.mem_cons_of_mem u (List.mem_singleton_self v)
  have hnode {w : Tree NodeId} (hw : w ∈ [u, v]) {x : NodeId} (hx : x ∈ w.labels) :
      c.node? x = b.node? x := hc x (h.fresh w hw x hx) (h.label_lt hw hx)
  have htree {w : Tree NodeId} (hw : w ∈ [u, v]) : c.tree? w.label = some w :=
    tree?_congr (h.tree w hw) fun x hx n hn => ⟨n, by rw [hnode hw hx, hn], rfl, rfl⟩
  have hroot {w : Tree NodeId} (hw : w ∈ [u, v]) : c.parent? w.label = none := by
    rw [parent?, hnode hw w.label_mem_labels]
    exact h.root w hw
  have hout {x : NodeId} (hx : x ∈ v.labels) : x ∉ u.labels := fun hxu =>
    h.disjoint (List.mem_singleton_self v) hxu hx
  obtain ⟨d, hd, hfd, hnd, wd⟩ := w.discard_ok (hroot hu) (htree hu)
  have hvd : d.tree? v.label = some v := tree?_congr (htree hv) fun x hx n hn =>
    ⟨n, by rw [hfd x, if_neg (hout hx), hn], rfl, rfl⟩
  have hpd : d.parent? v.label = none := by
    rw [parent?, hfd, if_neg (hout v.label_mem_labels)]
    exact hroot hv
  obtain ⟨e, he, hfe, hne, we⟩ := wd.discard_ok hpd hvd
  refine ⟨d, e, hd, he, we, hne.trans hnd, ?_⟩
  intro x
  rw [hfe x, hfd x]
  by_cases h1 : x ∈ u.labels <;> by_cases h2 : x ∈ v.labels <;> simp [h1, h2]

/-- A tree that gave way between the copies gave way without them. -/
theorem Rewritten.cleared (w : a.Wf) (h : Rewritten t t' b c) (hp : Planted a b us)
    (ht : ∀ x ∈ t.labels, x < a.next) (he : Cleared us c e) : Rewritten t t' a e := by
  have hus {x : NodeId} (hx : x ∈ us.flatMap Tree.labels) : a.next ≤ x ∧ x < b.next := by
    obtain ⟨u, hu, hxu⟩ := List.mem_flatMap.1 hx
    exact ⟨hp.fresh u hu x hxu, hp.label_lt hu hxu⟩
  have hold {x : NodeId} (hx : x < a.next) : e.node? x = c.node? x := by
    rw [he.node?, if_neg fun hm => absurd (hus hm).1 (not_le.2 hx)]
  have hnew {x : NodeId} (hx : x ∈ t'.labels) : e.node? x = c.node? x := by
    rw [he.node?, if_neg fun hm => ?_]
    rcases h.origin x hx with hxt | hxb
    · exact absurd (hus hm).1 (not_le.2 (ht x hxt))
    · exact absurd (hus hm).2 (not_lt.2 hxb)
  have hpar : b.parent? t.label = a.parent? t.label := hp.parent?_old (ht _ t.label_mem_labels)
  have hlt {p : NodeId} (hq : a.parent? t.label = some p) : p < a.next := by
    obtain ⟨n, hn⟩ := w.live hq
    exact node?_lt hn
  refine ⟨he.wf, hp.next_le.trans (he.next ▸ h.next_le), ?_, ?_, ?_, ?_, ?_, ?_, ?_⟩
  · exact tree?_congr h.tree fun x hx n hn => ⟨n, by rw [hnew hx, hn], rfl, rfl⟩
  · rw [parent?, hnew t'.label_mem_labels, ← hpar]
    exact h.parent
  · intro p hq
    rw [hold (hlt hq), h.owner p (hpar.trans hq), hp.old p (hlt hq)]
  · intro x hx hxt hxp
    rw [hold hx, h.frame x (hx.trans_le hp.next_le) hxt (hpar ▸ hxp), hp.old x hx]
  · intro x hx hxt
    rw [hold (ht x hx)]
    exact h.freed x hx hxt
  · intro x hx
    exact (h.origin x hx).imp_right hp.next_le.trans
  · intro x n hx hn
    rw [he.node?] at hn
    split_ifs at hn with hm
    by_cases hb : x < b.next
    · have hxt : x ∉ t.labels := fun hxt => absurd (ht x hxt) (not_lt.2 hx)
      have hxp : b.parent? t.label ≠ some x := fun hq =>
        absurd (hlt (hpar.symm.trans hq)) (not_lt.2 hx)
      obtain ⟨u, hu, hxu⟩ := hp.covered x n hx (h.frame x hb hxt hxp ▸ hn)
      exact absurd (List.mem_flatMap.2 ⟨u, hu, hxu⟩) hm
    · exact h.covered x n (not_lt.1 hb) hn

/-- What was added between the copies was added without them. -/
theorem Planted.cleared (h : Planted a b us) (h' : Planted b c vs) (he : Cleared us c e) :
    Planted a e vs := by
  have hus {x : NodeId} (hx : x ∈ us.flatMap Tree.labels) : a.next ≤ x ∧ x < b.next := by
    obtain ⟨u, hu, hxu⟩ := List.mem_flatMap.1 hx
    exact ⟨h.fresh u hu x hxu, h.label_lt hu hxu⟩
  have hnew {v : Tree NodeId} (hv : v ∈ vs) {x : NodeId} (hx : x ∈ v.labels) :
      e.node? x = c.node? x := by
    rw [he.node?, if_neg fun hm => absurd (h'.fresh v hv x hx) (not_le.2 (hus hm).2)]
  refine ⟨he.wf, h.next_le.trans (he.next ▸ h'.next_le), ?_, ?_, ?_,
    fun v hv x hx => h.next_le.trans (h'.fresh v hv x hx), ?_, h'.distinct⟩
  · intro x hx
    rw [he.node?, if_neg fun hm => absurd (hus hm).1 (not_le.2 hx),
      h'.old x (hx.trans_le h.next_le), h.old x hx]
  · intro v hv
    exact tree?_congr (h'.tree v hv) fun x hx n hn => ⟨n, by rw [hnew hv hx, hn], rfl, rfl⟩
  · intro v hv
    rw [parent?, hnew hv v.label_mem_labels]
    exact h'.root v hv
  · intro x n hx hn
    rw [he.node?] at hn
    split_ifs at hn with hm
    by_cases hb : x < b.next
    · obtain ⟨u, hu, hxu⟩ := h.covered x n hx (h'.old x hb ▸ hn)
      exact absurd (List.mem_flatMap.2 ⟨u, hu, hxu⟩) hm
    · exact h'.covered x n (not_lt.1 hb) hn

theorem Outcome.cleared (w : a.Wf) (h : Outcome σ above t t' b c) (hp : Planted a b us)
    (ht : ∀ x ∈ t.labels, x < a.next) (he : Cleared us c e) : Outcome σ above t t' a e := by
  unfold Outcome at h ⊢
  rw [hp.parent?_old (ht _ t.label_mem_labels)] at h
  split_ifs at h ⊢
  · exact hp.cleared h he
  · exact h.cleared w hp ht he

/-! ## Before the walk -/

/-- The copies are what the walk needs. -/
theorem Wf.snapshots (w : a.Wf) (ho : a.tree? target = some o) (hr : a.tree? replacement = some r)
    {co cr : Term} (hco : o.copy = .ok co) (hcr : r.copy = .ok cr) (h : Planted a b [u, v])
    (hu : u.toTerm = co) (hv : v.toTerm = cr) (upto : Option NodeId) :
    Snapshots ⟨o, cr, upto⟩ a.next u.label v.label b where
  target := by
    have hm := List.mem_cons_self (a := u) (l := [v])
    refine ⟨u, h.tree u hm, h.fresh u hm, ?_⟩
    intro t ht
    have hus := h.wf.shaped (h.tree u hm)
    have hos := w.shaped ho
    rw [← ht.equals_rearranged hus (Tree.rearranges_mapLabels fun _ => ()) true,
      ← ht.equals_rearranged hos Tree.rearranges_arranged true, ← hos.copy_eq hco, ← hu, Tree.toTerm]
  replacement := by
    have hm := List.mem_cons_of_mem u (List.mem_singleton_self v)
    refine ⟨v, h.tree v hm, h.fresh v hm, ?_⟩
    rw [← Tree.copy_mapLabels (fun _ => ()) v, ← Tree.toTerm, hv]
    exact (w.shaped hr).copy_copy hcr

theorem Planted.scope?_old (h : Planted a b us) (w : a.Wf) {n : Node} (hn : a.node? id = some n)
    (upto : Option NodeId) : b.scope? upto id = a.scope? upto id := by
  refine w.acyclic.scope?_congr (fun x hx => h.parent?_old (w.lt_of_under hn hx))
    fun x y hy _ => ?_
  obtain ⟨m, hm⟩ := w.live hy
  rw [boundNames_eq (h.node?_old hm), boundNames_eq hm]
  refine List.filterMap_congr fun z hz => ?_
  obtain ⟨m', hm', -⟩ := w.node?_of_mem hm (Node.mem_owned_of_bound hz)
  rw [varName?, varName?, kind?, kind?, h.old z (node?_lt hm')]

/-- The role of a tree when the walk comes to it. -/
theorem Planted.placed (h : Planted a b us) (w : a.Wf) (ht : a.tree? t.label = some t) :
    Placed a.next t ((a.location? t.label).map Location.role) b := by
  have hold (x : NodeId) (hx : x ∈ t.labels) : x < a.next := by
    obtain ⟨n, hn⟩ := live_of_mem_labels ht hx
    exact node?_lt hn
  have hpar := h.parent?_old (hold _ t.label_mem_labels)
  refine ⟨h.tree?_old ht, hold, fun hp => ?_, fun p hp => ?_⟩
  · rw [location?, ← hpar, hp]
    rfl
  · rw [hpar] at hp
    obtain ⟨n, l, hn, hl, hs⟩ := w.locationIn?_spec hp
    refine ⟨node?_lt hn, n, l.role, h.node?_old hn, ?_, hs.mem⟩
    rw [location?, hp, Option.bind_some, hl, Option.map_some]

/-! ## The whole -/

/-- Where nothing is there to be replaced, or nothing to replace it by, nothing
    happens. -/
theorem replaceFreeWithin_stale (h : a.node? target = none ∨ a.node? replacement = none)
    (id : NodeId) (upto : Option NodeId) :
    replaceFreeWithin id target replacement upto a = some (.ok id, a) := by
  have hc : (!a.contains target || !a.contains replacement) = true := by
    rcases h with h | h <;> simp [contains, h]
  rw [replaceFreeWithin]
  refine (Edit.bind_ok (Edit.get_run a)).trans ?_
  exact congrArg (fun x : Edit NodeId => x a) (if_pos hc)

/-- The steps of a substitution between two nodes that are there, up to the
    walk. -/
theorem replaceFreeWithin_eq {n m : Node} (hn : a.node? target = some n)
    (hm : a.node? replacement = some m) (id : NodeId) (upto : Option NodeId) :
    replaceFreeWithin id target replacement upto a = (do
      let u ← copy target
      match ← observing (copy replacement) with
      | .error e => discard u; throw e
      | .ok v =>
        let result ← observing (if a.contains id then Exchange.run ⟨u, v, upto⟩ id else pure id)
        discard u; discard v; liftExcept result : Edit NodeId) a := by
  have hc : ¬(!a.contains target || !a.contains replacement) = true := by simp [contains, hn, hm]
  rw [replaceFreeWithin]
  refine (Edit.bind_ok (Edit.get_run a)).trans ?_
  exact congrArg (fun x : Edit NodeId => x a) (if_neg hc)

/-- A copy that fails leaves every node as it is. -/
theorem Wf.replaceFreeWithin_error (w : a.Wf) (ho : a.tree? target = some o)
    (hr : a.tree? replacement = some r)
    (hc : ¬((∃ c, o.copy = .ok c) ∧ ∃ c, r.copy = .ok c)) (id : NodeId) (upto : Option NodeId) :
    ∃ e b, replaceFreeWithin id target replacement upto a = some (.error e, b) ∧
      Planted a b [] := by
  obtain ⟨n, hn, -⟩ := exists_node_of_tree ho
  obtain ⟨m, hm, -⟩ := exists_node_of_tree hr
  rw [replaceFreeWithin_eq hn hm]
  rcases w.copy_cases target with ⟨e, he⟩ | ⟨t, co, ht, hco⟩
  · exact ⟨e, a, Edit.bind_error he, .nil w⟩
  · cases ho.symm.trans ht
    obtain ⟨u, b, hu, hpl, -⟩ := w.copy_ok ho hco
    rw [Edit.bind_ok hu]
    rcases hpl.wf.copy_cases replacement with ⟨e, he⟩ | ⟨t, cr, ht, hcr⟩
    · obtain ⟨c, hd, hc⟩ := hpl.discard
      refine ⟨e, c, ?_, hc⟩
      rw [Edit.bind_ok (Edit.observing_run he)]
      exact Edit.bind_ok hd
    · cases (hpl.tree?_old hr).symm.trans ht
      exact absurd ⟨⟨co, hco⟩, cr, hcr⟩ hc

/-- The copies are made, the walk does what it does, and the copies are
    discarded. -/
theorem Wf.replaceFreeWithin_walk (w : a.Wf) (ho : a.tree? target = some o)
    (hr : a.tree? replacement = some r) {co cr : Term} (hco : o.copy = .ok co)
    (hcr : r.copy = .ok cr) (id : NodeId) (upto : Option NodeId) :
    ∃ u v b, Planted a b [u, v] ∧ Snapshots ⟨o, cr, upto⟩ a.next u.label v.label b ∧
      ∀ res c, (if a.contains id then Exchange.run ⟨u.label, v.label, upto⟩ id else pure id) b =
        some (res, c) → c.Wf → (∀ x, a.next ≤ x → x < b.next → c.node? x = b.node? x) →
        ∃ e, Cleared [u, v] c e ∧
          replaceFreeWithin id target replacement upto a = some (res, e) := by
  obtain ⟨n, hn, -⟩ := exists_node_of_tree ho
  obtain ⟨m, hm, -⟩ := exists_node_of_tree hr
  obtain ⟨u, b₁, hu, hpu, htu⟩ := w.copy_ok ho hco
  obtain ⟨v, b, hv, hpv, htv⟩ := hpu.wf.copy_ok (hpu.tree?_old hr) hcr
  have hpl := hpu.trans hpv
  refine ⟨u, v, b, hpl, w.snapshots ho hr hco hcr hpl htu htv upto, ?_⟩
  intro res c hrun wc hc
  obtain ⟨d, e, hd, he, hcl⟩ := hpl.clear wc hc
  refine ⟨e, hcl, ?_⟩
  rw [replaceFreeWithin_eq hn hm, Edit.bind_ok hu, Edit.bind_ok (Edit.observing_run hv)]
  show (observing _ >>= _ : Edit NodeId) b = _
  rw [Edit.bind_ok (Edit.observing_run hrun), Edit.bind_ok hd, Edit.bind_ok he, Edit.liftExcept_run]

theorem scope_eq_of_scope? {names : List String}
    (h : a.scope? σ.upto t.label = some names) : σ.scope t names = names := by
  unfold Substitution.scope
  split_ifs with hu
  · rw [hu, scope?_self] at h
    exact Option.some.inj h
  · rfl

/-- Substitution in an arena is substitution on the tree that was there. -/
theorem Wf.replaceFreeWithin_ok (w : a.Wf) (ht : a.tree? id = some t)
    (ho : a.tree? target = some o) (hr : a.tree? replacement = some r) {co cr : Term}
    (hco : o.copy = .ok co) (hcr : r.copy = .ok cr) (upto : Option NodeId) :
    ∃ names b t', a.scope? upto id = some names ∧
      replaceFreeWithin id target replacement upto a = some (.ok t'.label, b) ∧
      Outcome ⟨o, cr, upto⟩ names t t' a b ∧
      t'.mapLabels (older a.next) = Substitution.apply ⟨o, cr, upto⟩ t names
        ((a.location? id).map Location.role) := by
  obtain rfl : t.label = id := tree?_label ht
  obtain ⟨n, hn, -⟩ := exists_node_of_tree ht
  obtain ⟨u, v, b, hpl, hs, hwalk⟩ := w.replaceFreeWithin_walk ho hr hco hcr t.label upto
  obtain ⟨names, hnames⟩ := w.acyclic.exists_scope upto t.label
  have hsc : b.scope? upto t.label = some (Substitution.scope ⟨o, cr, upto⟩ t names) := by
    rw [hpl.scope?_old w hn, hnames, scope_eq_of_scope? (σ := ⟨o, cr, upto⟩) hnames]
  have hplaced := hpl.placed w ht
  obtain ⟨c, t', hrun, hout, hterm⟩ := hpl.wf.exchange_ok hs hplaced hsc
  obtain ⟨e, hcl, hres⟩ := hwalk (.ok t'.label) c
    (by rw [if_pos (contains_iff.2 ⟨n, hn⟩)]; exact hrun) hout.wf fun x hx hxb =>
      hout.frame hxb (fun hm => absurd (hplaced.old x hm) (not_lt.2 hx)) fun hp =>
        absurd (hplaced.slot x hp).1 (not_lt.2 hx)
  exact ⟨names, e, t', hnames, hres, hout.cleared w hpl hplaced.old hcl, hterm⟩

/-- At an identity that is not in use there is nothing to be replaced. -/
theorem Wf.replaceFreeWithin_nothing (w : a.Wf) (hid : a.node? id = none)
    (ho : a.tree? target = some o) (hr : a.tree? replacement = some r) {co cr : Term}
    (hco : o.copy = .ok co) (hcr : r.copy = .ok cr) (upto : Option NodeId) :
    ∃ b, replaceFreeWithin id target replacement upto a = some (.ok id, b) ∧ Planted a b [] := by
  obtain ⟨u, v, b, hpl, -, hwalk⟩ := w.replaceFreeWithin_walk ho hr hco hcr id upto
  obtain ⟨e, hcl, hres⟩ := hwalk (.ok id) b
    (by rw [if_neg (by simp [contains, hid])]; rfl) hpl.wf fun _ _ _ => rfl
  exact ⟨e, hres, hpl.cleared (.nil hpl.wf) hcl⟩

end Arena

end OpenMath
