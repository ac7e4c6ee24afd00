/-
  Substitution in an arena is substitution on trees.

  The walk is followed down the tree.  At a node that is not replaced it goes
  through the parts one after the other; what it did to the earlier ones does not
  change the scope of the later ones.  The only part that can change what a
  binding binds is a bound variable at which scopes end; but the bound variables
  come last, and at another one of them the walk stops at its own name.

  * `Walks`: the walk rewrites a tree as `Substitution.apply` does;
  * `walks_parts`: the parts of a node in a row;
  * `walks`: every tree.
-/
import OpenMath.Proofs.Arena.Siblings

namespace OpenMath.Arena

variable {a b : Arena} {id p k target replacement : NodeId} {n : Node} {t t' u v : Tree NodeId}
  {us : List (Tree NodeId)} {σ : Substitution NodeId} {above : List String}

/-- A tree has a role in an arena: that of its slot, or none if it is a root. -/
structure Placed (k : NodeId) (t : Tree NodeId) (role : Option Role) (a : Arena) : Prop where
  tree : a.tree? t.label = some t
  old : ∀ x ∈ t.labels, x < k
  root : a.parent? t.label = none → role = none
  slot : ∀ p, a.parent? t.label = some p → p < k ∧
    ∃ n r, a.node? p = some n ∧ role = some r ∧ ⟨r, t.label⟩ ∈ n.slots

/-- The walk rewrites a tree as the substitution of trees does, unless the tree is
    that of a root and is replaced as a whole. -/
def Walks (σ : Substitution NodeId) (k target replacement : NodeId) (t : Tree NodeId) : Prop :=
  ∀ (a : Arena) (above : List String) (role : Option Role), a.Wf →
    Snapshots σ k target replacement a → Placed k t role a →
    a.scope? σ.upto t.label = some (σ.scope t above) →
    (a.parent? t.label = none → σ.hits t (σ.scope t above) = false) →
    ∃ b t', Exchange.run ⟨target, replacement, σ.upto⟩ t.label a = some (.ok t'.label, b) ∧
      Rewritten t t' a b ∧ t'.mapLabels (older k) = σ.apply t above role

/-! ## The tests -/

theorem mapLabels_older (h : ∀ x ∈ t.labels, x < k) : t.mapLabels (older k) = t.mapLabels some :=
  Tree.mapLabels_congr fun x hx => if_pos (h x hx)

theorem Snapshots.lt_next (h : Snapshots σ k target replacement a) : k < a.next := by
  obtain ⟨u, hu, hk, -⟩ := h.target
  obtain ⟨n, hn, -⟩ := exists_node_of_tree hu
  exact (hk _ (tree?_label hu ▸ u.label_mem_labels)).trans_lt (node?_lt hn)

theorem Wf.hits_eq (w : a.Wf) (hs : Snapshots σ k target replacement a)
    (ht : a.tree? t.label = some t) (hsc : a.scope? σ.upto t.label = some (σ.scope t above)) :
    (a.equals t.label target true && a.isFree t.label σ.upto) = σ.hits t (σ.scope t above) := by
  obtain ⟨u, hu, -, he⟩ := hs.target
  have heq : a.equals t.label target true = t.equals true σ.target := by
    rw [equals, ht, hu]
    exact he t (w.shaped ht)
  rw [Bool.eq_iff_iff, Bool.and_eq_true, heq, w.isFree_iff ht hsc, Substitution.hits_iff]

theorem Wf.name_of_bound (w : a.Wf) (ht : a.tree? t.label = some t) (hn : a.node? p = some n)
    (hb : t.label ∈ n.content.bound) :
    ∃ name, t.kind = .var name ∧ name ∈ a.boundNames p none := by
  have hvar := w.isVar_of_mem hn hb
  rw [isVar, kind?_of_tree ht, Option.any_some, beq_iff_eq] at hvar
  obtain ⟨name, hk⟩ : ∃ name, t.kind = .var name := by
    cases hk : t.kind <;> simp [hk, Kind.type] at hvar
    exact ⟨_, rfl⟩
  refine ⟨name, hk, mem_boundNames.2 ⟨n, hn, t.label, hb, ?_⟩⟩
  rw [varName?, kind?_of_tree ht, hk]
  rfl

theorem Wf.upto_of_bound (w : a.Wf) (ht : a.tree? t.label = some t)
    (hp : a.parent? t.label = some p) (hn : a.node? p = some n) (hb : t.label ∈ n.content.bound)
    (hsc : a.scope? σ.upto t.label = some (σ.scope t above))
    (hh : σ.hits t (σ.scope t above) = true) : σ.upto = some t.label := by
  by_contra hu
  obtain ⟨names, hnames⟩ := w.acyclic.exists_scope σ.upto p
  rw [scope?_of_parent hp hnames, if_neg hu, Option.some.injEq] at hsc
  obtain ⟨name, hk, hname⟩ := w.name_of_bound ht hn hb
  refine (Substitution.hits_iff.1 hh).2 name ?_ (hsc ▸ List.mem_append_left _ hname)
  rw [Tree.freeNames_eq, hk]
  exact List.mem_singleton_self name

theorem mem_bound_iff {x : NodeId} : ⟨.bound, x⟩ ∈ n.slots ↔ x ∈ n.content.bound := by
  simp [Node.slots, Content.allSlots, Content.slots, Content.placed, Content.attributeSlots]

theorem mem_bound_of_slots {α : Type} {c : Content α} {s : Slot α} (hs : s ∈ c.slots)
    (hr : s.role = .bound) : s.content ∈ c.bound :=
  (Content.forall_slots (P := fun r x => r = .bound → x ∈ c.bound)).2
    ⟨fun _ _ => nofun, fun _ _ => nofun, fun _ h _ => h, fun _ _ => nofun⟩ s hs hr

/-- The test for the slot of an occurrence. -/
theorem Wf.fits_eq (w : a.Wf) (hs : Snapshots σ k target replacement a) {role : Option Role}
    (hpl : Placed k t role a) (hp : a.parent? t.label = some p)
    (hsc : a.scope? σ.upto t.label = some (σ.scope t above))
    (hh : σ.hits t (σ.scope t above) = true) :
    ∃ l, a.locationIn? p t.label = some l ∧ role = some l.role ∧
      a.isFreeToReplace replacement t.label σ.upto = σ.fits (σ.scope t above) role := by
  obtain ⟨n, l, hn, hl, hsits⟩ := w.locationIn?_spec hp
  obtain ⟨-, n', r, hn', rfl, hr⟩ := hpl.slot p hp
  cases hn.symm.trans hn'
  obtain rfl : r = l.role := w.role_eq hn hr hsits.mem
  obtain ⟨u, hu, hk, hcopy⟩ := hs.replacement
  have hne : replacement ≠ t.label := by
    rintro rfl
    exact absurd (hpl.old _ t.label_mem_labels)
      (not_lt.2 (hk _ (tree?_label hu ▸ u.label_mem_labels)))
  have hru : σ.replacement.kind = u.kind ∧ σ.replacement.freeNames = u.freeNames := by
    have hsh := w.shaped hu
    rw [hsh.copy_eq hcopy]
    exact ⟨Tree.rearranges_arranged.kind u, hsh.freeNames_rearranged Tree.rearranges_arranged⟩
  refine ⟨l, hl, rfl, ?_⟩
  -- so the test never takes a bound variable to have another name
  have hb : l.role = .bound → σ.upto = some t.label := fun e =>
    w.upto_of_bound hpl.tree hp hn (mem_bound_iff.1 (e ▸ hsits.mem)) hsc hh
  rw [Bool.eq_iff_iff, w.isFreeToReplace_iff hu hne hp hl hb hsc, Substitution.fits_iff, hru.1,
    hru.2]
  simp

/-! ## An occurrence -/

theorem Exchange.run_eq (target replacement : NodeId) (upto : Option NodeId) (id : NodeId)
    (a : Arena) :
    Exchange.run ⟨target, replacement, upto⟩ id a =
      (if a.equals id target true && a.isFree id upto then
        if a.isFreeToReplace replacement id upto then substituteAt id replacement else pure id
      else
        match a.node? id with
        | none => pure id
        | some n => do
          (visited n.content).forM fun part => do
            let _ ← Exchange.run ⟨target, replacement, upto⟩ part
          pure id : Edit NodeId) a := by
  rw [Exchange.run]
  exact Edit.bind_ok (Edit.get_run a)

/-- An attached occurrence is replaced or kept as a whole. -/
theorem Wf.walks_hit (w : a.Wf) (hs : Snapshots σ k target replacement a) {role : Option Role}
    (hpl : Placed k t role a) (hp : a.parent? t.label = some p)
    (hsc : a.scope? σ.upto t.label = some (σ.scope t above))
    (hh : σ.hits t (σ.scope t above) = true) :
    ∃ b t', Exchange.run ⟨target, replacement, σ.upto⟩ t.label a = some (.ok t'.label, b) ∧
      Rewritten t t' a b ∧ t'.mapLabels (older k) = σ.apply t above role := by
  obtain ⟨l, hl, rfl, hfit⟩ := w.fits_eq hs hpl hp hsc hh
  rw [Exchange.run_eq, w.hits_eq hs hpl.tree hsc, if_pos hh, hfit]
  by_cases hf : σ.fits (σ.scope t above) (some l.role) = true
  · rw [if_pos hf, Substitution.apply_replaced hh hf]
    obtain ⟨b, t', hrun, hrew, hterm, hnew⟩ :=
      w.substituteAt_ok hs hpl.tree hp hl ((Substitution.fits_iff.1 hf).1 _ rfl)
    refine ⟨b, t', hrun, hrew, ?_⟩
    rw [← hterm, Tree.toTerm, Tree.mapLabels_mapLabels]
    exact Tree.mapLabels_congr fun x hx => if_neg (not_lt.2 (hs.lt_next.le.trans (hnew x hx)))
  · rw [if_neg hf, Substitution.apply_kept hh (Bool.not_eq_true _ ▸ hf)]
    exact ⟨a, t, rfl, .refl w hpl.tree, mapLabels_older hpl.old⟩

/-! ## The parts of a node -/

/-- What is known of the parts that the walk has still to go through: they are in
    the slots of the node, whose scope has not changed, and which still binds the
    names that it bound unless bound variables are all that is left. -/
structure Pending (σ : Substitution NodeId) (id : NodeId) (cs : Content (Tree NodeId))
    (names : List String) (us : List (Tree NodeId)) (a : Arena) : Prop where
  siblings : Siblings id us a
  part : ∀ u ∈ us, u ∈ cs.structural
  slot : ∀ n, a.node? id = some n → ∀ s ∈ cs.slots, s.content ∈ us →
    ⟨s.role, s.content.label⟩ ∈ n.slots
  scope : a.scope? σ.upto id = some names
  bound : (∀ u ∈ us, u ∈ cs.bound) ∨ a.boundNames id none = Tree.namesOf cs.bound
  order : us.Pairwise fun u v => u ∈ cs.bound → v ∈ cs.bound

namespace Pending

variable {cs : Content (Tree NodeId)} {names : List String}

/-- When the walk is through with one part, the same is known of the others. -/
theorem step (h : Pending σ id cs names (u :: us) a) (w : a.Wf) (hr : Rewritten u t' a b) :
    Pending σ id cs names us b := by
  have hu := List.mem_cons_self (a := u) (l := us)
  have ht := h.siblings.tree u hu
  have hp := h.siblings.parent u hu
  obtain ⟨n, hn⟩ := w.live hp
  refine ⟨h.siblings.step w hr, fun v hv => h.part v (List.mem_cons_of_mem u hv), ?_,
    (hr.scope?_eq w ht hp hn σ.upto).trans h.scope, ?_, (List.pairwise_cons.1 h.order).2⟩
  · intro m hm s hs hsu
    cases (hr.node?_owner hp hn).symm.trans hm
    rw [Node.rename, Node.slots_mapOwned]
    refine List.mem_map.2 ⟨_, h.slot n hn s hs (List.mem_cons_of_mem u hsu), ?_⟩
    rw [Slot.map, if_neg (h.siblings.label_ne hsu)]
  · by_cases hub : u ∈ cs.bound
    · exact .inl fun v hv => (List.pairwise_cons.1 h.order).1 v hv hub
    · rcases h.bound with hb | hb
      · exact absurd (hb u hu) hub
      · refine .inr ((hr.boundNames_eq w ht hp hn fun hm => hub ?_).trans hb)
        obtain ⟨s, hs, rfl⟩ := List.mem_map.1 (cs.contents_slots ▸ h.part u hu)
        exact mem_bound_of_slots hs
          (w.role_eq hn (h.slot n hn s hs hu) (mem_bound_iff.2 hm))

/-- A part has the role of its slot. -/
theorem placed (h : Pending σ id cs names us a) (w : a.Wf) {s : Slot (Tree NodeId)}
    (hs : s ∈ cs.slots) (hsu : s.content ∈ us) (hk : ∀ u ∈ us, ∀ x ∈ u.labels, x < k)
    (hid : id < k) : Placed k s.content (some s.role) a where
  tree := h.siblings.tree _ hsu
  old := hk _ hsu
  root hp := by
    rw [h.siblings.parent _ hsu] at hp
    cases hp
  slot p hp := by
    rw [h.siblings.parent _ hsu] at hp
    cases hp
    obtain ⟨n, hn⟩ := w.live (h.siblings.parent _ hsu)
    exact ⟨hid, n, s.role, hn, rfl, h.slot n hn s hs hsu⟩

/-- A part that is rewritten with the names in scope that the arena has for it is
    rewritten as with the names that the node had bound at first. -/
theorem apply_eq (h : Pending σ id cs names us a) (w : a.Wf) (hu : u ∈ us) (role : Option Role) :
    σ.apply u (a.boundNames id none ++ names) role =
      σ.apply u (Tree.namesOf cs.bound ++ names) role := by
  -- once the bound variables are being rewritten, some of them may have new names,
  -- but what is left to rewrite are variables that bind their own names
  rcases h.bound with hb | hb
  · have hub := hb u hu
    obtain ⟨n, hn⟩ := w.live (h.siblings.parent u hu)
    have ht := h.siblings.tree u hu
    have hm : (⟨.bound, u⟩ : Slot (Tree NodeId)) ∈ cs.slots := by
      simp [Content.slots, Content.placed, hub]
    obtain ⟨name, hk, hname⟩ := w.name_of_bound ht hn (mem_bound_iff.1 (h.slot n hn _ hm hu))
    refine Substitution.apply_variable (w.shaped ht) hk (List.mem_append_left _ hname)
      (List.mem_append_left _ (List.mem_filterMap.2 ⟨u, hub, ?_⟩)) role
    rw [hk]
    rfl
  · rw [hb]

end Pending

/-- The walk rewrites the parts of a node one after the other. -/
theorem walks_parts {cs : Content (Tree NodeId)} {names : List String} (w : a.Wf)
    (hs : Snapshots σ k target replacement a) (h : Pending σ id cs names us a) (hid : id < k)
    (hk : ∀ u ∈ us, ∀ x ∈ u.labels, x < k) (ih : ∀ u ∈ us, Walks σ k target replacement u) :
    ∃ b R, ((us.map Tree.label).forM fun part => do
        let _ ← Exchange.run ⟨target, replacement, σ.upto⟩ part : Edit Unit) a = some (.ok (), b) ∧
      PartsRewritten id us R a b ∧
      ∀ s ∈ cs.slots, s.content ∈ us → (R s.content).mapLabels (older k) =
        σ.apply s.content (Tree.namesOf cs.bound ++ names) (some s.role) := by
  induction us generalizing a with
  | nil => exact ⟨a, fun u => u, rfl, .nil w, fun _ _ => nofun⟩
  | cons u us ihs =>
    have hu := List.mem_cons_self (a := u) (l := us)
    have hp := h.siblings.parent u hu
    obtain ⟨n, hn⟩ := w.live hp
    obtain ⟨s, hsl, rfl⟩ := List.mem_map.1 (cs.contents_slots ▸ h.part u hu)
    obtain ⟨b, t', hrun, hrew, hterm⟩ := ih s.content hu a (a.boundNames id none ++ names)
      (some s.role) w hs (h.placed w hsl hu hk hid) (scope?_of_parent hp h.scope)
      fun hq => by simp [hp] at hq
    -- the copies lie above `k`, out of reach of what happens to the tree
    have hs' : Snapshots σ k target replacement b := hs.mono fun x hx hxa => by
      refine hrew.frame x hxa (fun hm => absurd (hk _ hu x hm) (not_lt.2 hx)) fun e => ?_
      rw [hp] at e
      cases e
      exact absurd hid (not_lt.2 hx)
    obtain ⟨c, R, hrun', hparts, hR⟩ := ihs hrew.wf hs' (h.step w hrew)
      (fun v hv => hk v (List.mem_cons_of_mem _ hv)) fun v hv => ih v (List.mem_cons_of_mem _ hv)
    refine ⟨c, _, ?_, .cons w h.siblings hrew hparts, ?_⟩
    · rw [List.map_cons]
      exact (Edit.bind_ok (Edit.bind_ok hrun)).trans hrun'
    · intro r hr hru
      by_cases he : r.content.label = s.content.label
      · have hrs : r.role = s.role := by
          have := h.slot n hn r hr hru
          rw [he] at this
          exact w.role_eq hn this (h.slot n hn s hsl hu)
        have hc : r.content = s.content := by
          rcases List.mem_cons.1 hru with e | hru
          · exact e
          · exact absurd he (h.siblings.label_ne hru)
        rw [if_pos he, hterm, hc, hrs, h.apply_eq w hu]
      · rw [if_neg he]
        exact hR r hr ((List.mem_cons.1 hru).resolve_left fun e => he (e ▸ rfl))

/-! ## The order of the parts -/

section
variable {α β : Type}

theorem visited_map (f : α → β) (c : Content α) : visited (c.map f) = (visited c).map f := by
  simp [visited, Option.toList_map]

theorem perm_visited (c : Content α) : (visited c).Perm c.structural := by
  have hb : (c.body?.toList ++ c.bound).Perm (c.bound ++ c.body?.toList) := List.perm_append_comm
  have h := hb.append_left c.head?.toList
  rw [← List.append_assoc] at h
  refine (h.append_right c.children).trans (List.perm_append_comm.trans ?_)
  simp [Content.structural]

/-- Bound variables come last. -/
theorem visited_order {c : Content α} (h : c.structural.Nodup) :
    (visited c).Pairwise fun x y => x ∈ c.bound → y ∈ c.bound := by
  cases c with
  | binding hd vs b =>
    simp only [Content.structural, Content.children, Content.head?, Content.bound, Content.body?,
      List.nil_append, List.nodup_append, List.mem_append] at h
    simp only [visited, Content.children, Content.head?, Content.bound, Content.body?,
      List.append_nil]
    have hout {x : α} (hx : x ∈ hd.toList ++ b.toList) : x ∉ vs := fun hv => by
      rcases List.mem_append.1 hx with hx | hx
      · exact h.1.2.2 x hx x hv rfl
      · exact h.2.2 x (.inr hv) x hx rfl
    refine List.pairwise_append.2 ⟨?_, ?_, fun _ _ y hy _ => hy⟩
    · exact List.pairwise_of_forall_mem_list fun x hx y _ hv => absurd hv (hout hx)
    · exact List.pairwise_of_forall_mem_list fun _ _ y hy _ => hy
  | _ => exact List.pairwise_of_forall fun _ _ h => absurd h List.not_mem_nil

end

/-! ## Every tree -/

/-- Before the walk goes through the parts of a node, all of them are pending. -/
theorem Pending.all {cs : Content (Tree NodeId)} {as : List (Symbol × Tree NodeId)}
    {names : List String} (w : a.Wf) (hn : a.node? id = some n) (hr : a.Roots n cs as)
    (hsc : a.scope? σ.upto id = some names) : Pending σ id cs names (visited cs) a := by
  have hmem {u : Tree NodeId} : u ∈ visited cs ↔ u ∈ cs.structural := (perm_visited cs).mem_iff
  have hnd : (cs.structural.map Tree.label).Nodup := by
    have := w.owned_nodup hn
    rw [hr.owned] at this
    exact (List.nodup_append.1 this).1
  refine ⟨⟨fun u hu => hr.part u (hmem.1 hu), fun u hu => (hr.parent w hn).1 u (hmem.1 hu),
    ((perm_visited cs).map _).nodup_iff.2 hnd⟩, fun u => hmem.1, ?_, hsc,
    .inr (boundNames_roots hn hr), visited_order hnd.of_map⟩
  intro m hm s hs _
  cases hn.symm.trans hm
  rw [hr.slots]
  exact List.mem_map_of_mem (f := Slot.map Tree.label) (List.mem_append_left _ hs)

/-- The walk rewrites every tree as the substitution of trees does. -/
theorem walks (σ : Substitution NodeId) (k target replacement : NodeId) (t : Tree NodeId) :
    Walks σ k target replacement t := by
  induction t using Tree.induction with
  | node l kind ss ih =>
    intro a above role w hs hpl hsc hroot
    by_cases hh : σ.hits (.node l kind ss) (σ.scope (.node l kind ss) above) = true
    · -- an occurrence, which is not a root
      obtain ⟨p, hp⟩ := Option.ne_none_iff_exists'.1 fun hp => by simp [hroot hp] at hh
      exact w.walks_hit hs hpl hp hsc hh
    · -- the node stays, and the walk goes on in its parts
      obtain ⟨n, cs, as, hn, hr, he⟩ := exists_roots hpl.tree
      have hss : ss = cs.allSlots as := congrArg Tree.slots he
      rw [Tree.label_node] at hn he
      have hmem {u : Tree NodeId} : u ∈ visited cs ↔ u ∈ cs.structural := (perm_visited cs).mem_iff
      have hparts (u : Tree NodeId) (hu : u ∈ visited cs) : Walks σ k target replacement u := by
        have hu : u ∈ (cs.allSlots as).contents :=
          Content.contents_allSlots cs as ▸ List.mem_append_left _ (hmem.1 hu)
        obtain ⟨s, hs, rfl⟩ := List.mem_map.1 hu
        exact ih s (hss ▸ hs)
      have hold := hpl.old
      rw [Exchange.run_eq, w.hits_eq hs hpl.tree hsc, if_neg hh]
      rw [he] at hsc hh hold ⊢
      simp only [Tree.label_rooted, hn]
      rw [hr.content, visited_map]
      have hpart (u : Tree NodeId) (hu : u ∈ visited cs) (x : NodeId) (hx : x ∈ u.labels) : x < k :=
        hold x ((Tree.mem_labels_rooted ..).2 (.inr ⟨u, List.mem_append_left _ (hmem.1 hu), hx⟩))
      have hid : l < k := hold l (Tree.label_mem_labels _)
      obtain ⟨b, R, hrun, hrew, hR⟩ := walks_parts w hs (.all w hn hr hsc) hid hpart hparts
      refine ⟨b, _, Edit.bind_ok hrun, hrew.rewritten w hn hr (perm_visited cs), ?_⟩
      have hcontent : (cs.map R).map (Tree.mapLabels (older k)) = cs.mapRoles fun r u =>
          σ.apply u (Tree.namesOf cs.bound ++ σ.scope (.rooted l cs as) above) (some r) := by
        rw [Content.map_map]
        refine (Content.map_eq_mapRoles ..).trans
          (Content.mapRoles_congr fun s hs => hR s hs (hmem.2 ?_))
        exact cs.contents_slots ▸ List.mem_map_of_mem hs
      have hvalues : as.map (fun e => (e.1, e.2.mapLabels (older k))) =
          as.map fun e => (e.1, e.2.mapLabels some) :=
        List.map_congr_left fun e he => Prod.ext rfl (mapLabels_older fun x hx => hold x
          ((Tree.mem_labels_rooted ..).2
            (.inr ⟨e.2, List.mem_append_right _ (List.mem_map_of_mem he), hx⟩)))
      rw [Tree.mapLabels_rooted, Substitution.apply_rooted (Bool.not_eq_true _ ▸ hh), hcontent, hvalues,
        older, if_pos hid]

end OpenMath.Arena
