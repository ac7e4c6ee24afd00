/-
  Swapping a node in and back.

  A root that takes the slot of an attached node leaves no slot of its own behind, and
  nothing moves up: the second swap finds the same slot, is not refused there, and
  writes back every link that the first one wrote.

  * `ext_node?`: an arena is determined by its nodes and the first identity that was
    never given;
  * `Wf.replaceWith_root`: a root takes a slot, seen from one node;
  * `swap_swap`: the second swap undoes the first one at every node;
  * `Wf.replaces_back`: the second swap is not refused;
  * `Reachable.replaceWith_restores`: the arena is the one from before.
-/
import OpenMath.Proofs.Arena.Commands

namespace OpenMath

/-- A node with another one in the place of a given one, and back again. -/
theorem Node.rename_rename {n : Node} {x y : NodeId} (hy : y ∉ n.owned) :
    (n.rename x y).rename y x = n := by
  have hback : ∀ z ∈ n.owned,
      (if (if z = x then y else z) = y then x else if z = x then y else z) = z := by
    intro z hz
    by_cases hzx : z = x
    · rw [if_pos hzx, if_pos rfl, hzx]
    · have hzy : z ≠ y := by
        rintro rfl
        exact hy hz
      rw [if_neg hzx, if_neg hzy]
  rw [rename, rename, mapOwned_mapOwned, mapOwned_congr hback]
  simp [mapOwned, Content.map_self]

namespace Arena

variable {a b c : Arena} {p x y z : NodeId} {l : Location} {n : Node}

/-- An arena is determined by its nodes and the first identity that was never given. -/
theorem ext_node? (hnext : a.next = b.next) (h : ∀ x, a.node? x = b.node? x) : a = b := by
  obtain ⟨ps⟩ := a
  obtain ⟨qs⟩ := b
  refine congrArg Arena.mk (Array.ext hnext fun i hi hi' => ?_)
  have hnode : (ps[i]?).join = (qs[i]?).join := h i
  rw [Array.getElem?_eq_getElem hi, Array.getElem?_eq_getElem hi'] at hnode
  exact hnode

/-! ## There and back -/

/-- A root takes the slot of another node. -/
theorem Wf.replaceWith_root (w : a.Wf) (h : Replaces a x y p l) (hy : a.parent? y = none) :
    ∃ c, replaceWith x y a = some (.ok (some x), c) ∧ Remapped (Arena.swap p x y) a c ∧
      c.next = a.next ∧ c.Wf := by
  obtain ⟨b, c, hd, hrun, hc, hnext, wc⟩ := w.replaceWith_ok h
  refine ⟨c, hrun, ?_, hnext, wc⟩
  intro z
  rw [hc z, hd.node?_of_root hy]

/-- A swap and the one that goes back leave a node as it was. -/
theorem swap_swap (hxy : x ≠ y) (howned : z = p → y ∉ n.owned) (hx : z = x → n.parent = some p)
    (hy : z = y → n.parent = none) : swap p y x z (swap p x y z n) = n := by
  obtain ⟨c, as, q⟩ := n
  unfold swap
  by_cases hzp : z = p
  · rw [if_pos hzp, if_pos hzp, Node.rename_rename (howned hzp)]
  · rw [if_neg hzp, if_neg hzp]
    by_cases hzx : z = x
    · obtain rfl : q = some p := hx hzx
      rw [if_pos hzx, if_neg (hzx ▸ hxy), if_pos hzx]
    · by_cases hzy : z = y
      · obtain rfl : q = none := hy hzy
        rw [if_neg hzx, if_pos hzy, if_pos hzy]
      · rw [if_neg hzx, if_neg hzy, if_neg hzy, if_neg hzx]

theorem Under.of_link (u : b.Under x z)
    (hl : ∀ c q, b.parent? c = some q → a.parent? c = some q ∨ c = y) :
    a.Under x z ∨ b.Under y z := by
  induction u with
  | refl => exact .inl .refl
  | @step c q hq _ ih =>
    rcases hl c q hq with hq' | rfl
    · exact ih.imp (.step hq') (.step hq)
    · exact .inr .refl

/-- A root that took the slot of a node can be replaced by that node in turn. -/
theorem Wf.replaces_back (w : a.Wf) (wc : c.Wf) (h : Replaces a x y p l)
    (hy : a.parent? y = none) (hc : Remapped (Arena.swap p x y) a c) :
    ∃ l', Replaces c y x p l' ∧ c.parent? x = none := by
  have hpar (z : NodeId) := parent?_swap (x := z) hc (w.acyclic.parent?_ne h.parent)
    (fun e => h.outside (e ▸ .of_parent h.parent)) h.live
  have hparent : c.parent? y = some p := by rw [hpar, if_pos rfl]
  have hlive : c.contains x = a.contains x := hc.contains
  obtain ⟨nx, hnx, -⟩ := node?_of_parent? h.parent
  obtain ⟨m, l', hm, hl', hs⟩ := wc.locationIn?_spec hparent
  refine ⟨l', ⟨h.ne.symm, ?_, hparent, hl', ?_, ?_⟩, ?_⟩
  · exact contains_iff.1 (hlive.trans (contains_iff.2 ⟨nx, hnx⟩))
  · -- the slot is the one in which the node was, whose kind it admits
    intro k hk
    rw [hc p, Option.map_eq_some_iff] at hm
    obtain ⟨n, hn, rfl⟩ := hm
    have hmem := hs.mem
    rw [Arena.swap, if_pos rfl, Node.rename, Node.slots_mapOwned] at hmem
    obtain ⟨s, hs, he⟩ := List.mem_map.1 hmem
    obtain ⟨hrole, hcontent⟩ := Slot.mk.inj he
    have hsx : s.content = x := by
      by_contra hne
      have hsy : s.content = y := (if_neg hne).symm.trans hcontent
      cases hy.symm.trans (w.parent?_of_mem hn (hsy ▸ Node.mem_owned_of_slot hs))
    rw [← hrole]
    refine w.fits hn s hs k ?_
    rw [hsx, ← hk, hc.kind? (kind_swap p x y)]
  · -- a cycle would lead over the new link
    have hlink (z q : NodeId) (hz : c.parent? z = some q) : a.parent? z = some q ∨ z = y := by
      rw [hpar] at hz
      split_ifs at hz with hzy
      · exact .inr hzy
      · exact .inl hz
    intro u
    rcases u.cases_parent with e | ⟨q, hq, u⟩
    · exact h.ne e.symm
    · cases hparent.symm.trans hq
      rcases u.of_link hlink with u | u
      · exact w.acyclic.not_under h.parent u
      · exact wc.acyclic.not_under hparent u
  · rw [hpar, if_neg h.ne, if_pos rfl]

/-- When a root has taken the slot of an attached node, then putting that node back gives
    the root as the result, and leaves the very arena from before: the kinds, the slots and
    the attributes of all nodes, in their order, and their parents. -/
theorem Reachable.replaceWith_restores (h : a.Reachable) (hy : a.parent? y = none)
    (hrun : replaceWith x y a = some (.ok (some x), b)) :
    replaceWith y x b = some (.ok (some y), a) := by
  have w := h.wf
  obtain ⟨p, l, hr⟩ : ∃ p l, Replaces a x y p l := by
    by_contra hno
    obtain ⟨r, hkept, hne⟩ := w.replaceWith_kept fun p l hr => hno ⟨p, l, hr⟩
    cases hrun.symm.trans hkept
    exact hne x rfl
  obtain ⟨c, hrun', hc, hnext, wc⟩ := w.replaceWith_root hr hy
  cases hrun.symm.trans hrun'
  obtain ⟨l', hback, hx⟩ := w.replaces_back wc hr hy hc
  obtain ⟨d, hrun, hd, hnext', -⟩ := wc.replaceWith_root hback hx
  have hda : d = a := by
    refine ext_node? (hnext'.trans hnext) fun z => ?_
    rw [hd z, hc z, Option.map_map]
    cases hn : a.node? z with
    | none => rfl
    | some n =>
      have hparent (q : Option NodeId) (hz : a.parent? z = q) : n.parent = q := by
        simpa [parent?, hn] using hz
      refine congrArg some (swap_swap hr.ne ?_ ?_ ?_)
      · rintro rfl hm
        cases hy.symm.trans (w.parent?_of_mem hn hm)
      · rintro rfl
        exact hparent _ hr.parent
      · rintro rfl
        exact hparent _ hy
  rw [hrun, hda]

/-- A binding with a variable beside it. -/
def identityBeside : Arena where
  places := identity.places.push (some ⟨.var "y", [], none⟩)

theorem reachable_identityBeside : identityBeside.Reachable :=
  .step (c := .var "y") (r := .ok ()) reachable_identity (by cbv)

/-- The same with that variable bound. -/
def identityInstalled : Arena where
  places := #[some ⟨.symbol binder, [], some 3⟩,
    some ⟨.var "x", [], none⟩, some ⟨.var "x", [], some 3⟩,
    some ⟨.binding (some 0) [4] (some 2), [], none⟩, some ⟨.var "y", [], some 3⟩]

/-- The bound variable of a binding gives way to a detached variable, and comes back. -/
theorem replaceWith_restores_identity :
    ∃ a b, a.Reachable ∧ a.parent? 1 = some 3 ∧ replaceWith 1 4 a = some (.ok (some 1), b) ∧
      b.compact 3 = "q.l[y,x]" ∧ replaceWith 4 1 b = some (.ok (some 4), a) := by
  have hrun : replaceWith 1 4 identityBeside = some (.ok (some 1), identityInstalled) := by cbv
  exact ⟨identityBeside, identityInstalled, reachable_identityBeside, rfl, hrun, by cbv,
    reachable_identityBeside.replaceWith_restores rfl hrun⟩

end Arena

end OpenMath
