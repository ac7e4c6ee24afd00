/-
  Copies of nodes.

  A copy is made by way of a shape, which is checked like any other one.  What can go
  wrong is only that a slot is empty that must be filled.  Otherwise the copy is a tree
  of new nodes that is written like the original and equals it, and nothing that was
  there has changed.

  * `Wf.copyable_iff_described`: which nodes have copies;
  * `Duplicate`, `Planted.duplicate`: what is known of a copy;
  * `Reachable.copy_faithful`: both, for the arenas that come about.
-/
import OpenMath.Proofs.Arena.DataModel

namespace OpenMath.Arena

variable {a b : Arena} {id x : NodeId} {t u : Tree NodeId}

/-! ## Which nodes have copies -/

/-- A node has a copy if and only if a valid shape describes it. -/
theorem Wf.copyable_iff_described (w : a.Wf) (ha : a.All Kind.Acceptable)
    (ht : a.tree? id = some t) : a.Copyable id ↔ t.Described := by
  have hs := w.shaped ht
  rw [w.copyable_iff]
  constructor
  · rintro ⟨t', c, ht', hc⟩
    cases ht.symm.trans ht'
    exact hs.described_of_copy (ha.tree ht) hc
  · intro hd
    have hw : t.Whole := (w.whole_iff ht).2 ((w.described_iff ha ht).1 hd)
    exact ⟨t, t.arranged, ht, hs.copy_of_written (hs.written (ha.tree ht) hw)⟩

/-! ## What is known of a copy -/

/-- `x` is a copy in `b` of a node `id` of `a`: a tree of new nodes with the same shape,
    equal to the original, next to which everything is as it was. -/
structure Duplicate (a : Arena) (id : NodeId) (b : Arena) (x : NodeId) : Prop where
  root : b.parent? x = none
  fresh : ∀ y, b.isAncestorOrSelf x y = true ↔ b.contains y = true ∧ a.next ≤ y
  shape : ∃ v, a.toShape id = .ok v ∧ b.toShape x = .ok v
  equal : b.equals id x true = true
  kept : ∀ y n, a.node? y = some n → b.node? y = some n

theorem Planted.under_iff (h : Planted a b [u]) :
    b.Under u.label x ↔ b.contains x = true ∧ a.next ≤ x := by
  have hu := List.mem_singleton_self u
  rw [← h.wf.mem_labels (h.tree u hu), contains_iff]
  constructor
  · intro hx
    exact ⟨live_of_mem_labels (h.tree u hu) hx, h.fresh u hu x hx⟩
  · rintro ⟨⟨n, hn⟩, hx⟩
    obtain ⟨u', hu', hxu⟩ := h.covered x n hx hn
    exact List.mem_singleton.1 hu' ▸ hxu

theorem Planted.isAncestorOrSelf_iff (h : Planted a b [u]) :
    b.isAncestorOrSelf u.label x = true ↔ b.contains x = true ∧ a.next ≤ x := by
  rw [h.wf.acyclic.isAncestorOrSelf_iff, h.under_iff]

/-- The copy of a tree is a copy of its node. -/
theorem Planted.duplicate (h : Planted a b [u]) (w : a.Wf) (ha : a.All Kind.Acceptable)
    (ht : a.tree? id = some t) (hc : t.copy = .ok u.toTerm) : a.Duplicate id b u.label := by
  have hm := List.mem_singleton_self u
  have hu := h.tree u hm
  have hs := w.shaped ht
  obtain ⟨v, hv, hd⟩ := Except.bind_eq_ok.1 hc
  obtain ⟨-, -, hb⟩ := Except.bind_eq_ok.1 hd
  obtain ⟨hterm, hshape⟩ := Planted.of_toShape hs hv h hb
  refine ⟨h.root u hm, ?_, ?_, ?_, ?_⟩
  · exact fun y => h.isAncestorOrSelf_iff
  · exact ⟨v, (toShape_eq ht).trans hv, hshape⟩
  · rw [equals, h.tree?_old ht, hu]
    exact hs.equals_copied (ha.tree ht) (h.wf.shaped hu) hterm true
  · exact fun y n hn => h.node?_old hn

/-- Copying a node of an arena that comes about succeeds if and only if no slot that must
    be filled has been emptied inside the node, and what it gives then is a copy. -/
theorem Reachable.copy_faithful (h : a.Reachable) (hid : a.contains id = true) :
    ∃ r b, copy id a = some (r, b) ∧
      ((∃ x, r = .ok x) ↔
        ∀ x n, a.isAncestorOrSelf id x = true → a.node? x = some n → ¬ n.content.Emptied) ∧
      ∀ x, r = .ok x → a.Duplicate id b x := by
  have w := h.wf
  obtain ⟨n, hn⟩ := contains_iff.1 hid
  obtain ⟨t, ht⟩ := w.exists_tree hn
  have hcopyable := w.copyable_iff_described h.acceptable ht
  rw [w.described_iff h.acceptable ht] at hcopyable
  simp only [w.acyclic.isAncestorOrSelf_iff, ← hcopyable]
  rcases w.copy_cases id with ⟨e, he⟩ | ⟨t', c, ht', hc⟩
  · refine ⟨.error e, a, he, ⟨nofun, ?_⟩, nofun⟩
    rintro ⟨x, b, hx⟩
    cases he.symm.trans hx
  · cases ht.symm.trans ht'
    obtain ⟨u, b, hu, hp, rfl⟩ := w.copy_ok ht hc
    refine ⟨.ok u.label, b, hu, ⟨fun _ => ⟨_, b, hu⟩, fun _ => ⟨_, rfl⟩⟩, ?_⟩
    rintro x ⟨⟩
    exact hp.duplicate w h.acceptable ht hc

/-- A binding is copied. -/
theorem copy_faithful_identity :
    ∃ x b, copy 3 identity = some (.ok x, b) ∧ identity.Duplicate 3 b x := by
  have hlive : identity.contains 3 = true := rfl
  obtain ⟨r, b, hr, hok, hcopy⟩ := reachable_identity.copy_faithful hlive
  have hfilled : ∀ x n, identity.isAncestorOrSelf 3 x = true → identity.node? x = some n →
      ¬ n.content.Emptied := by
    intro x n _ hn
    have hx : x < 4 := node?_lt hn
    interval_cases x <;> cases hn <;> simp [Content.Emptied]
  obtain ⟨x, rfl⟩ := hok.2 hfilled
  exact ⟨x, b, hr, hcopy x rfl⟩

end OpenMath.Arena
