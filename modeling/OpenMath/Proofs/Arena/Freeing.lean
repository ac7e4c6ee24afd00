/-
  Freeing the trees of an arena.

  The loop that frees a tree goes down the slots, and whether a node goes with a root is asked
  upwards, by the parents.  In an arena with its links in step these are the same nodes, so
  that no link to a node that is gone is left behind.

  * `Acyclic.root_eq_iff`: the nodes that a root is the root of are those inside of it;
  * `Discarded`, `Wf.discarded`: what there is after a root is freed;
  * `Reachable.discard_frees`: what is freed, and that nothing changes otherwise.
-/
import OpenMath.Proofs.Arena.Commands

namespace OpenMath.Arena

variable {a b : Arena} {r x : NodeId} {t : Tree NodeId}

/-- The nodes that a root is the root of are those inside of it. -/
theorem Acyclic.root_eq_iff (h : a.Acyclic) (hr : a.parent? r = none) :
    a.root x = r ↔ a.Under r x := by
  obtain ⟨path, -, -, -, hmem, hroot, hnone⟩ := h.lineage?_spec x
  have hx : a.Under (a.root x) x := (hmem _).1 (hroot ▸ List.getLast_mem _)
  have top {y z : NodeId} (hz : a.parent? z = none) (u : a.Under y z) : z = y := by
    rcases u.cases_parent with e | ⟨p, hp, -⟩
    · exact e
    · cases hz.symm.trans hp
  constructor
  · rintro rfl
    exact hx
  · intro u
    rcases hx.total u with u | u
    · exact (top hr u).symm
    · exact top hnone u

/-- What there is after `r` was freed with its tree. -/
structure Discarded (a b : Arena) (r : NodeId) : Prop where
  /-- the nodes that go are those that `r` is the root of -/
  freed : ∀ x, a.contains x = true → (b.contains x = false ↔ a.root x = r)
  kept : ∀ x, a.root x ≠ r → b.node? x = a.node? x
  size : b.size + (a.liveIds.filter fun x => a.root x = r).length = a.size
  /-- what is left refers to nothing that is gone -/
  linked : ∀ x n, b.node? x = some n →
    (∀ s ∈ n.slots, b.contains s.content = true) ∧ ∀ p, n.parent = some p → b.contains p = true

theorem size_of_freed (hf : ∀ x, b.contains x = true ↔ a.contains x = true ∧ a.root x ≠ r) :
    b.size + (a.liveIds.filter fun x => a.root x = r).length = a.size := by
  have hperm : b.liveIds.Perm (a.liveIds.filter fun x => !decide (a.root x = r)) := by
    refine (List.perm_ext_iff_of_nodup b.liveIds_nodup (a.liveIds_nodup.filter _)).2 fun x => ?_
    rw [List.mem_filter, mem_liveIds, mem_liveIds, hf x]
    simp
  rw [← length_liveIds, hperm.length_eq, ← length_liveIds, add_comm]
  exact (List.length_eq_length_filter_add _).symm

/-- A root is freed with all nodes that it is the root of. -/
theorem Wf.discarded (w : a.Wf) (hlive : a.contains r = true) (hr : a.parent? r = none) :
    ∃ b, discard r a = some (.ok (), b) ∧ Discarded a b r := by
  obtain ⟨n, hn⟩ := contains_iff.1 hlive
  obtain ⟨t, ht⟩ := w.exists_tree hn
  obtain ⟨b, hb, hf, -, wb⟩ := w.discard_ok hr ht
  have hmem (x : NodeId) : x ∈ t.labels ↔ a.root x = r := by
    rw [w.mem_labels ht, w.acyclic.root_eq_iff hr]
  have hkept (x : NodeId) (hx : a.root x ≠ r) : b.node? x = a.node? x := by
    rw [hf x, if_neg fun hm => hx ((hmem x).1 hm)]
  have hgone (x : NodeId) (hx : a.root x = r) : b.node? x = none := by
    rw [hf x, if_pos ((hmem x).2 hx)]
  have hcontains (x : NodeId) : b.contains x = true ↔ a.contains x = true ∧ a.root x ≠ r := by
    by_cases hx : a.root x = r
    · simp [contains, hgone x hx, hx]
    · simp [contains, hkept x hx, hx]
  refine ⟨b, hb, ?_, hkept, size_of_freed hcontains, ?_⟩
  · intro x hx
    rw [← Bool.not_eq_true, hcontains, and_iff_right hx, not_not]
  · intro x m hm
    refine ⟨fun s hs => ?_, fun p hp => ?_⟩
    · obtain ⟨k, hk, -⟩ := wb.node?_of_mem hm (Node.mem_owned_of_slot hs)
      exact contains_iff.2 ⟨k, hk⟩
    · exact contains_iff.2 (wb.live (by rw [parent?, hm]; exact hp))

/-- What is freed with a root are the nodes that it is the root of, each of them once, and
    what is left keeps its links and has none to them.  An attached node is not freed, and for
    one that is gone there is nothing to do. -/
theorem Reachable.discard_frees (h : a.Reachable) (r : NodeId) :
    (a.contains r = false → discard r a = some (.ok (), a)) ∧
      (∀ p, a.parent? r = some p → discard r a = some (.error (.refused .discardAttached), a)) ∧
      (a.contains r = true → a.parent? r = none →
        ∃ b, discard r a = some (.ok (), b) ∧ Discarded a b r) := by
  refine ⟨fun hr => discard_stale ?_, fun p hp => discard_attached hp, h.wf.discarded⟩
  rwa [contains, Option.isSome_eq_false_iff, Option.isNone_iff_eq_none] at hr

/-- An application is freed, and a variable beside it stays; before, the operator is not freed
    on its own. -/
theorem discard_frees_applied :
    ∃ a b, a.Reachable ∧ discard 0 a = some (.error (.refused .discardAttached), a) ∧
      discard 2 a = some (.ok (), b) ∧ Discarded a b 2 ∧ a.size = 4 ∧ b.size = 1 ∧
      discard 2 b = some (.ok (), b) := by
  have h : (applied.push ⟨.var "y", [], none⟩).Reachable :=
    .step (c := .var "y") (r := .ok ()) reachable_applied (by cbv)
  obtain ⟨-, -, hroot⟩ := h.discard_frees 2
  obtain ⟨b, hb, hd⟩ := hroot rfl rfl
  have hsize : (applied.push ⟨.var "y", [], none⟩).size = 4 := rfl
  have hfreed : ((applied.push ⟨.var "y", [], none⟩).liveIds.filter fun x =>
      (applied.push ⟨.var "y", [], none⟩).root x = 2).length = 3 := by cbv
  have hbsize := hd.size
  rw [hfreed, hsize] at hbsize
  have hstale : b.contains 2 = false := (hd.freed 2 rfl).2 (by cbv)
  have hr : b.Reachable := .step (c := .discard 2) h hb
  exact ⟨_, b, h, (h.discard_frees 0).2.1 2 rfl, hb, hd, hsize, by omega,
    (hr.discard_frees 2).1 hstale⟩

end OpenMath.Arena
