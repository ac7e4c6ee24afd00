/-
  Attributes as a finite map.

  The value that a key had gives way first, then the new value is taken from wherever it
  is: from another slot of the owner, from inside the value that gave way, or from
  elsewhere.  Whatever the order, a lookup finds what a map would give.

  * `unset`: the node at a place after an attribute is removed;
  * `Wf.setAttribute_node?`: the same after one is set;
  * `Wf.getAttribute?_iff`: a lookup finds the only entry whose key agrees;
  * `Stored`: what there is after an attribute is set;
  * `Reachable.setAttribute_stores`: when an attribute is set, and what that does.
-/
import OpenMath.Proofs.Arena.Installing
import OpenMath.Proofs.Arena.Readers

namespace OpenMath

/-- A node without the value of one of its attributes. -/
theorem Node.without_value {n : Node} {d : Symbol × NodeId} (hd : d ∈ n.attributes)
    (hk : n.Keyed) (hn : n.owned.Nodup) :
    n.without d.2 = { n with attributes := n.attributes.filter fun e => !e.1.sameKey d.1 } := by
  obtain ⟨c, as, p⟩ := n
  obtain ⟨-, hvalues, hapart⟩ := List.nodup_append.1 hn
  have hcontent : c.filter (· != d.2) = c := Content.filter_eq_self fun x hx => by
    simpa using hapart x hx d.2 (List.mem_map_of_mem hd)
  have hattributes : as.filter (fun e => e.2 != d.2) = as.filter fun e => !e.1.sameKey d.1 := by
    refine List.filter_congr fun e he => ?_
    by_cases hed : e = d
    · simp [hed]
    · have hkey : e.1.sameKey d.1 = false := by
        by_contra hs
        exact hed (Keyed.eq_of_sameKey hk he hd (Bool.not_eq_false _ ▸ hs))
      have hvalue : e.2 ≠ d.2 := fun h => hed (List.inj_on_of_nodup_map hvalues he hd h)
      simp [hkey, hvalue]
  rw [without, keepOwned]
  simp only [hcontent, hattributes]

namespace Arena

variable {a b c d : Arena} {id v w x : NodeId} {n : Node} {key k : Symbol} {o : Option NodeId}
  {t : Tree NodeId}

/-! ## Lookups -/

/-- A lookup finds the only entry whose key agrees. -/
theorem Wf.getAttribute?_iff (w : a.Wf) (hn : a.node? id = some n) :
    a.getAttribute? id key = some v ↔ ∃ e ∈ n.attributes, e.1.sameKey key = true ∧ e.2 = v := by
  constructor
  · intro h
    obtain ⟨m, e, hm, he, hk, hv⟩ := getAttribute?_eq_some h
    cases hn.symm.trans hm
    exact ⟨e, he, hk, hv⟩
  · rintro ⟨e, he, hk, rfl⟩
    cases hg : a.getAttribute? id key with
    | none => simp [getAttribute?_eq_none hg hn e he] at hk
    | some u =>
      obtain ⟨m, f, hm, hf, hfk, rfl⟩ := getAttribute?_eq_some hg
      cases hn.symm.trans hm
      rw [Keyed.eq_of_sameKey (w.keyed hn) he hf
        (Symbol.sameKey_trans hk (Symbol.sameKey_comm .. ▸ hfk))]

theorem getAttribute?_of_forall
    (h : ∀ n, a.node? id = some n → ∀ e ∈ n.attributes, e.1.sameKey key = false) :
    a.getAttribute? id key = none := by
  cases hn : a.node? id with
  | none => simp [getAttribute?, hn]
  | some n => simpa [getAttribute?, hn, Node.at?] using h n hn

/-! ## Removing -/

/-- The node at `x` after the attribute `key` of `id`, whose value is `o` if there is one,
    is removed. -/
def unset (o : Option NodeId) (id : NodeId) (key : Symbol) (x : NodeId) (n : Node) : Node :=
  if x = id then { n with attributes := n.attributes.filter fun e => !e.1.sameKey key }
  else if o = some x then { n with parent := none }
  else n

theorem Wf.removeAttribute_node? (w : a.Wf) (id : NodeId) (key : Symbol) :
    Remapped (unset (a.getAttribute? id key) id key) a (a.removeAttribute id key).2 := by
  intro x
  obtain ⟨b, hb, hsome, hnone, -⟩ := w.removeAttribute_spec id key
  rw [hb]
  cases hv : a.getAttribute? id key with
  | none =>
    rw [hnone hv]
    cases hn : a.node? x with
    | none => rfl
    | some n =>
      by_cases hx : x = id
      · have hkeep : n.attributes.filter (fun e => !e.1.sameKey key) = n.attributes :=
          List.filter_eq_self.2 fun e he => by
            simpa using getAttribute?_eq_none hv (hx ▸ hn) e he
        simp [unset, hx, hkeep]
      · simp [unset, hx]
  | some v =>
    obtain ⟨m, e, hm, he, hk, rfl⟩ := getAttribute?_eq_some hv
    have hp : a.parent? e.2 = some id :=
      w.parent?_of_mem hm (List.mem_append_right _ (List.mem_map_of_mem he))
    have hsame (f : Symbol × NodeId) : f.1.sameKey e.1 = f.1.sameKey key := by
      rw [Symbol.sameKey_comm, Symbol.sameKey_congr hk, Symbol.sameKey_comm]
    rw [(hsome _ hv).node? x, hp]
    refine Option.map_congr fun n hn => ?_
    unfold Arena.cut unset
    by_cases hx : x = id
    · cases hm.symm.trans (hx ▸ hn)
      rw [if_pos (congrArg some hx.symm), if_pos hx,
        Node.without_value he (w.keyed hm) (w.owned_nodup hm)]
      simp only [hsame]
    · rw [if_neg fun h => hx (Option.some.inj h).symm, if_neg hx]
      simp only [Option.some.injEq, eq_comm]

/-! ## Setting -/

/-- Detaching a node and adding it as an attribute, seen from one node. -/
theorem hang_cut (w : a.Wf) (hne : v ≠ id) (hn : a.node? x = some n) :
    hang id key v x (cut (a.parent? v) v x n) = hang id key v x (n.without v) := by
  unfold cut
  by_cases ho : a.parent? v = some x
  · rw [if_pos ho]
  · have hno : v ∉ n.owned := fun hm => ho (w.parent?_of_mem hn hm)
    rw [if_neg ho, Node.without_eq_self hno]
    -- the link upwards is written twice
    by_cases hx : x = v
    · subst hx
      simp [hang, hne]
    · rw [if_neg hx]

/-- Setting an attribute, seen from one node: the attribute is removed, and its new value
    is taken out of its slot and added behind the others. -/
theorem Wf.setAttribute_node? (w : a.Wf) (h : Attaches a id v) (key : Symbol) :
    ∃ b, setAttribute id key v a = some (.ok ((a.getAttribute? id key).filter (· != v)), b) ∧
      Remapped (fun x n =>
        Arena.hang id key v x ((unset (a.getAttribute? id key) id key x n).without v)) a b ∧
      b.Wf := by
  obtain ⟨b, c, d, hb, hd, hrun, hh, -, wd⟩ := w.setAttribute_ok h key
  have hne : v ≠ id := by
    rintro rfl
    exact h.outside .refl
  have hu := w.removeAttribute_node? id key
  have wb := (w.removeAttribute_content? id key).1
  rw [hb] at hu wb
  refine ⟨d, hrun, fun x => ?_, wd⟩
  rw [hh x, hd.node? x, hu x, Option.map_map, Option.map_map]
  refine Option.map_congr fun n hn => ?_
  exact hang_cut wb hne (by rw [hu x, hn, Option.map_some])

/-- What there is after `v` became the attribute `key` of `id`. -/
structure Stored (a b : Arena) (id : NodeId) (key : Symbol) (v : NodeId) : Prop where
  /-- every key that agrees finds the value, whatever the uris -/
  found : ∀ k, k.sameKey key = true → b.getAttribute? id k = some v
  /-- any other key finds what it found before, unless that is the value, which left its
      former slot -/
  others : ∀ k, k.sameKey key = false →
    b.getAttribute? id k = (a.getAttribute? id k).filter (· != v)
  /-- the entry comes last, and has the key as it was given -/
  entries : ∀ n, a.node? id = some n → ∃ m, b.node? id = some m ∧
    m.attributes = n.attributes.filter (fun e => !e.1.sameKey key && e.2 != v) ++ [(key, v)]
  parent : b.parent? v = some id
  /-- the value is in no other slot of the arena -/
  slot : ∀ x m, b.node? x = some m → ∀ s ∈ m.slots, s.content = v → x = id ∧ s.role = .attr key
  moved : b.tree? v = a.tree? v
  /-- the value that the key had is a root, and keeps all but the new value, if that was
      inside -/
  previous : ∀ w, a.getAttribute? id key = some w → w ≠ v → b.parent? w = none ∧
    ∀ t, a.tree? w = some t → b.tree? w = some (t.prune v)
  /-- removing the attribute gives the value, as a root, and leaves none for the key -/
  removed : ∀ k, k.sameKey key = true → ∃ c, b.removeAttribute id k = (some v, c) ∧
    c.parent? v = none ∧ c.getAttribute? id k = none
  /-- any other node loses the value at most, and none of its attributes otherwise -/
  kept : ∀ x n, x ≠ id → a.node? x = some n → ∃ m, b.node? x = some m ∧
    m.content = n.content.filter (· != v) ∧ m.attributes = n.attributes.filter (·.2 != v)

section
variable (h : Remapped (fun x n => hang id key v x ((unset o id key x n).without v)) a b)
include h

theorem stored_owner (hn : a.node? id = some n) :
    ∃ m, b.node? id = some m ∧ m.content = n.content.filter (· != v) ∧
      m.attributes = n.attributes.filter (fun e => !e.1.sameKey key && e.2 != v) ++ [(key, v)] := by
  refine ⟨_, by rw [h id, hn]; rfl, ?_, ?_⟩
  · simp [hang, unset, Node.without, Node.keepOwned]
  · simp [hang, unset, Node.without, Node.keepOwned, List.filter_filter, Bool.and_comm]

theorem stored_other (hx : x ≠ id) (hn : a.node? x = some n) :
    ∃ m, b.node? x = some m ∧ m.content = n.content.filter (· != v) ∧
      m.attributes = n.attributes.filter (·.2 != v) := by
  refine ⟨_, by rw [h x, hn]; rfl, ?_, ?_⟩ <;>
    · simp only [hang, unset, if_neg hx]
      split_ifs <;> rfl

theorem stored_same (hx : x ≠ id) (hn : a.node? x = some n) (hno : v ∉ n.owned) :
    ∃ m, b.node? x = some m ∧ m.content = n.content ∧ m.attributes = n.attributes := by
  obtain ⟨m, hm, hcontent, hattributes⟩ := stored_other h hx hn
  have hself : n.without v = n := Node.without_eq_self hno
  exact ⟨m, hm, hcontent.trans (congrArg Node.content hself),
    hattributes.trans (congrArg Node.attributes hself)⟩

end

/-- The value that a key had, after it is removed and the new value is taken out of its
    tree. -/
theorem Wf.previous_stored (w : a.Wf) (h : Attaches a id v)
    (hg : a.getAttribute? id key = some x) (hne : x ≠ v)
    (hrun : setAttribute id key v a = some (.ok o, b)) :
    b.parent? x = none ∧ ∀ t, a.tree? x = some t → b.tree? x = some (t.prune v) := by
  obtain ⟨b₁, b₂, d, hb, hd, hrun', hh, -, -⟩ := w.setAttribute_ok h key
  cases hrun.symm.trans hrun'
  have hu := w.removeAttribute_node? id key
  have wb := (w.removeAttribute_content? id key).1
  obtain ⟨b₁', hb', hsome, -⟩ := w.removeAttribute_spec id key
  rw [hb] at hu wb hb'
  obtain rfl : b₁ = b₁' := congrArg Prod.snd hb'
  have hx := hsome x hg
  have hvid : v ≠ id := by
    rintro rfl
    exact h.outside .refl
  have hlive : ∃ m, b₂.node? v = some m := by
    rw [← contains_iff, hd.contains, hx.contains]
    exact contains_iff.2 h.valueLive
  obtain ⟨m, e, hm, he, -, rfl⟩ := getAttribute?_eq_some hg
  have hp : a.parent? e.2 = some id :=
    w.parent?_of_mem hm (List.mem_append_right _ (List.mem_map_of_mem he))
  refine ⟨?_, fun t ht => ?_⟩
  · rw [parent?_hang hh hvid hlive, if_neg hne, hd.parent?_of_ne hne, hx.parent?_self]
  · -- the owner is not in the tree, so that neither its loss nor its gain is seen there
    have hid {y : NodeId} (hy : a.Under e.2 y) : y ≠ id := by
      rintro rfl
      exact w.acyclic.not_under hp hy
    have ht₁ : b₁.tree? e.2 = some t := tree?_congr ht fun y hy n hn => by
      refine ⟨_, by rw [hu y, hn]; rfl, ?_⟩
      rw [unset, if_neg (hid ((w.mem_labels ht).1 hy))]
      split_ifs <;> exact ⟨rfl, rfl⟩
    refine tree?_congr (hd.tree? wb ht₁) fun y hy n hn => ?_
    have hy' : y ≠ id := hid (hx.under (hd.under ((hd.wf.mem_labels (hd.tree? wb ht₁)).1 hy)))
    refine ⟨_, by rw [hh y, hn]; rfl, ?_⟩
    rw [Arena.hang, if_neg hy']
    split_ifs <;> exact ⟨rfl, rfl⟩

/-- The value keeps its tree, of which the owner is not a part. -/
theorem Wf.moved_stored (w : a.Wf) (h : Attaches a id v)
    (hb : Remapped (fun x n => Arena.hang id key v x ((unset o id key x n).without v)) a b) :
    b.tree? v = a.tree? v := by
  obtain ⟨m, hm⟩ := h.valueLive
  obtain ⟨t, ht⟩ := w.exists_tree hm
  rw [ht]
  refine tree?_of_contents ht fun y hy n hn => ?_
  have hu : a.Under v y := (w.mem_labels ht).1 hy
  have hyid : y ≠ id := by
    rintro rfl
    exact h.outside hu
  exact stored_same hb hyid hn fun hm => w.acyclic.not_under (w.parent?_of_mem hn hm) hu

/-- A lookup of a key that does not agree with the new one. -/
theorem Wf.getAttribute?_stored (w : a.Wf) (wb : b.Wf) (hk : k.sameKey key = false)
    (hn : a.node? id = some n) (hm : ∃ m, b.node? id = some m ∧ m.attributes =
      n.attributes.filter (fun e => !e.1.sameKey key && e.2 != v) ++ [(key, v)]) :
    b.getAttribute? id k = (a.getAttribute? id k).filter (· != v) := by
  obtain ⟨m, hm, hattributes⟩ := hm
  have hkey : key.sameKey k = false := Symbol.sameKey_comm .. ▸ hk
  have hother {e : Symbol × NodeId} (he : e.1.sameKey k = true) : e.1.sameKey key = false := by
    by_contra hs
    have := Symbol.sameKey_trans (Symbol.sameKey_comm .. ▸ he) (Bool.not_eq_false _ ▸ hs)
    exact Bool.false_ne_true (hk.symm.trans this)
  refine Option.ext fun u => ?_
  rw [Option.filter_eq_some_iff, w.getAttribute?_iff hn, wb.getAttribute?_iff hm, hattributes]
  constructor
  · rintro ⟨e, he, hek, rfl⟩
    rcases List.mem_append.1 he with he | he
    · obtain ⟨he, hp⟩ := List.mem_filter.1 he
      exact ⟨⟨e, he, hek, rfl⟩, (Bool.and_eq_true_iff.1 hp).2⟩
    · cases List.mem_singleton.1 he
      cases hkey.symm.trans hek
  · rintro ⟨⟨e, he, hek, rfl⟩, hv⟩
    refine ⟨e, List.mem_append_left _ (List.mem_filter.2 ⟨he, ?_⟩), hek, rfl⟩
    simpa [hother hek] using hv

/-- Setting an attribute is all that happens. -/
theorem Wf.stored (w : a.Wf) (h : Attaches a id v) (key : Symbol) :
    ∃ b, setAttribute id key v a = some (.ok ((a.getAttribute? id key).filter (· != v)), b) ∧
      Stored a b id key v := by
  obtain ⟨b, hrun, hb, wb⟩ := w.setAttribute_node? h key
  obtain ⟨n, hn⟩ := h.ownerLive
  obtain ⟨m, hm, -, hattributes⟩ := stored_owner hb hn
  have hentry : (key, v) ∈ m.attributes := by simp [hattributes]
  have hparent : b.parent? v = some id :=
    wb.parent?_of_mem hm (List.mem_append_right _ (List.mem_map_of_mem hentry))
  have hfound (k : Symbol) (hk : k.sameKey key = true) : b.getAttribute? id k = some v :=
    (wb.getAttribute?_iff hm).2 ⟨_, hentry, Symbol.sameKey_comm .. ▸ hk, rfl⟩
  refine ⟨b, hrun, hfound, ?_, ?_, hparent, ?_, w.moved_stored h hb, ?_, ?_, ?_⟩
  · intro k hk
    exact w.getAttribute?_stored wb hk hn ⟨m, hm, hattributes⟩
  · intro n' hn'
    cases hn.symm.trans hn'
    exact ⟨m, hm, hattributes⟩
  · rintro x m' hm' ⟨r, u⟩ hs rfl
    cases hparent.symm.trans (wb.parent?_of_mem hm' (Node.mem_owned_of_slot hs))
    cases hm.symm.trans hm'
    have hslot : (⟨.attr key, u⟩ : Slot NodeId) ∈ m.slots := Node.mem_slots_of_attribute hentry
    exact ⟨rfl, wb.role_eq hm hs hslot⟩
  · intro x hg hne
    exact w.previous_stored h hg hne hrun
  · intro k hk
    obtain ⟨c, hc, hsome, -, hnone⟩ := wb.removeAttribute_spec id k
    rw [hfound k hk] at hc
    exact ⟨c, hc, (hsome v (hfound k hk)).parent?_self, getAttribute?_of_forall hnone⟩
  · intro x n hx hn
    exact stored_other hb hx hn

theorem Wf.attaches_iff (w : a.Wf) : Attaches a id v ↔
    a.contains id = true ∧ a.contains v = true ∧ a.isAncestorOrSelf v id = false := by
  rw [← Bool.not_eq_true (a.isAncestorOrSelf v id), w.acyclic.isAncestorOrSelf_iff,
    contains_iff, contains_iff]
  exact ⟨fun ⟨ho, hv, hu⟩ => ⟨ho, hv, hu⟩, fun ⟨ho, hv, hu⟩ => ⟨ho, hv, hu⟩⟩

/-- An attribute is set exactly if both nodes are there and the value is not the owner or
    above it.  Then the attributes are those of a finite map, in which keys count by name
    and dictionary, after the value is stored under the key, and the result is what the key
    had before, unless that was the value itself.  Otherwise nothing happens at all. -/
theorem Reachable.setAttribute_stores (h : a.Reachable) (id : NodeId) (key : Symbol)
    (v : NodeId) :
    ∃ r b, setAttribute id key v a = some (r, b) ∧
      ((∃ o, r = .ok o) ↔
        a.contains id = true ∧ a.contains v = true ∧ a.isAncestorOrSelf v id = false) ∧
      (∀ o, r = .ok o → o = (a.getAttribute? id key).filter (· != v) ∧ Stored a b id key v) ∧
      (∀ e, r = .error e → b = a) := by
  have w := h.wf
  rw [← w.attaches_iff]
  by_cases ha : Attaches a id v
  · obtain ⟨b, hrun, hb⟩ := w.stored ha key
    refine ⟨_, b, hrun, iff_of_true ⟨_, rfl⟩ ha, ?_, ?_⟩
    · rintro o ⟨⟩
      exact ⟨rfl, hb⟩
    · rintro e ⟨⟩
  · obtain ⟨e, hrun⟩ := w.setAttribute_kept ha key
    refine ⟨_, a, hrun, iff_of_false ?_ ha, ?_, fun _ _ => rfl⟩
    · rintro ⟨o, ⟨⟩⟩
    · rintro o ⟨⟩

/-- An arena with a variable that has an application as an attribute. -/
def applicationStored : Arena where
  places := #[some ⟨.var "f", [], some 2⟩, some ⟨.var "x", [], some 2⟩,
    some ⟨.application [0, 1], [], some 3⟩, some ⟨.var "y", [(typeKey none, 2)], none⟩]

theorem reachable_applicationStored : applicationStored.Reachable :=
  .step (c := .setAttribute 3 (typeKey none) 2) (r := .ok ())
    (.step (c := .var "y") (r := .ok ())
      (b := ⟨applied.places.push (some ⟨.var "y", [], none⟩)⟩) reachable_applied (by cbv))
    (by cbv)

/-- The operand of an application takes the place of the application as an attribute, with
    another uri in the key. -/
theorem setAttribute_stores_annotated :
    ∃ a b, a.Reachable ∧ a.getAttribute? 3 ⟨"type", "sts", none, rfl, rfl⟩ = some 2 ∧
      setAttribute 3 ⟨"type", "sts", some "u", rfl, rfl⟩ 1 a = some (.ok (some 2), b) ∧
      Stored a b 3 ⟨"type", "sts", some "u", rfl, rfl⟩ 1 ∧ b.compact 2 = "f()" := by
  obtain ⟨r, b, hrun, hok, hstored, -⟩ :=
    reachable_applicationStored.setAttribute_stores 3 (typeKey (some "u")) 1
  obtain ⟨o, rfl⟩ := hok.2 ⟨rfl, rfl, by cbv⟩
  obtain ⟨rfl, hb⟩ := hstored o rfl
  have hlast : applicationStored.getAttribute? 3 (typeKey (some "u")) = some 2 := by cbv
  rw [hlast] at hrun
  obtain ⟨-, htree⟩ := hb.previous 2 hlast (by decide)
  have happ : applicationStored.tree? 2 = some (.node 2 .application
    [⟨.child, .node 0 (.var "f") []⟩, ⟨.child, .node 1 (.var "x") []⟩]) := by cbv
  refine ⟨applicationStored, b, reachable_applicationStored, by cbv, hrun, hb, ?_⟩
  rw [compact, htree _ happ]
  cbv

end Arena

end OpenMath
