/-
  What is read off a node without its attributes.

  Setting an attribute takes the value from wherever it is, and detaches the value that
  the key had.  The content of a node changes only where the value is a part of it; so
  what is read off the structure of a node changes only where the value is in it.

  * `walk_eq`, `Wf.descendants_eq`: the walk lists the nodes of the tree without
    attributes;
  * `bare?_congr`: that tree depends on the contents of its own nodes only;
  * `ReadsAlike`: what is read off the structure of a node;
  * `Reachable.attributes_unread`: no change of attributes is seen in it.
-/
import OpenMath.Proofs.Arena.Commands
import OpenMath.Proofs.Arena.Payloads
import OpenMath.Proofs.Tree.Bare
import OpenMath.Proofs.Tree.Equality

namespace OpenMath.Arena

variable {a b c : Arena} {id x y v : NodeId} {n : Node} {t u : Tree NodeId} {key : Symbol}

/-! ## Trees without attributes -/

/-- The tree at a node, without attributes. -/
def bare? (a : Arena) (id : NodeId) : Option (Tree NodeId) := (a.tree? id).map Tree.bare

/-- The content of a node. -/
def content? (a : Arena) (id : NodeId) : Option (Content NodeId) := (a.node? id).map (·.content)

theorem labels_bare (l : NodeId) (cs : Content (Tree NodeId)) (as : List (Symbol × Tree NodeId)) :
    (Tree.rooted l cs as).bare.labels = l :: cs.structural.flatMap (·.bare.labels) := by
  have hcontents := Content.contents_allSlots (cs.map Tree.bare) []
  rw [Content.structural_map, List.map_nil, List.append_nil] at hcontents
  rw [Tree.bare_rooted, Tree.rooted, Tree.labels_node, ← List.flatMap_map, ← Slots.contents,
    hcontents, List.flatMap_map]

theorem mem_labels_bare {l : NodeId} {cs : Content (Tree NodeId)}
    {as : List (Symbol × Tree NodeId)} :
    x ∈ (Tree.rooted l cs as).bare.labels ↔ x = l ∨ ∃ u ∈ cs.structural, x ∈ u.bare.labels := by
  rw [labels_bare, List.mem_cons, List.mem_flatMap]

theorem structural_closed (ht : a.tree? id = some t) (hx : x ∈ t.bare.labels)
    (hn : a.node? x = some n) (hy : y ∈ n.content.structural) : y ∈ t.bare.labels := by
  refine tree?_induction_rooted (P := fun _ t => x ∈ t.bare.labels → y ∈ t.bare.labels) ?_ ht hx
  intro id m cs as hm hr ihp _ hx
  rw [mem_labels_bare] at hx ⊢
  rcases hx with rfl | ⟨u, hu, hx⟩
  · cases hn.symm.trans hm
    rw [hr.content, Content.structural_map] at hy
    obtain ⟨u, hu, rfl⟩ := List.mem_map.1 hy
    exact .inr ⟨u, hu, Tree.bare_eq u ▸ Tree.label_mem_labels _⟩
  · exact .inr ⟨u, hu, ihp u hu hx⟩

/-- The tree without attributes depends on the contents of its nodes only. -/
theorem bare?_congr (w : b.Wf) (ht : a.tree? id = some t)
    (hc : ∀ x ∈ t.bare.labels, b.content? x = a.content? x) : b.bare? id = some t.bare := by
  refine tree?_induction_rooted (P := fun id t =>
    (∀ x ∈ t.bare.labels, b.content? x = a.content? x) → b.bare? id = some t.bare) ?_ ht hc
  intro id n cs as hn hr ihp _ hc
  simp only [mem_labels_bare, forall_eq_or_imp] at hc
  obtain ⟨hroot, hparts⟩ := hc
  obtain ⟨m, hm, hcontent⟩ : ∃ m, b.node? id = some m ∧ m.content = n.content := by
    simpa [content?, hn] using hroot
  obtain ⟨u, hu⟩ := w.exists_tree hm
  obtain ⟨m', cs', as', hm', hr', rfl⟩ := exists_roots hu
  cases hm.symm.trans hm'
  -- the parts are the trees at the same nodes
  let g (x : NodeId) : Tree NodeId := (b.bare? x).getD (Tree.node x n.kind [])
  have hleft : cs.map Tree.bare = (cs.map Tree.label).map g := by
    rw [Content.map_map]
    refine Content.map_congr fun u hu => ?_
    simp [g, ihp u hu fun x hx => hparts x ⟨u, hu, hx⟩]
  have hright : cs'.map Tree.bare = (cs'.map Tree.label).map g := by
    rw [Content.map_map]
    refine Content.map_congr fun u hu => ?_
    simp [g, bare?, hr'.part u hu]
  rw [bare?, hu, Option.map_some, Tree.bare_rooted, Tree.bare_rooted, hleft, hright, ← hr.content,
    ← hr'.content, hcontent]

/-- There is a tree at a node if and only if the node is there. -/
theorem Wf.tree?_eq_none (w : a.Wf) : a.tree? id = none ↔ a.contains id = false := by
  rw [contains, Option.isSome_eq_false_iff, Option.isNone_iff_eq_none]
  constructor
  · intro ht
    by_contra hn
    obtain ⟨n, hn⟩ := Option.ne_none_iff_exists'.1 hn
    obtain ⟨t, ht'⟩ := w.exists_tree hn
    cases ht.symm.trans ht'
  · intro hn
    by_contra ht
    obtain ⟨t, ht⟩ := Option.ne_none_iff_exists'.1 ht
    obtain ⟨n, hn', -⟩ := exists_node_of_tree ht
    cases hn.symm.trans hn'

/-! ## The walk -/

/-- The walk goes through the nodes of the tree on top of the stack first. -/
theorem walk_eq (ht : a.tree? id = some t) (stack : List NodeId) :
    a.walk (id :: stack) = (a.walk stack).map (t.bare.labels ++ ·) := by
  refine tree?_induction_rooted (P := fun id t => ∀ stack : List NodeId,
    a.walk (id :: stack) = (a.walk stack).map (t.bare.labels ++ ·)) ?_ ht stack
  intro id n cs as hn hr ihp _ stack
  have hparts (us : List (Tree NodeId)) (hus : ∀ u ∈ us, u ∈ cs.structural) :
      a.walk (us.map Tree.label ++ stack) =
        (a.walk stack).map (us.flatMap (·.bare.labels) ++ ·) := by
    induction us with
    | nil => simp
    | cons u us ih =>
      rw [List.map_cons, List.cons_append, ihp u (hus u (List.mem_cons_self ..)),
        ih fun u hu => hus u (List.mem_cons_of_mem _ hu), Option.map_map]
      simp [Function.comp_def]
  have hstructural : n.content.structural = cs.structural.map Tree.label := by
    rw [hr.content, Content.structural_map]
  rw [walk, hn]
  simp only [hstructural, hparts cs.structural fun _ h => h, labels_bare]
  cases a.walk stack <;> rfl

/-- The walk from a node goes through its tree without attributes. -/
theorem Wf.descendants_eq (w : a.Wf) (id : NodeId) :
    a.descendants id = ((a.bare? id).map Tree.labels).getD [] := by
  cases ht : a.tree? id with
  | none =>
    have hn : a.node? id = none := by
      simpa [contains] using w.tree?_eq_none.1 ht
    rw [descendants, walk, hn, bare?, ht]
    simp only [walk]
    rfl
  | some t =>
    rw [descendants, walk_eq ht, bare?, ht, walk]
    simp

/-! ## What is read off the structure of a node -/

/-- What is read off the structure of a node is the same in two arenas: its compact text,
    its free variables, the nodes below it, its value, and its XML form, or the errors that
    there are instead. -/
structure ReadsAlike (a b : Arena) (id : NodeId) : Prop where
  compact : b.compact id = a.compact id
  freeVariables : b.freeVariables id = a.freeVariables id
  descendants : b.descendants id = a.descendants id
  evaluate : b.evaluate id = a.evaluate id
  toXml : b.toXml id = a.toXml id

theorem cases_of_bare? (h : b.bare? id = a.bare? id) :
    (a.tree? id = none ∧ b.tree? id = none) ∨
      ∃ t u, a.tree? id = some t ∧ b.tree? id = some u ∧ u.bare = t.bare := by
  rw [bare?, bare?] at h
  cases ha : a.tree? id <;> cases hb : b.tree? id <;> simp_all

/-- What is read off a node depends on its tree without attributes only. -/
theorem Wf.readsAlike (wa : a.Wf) (wb : b.Wf) (h : b.bare? id = a.bare? id) :
    ReadsAlike a b id := by
  have hdescendants : b.descendants id = a.descendants id := by
    rw [wa.descendants_eq, wb.descendants_eq, h]
  rcases cases_of_bare? h with ⟨ha, hb⟩ | ⟨t, u, ha, hb, hut⟩
  · constructor <;>
      simp only [Arena.compact, Arena.freeVariables, Arena.evaluate, Arena.toXml, ha, hb,
        hdescendants]
  · refine ⟨?_, ?_, hdescendants, ?_, ?_⟩
    · simp only [Arena.compact, ha, hb, Option.map_some]
      rw [← u.compactChars_bare, hut, t.compactChars_bare]
    · simp only [Arena.freeVariables, ha, hb, Option.map_some]
      rw [← u.freeVariables_bare, hut, t.freeVariables_bare]
    · simp only [Arena.evaluate, ha, hb]
      rw [← u.evaluate_bare, hut, t.evaluate_bare]
    · simp only [Arena.toXml, ha, hb]
      rw [← u.toXml_bare, hut, t.toXml_bare]

theorem Wf.equals_alike (wa : a.Wf) (wb : b.Wf) (hx : b.bare? x = a.bare? x)
    (hy : b.bare? y = a.bare? y) : b.equals x y false = a.equals x y false := by
  have key {t t' u u' : Tree NodeId} (ht : t.bare = t'.bare) (hu : u.bare = u'.bare)
      (hts : t'.Shaped) (hus : u.Shaped) (hus' : u'.Shaped) :
      t.equals false u = t'.equals false u' := by
    rw [← t.equals_bare, ht, t'.equals_bare, hts.equals_comm hus, ← u.equals_bare, hu,
      u'.equals_bare, hus'.equals_comm hts]
  rcases cases_of_bare? hx with ⟨ha, hb⟩ | ⟨t, t', ha, hb, ht⟩
  · simp only [Arena.equals, ha, hb]
  · rcases cases_of_bare? hy with ⟨ha', hb'⟩ | ⟨u, u', ha', hb', hu⟩
    · simp only [Arena.equals, ha, hb, ha', hb']
    · simp only [Arena.equals, ha, hb, ha', hb']
      exact key ht hu (wa.shaped ha) (wb.shaped hb') (wa.shaped ha')

/-! ## Changes of attributes -/

theorem Detached.content? (h : Detached v a b)
    (hx : ∀ n, a.node? x = some n → v ∉ n.content.structural) : b.content? x = a.content? x := by
  rw [Arena.content?, Arena.content?, h.node? x, Option.map_map]
  refine Option.map_congr fun n hn => ?_
  rw [Function.comp_apply, cut]
  split_ifs
  · refine Content.filter_eq_self fun y hy => bne_iff_ne.2 ?_
    rintro rfl
    exact hx n hn hy
  · rfl
  · rfl

theorem content?_hang (h : Remapped (hang id key v) a b) (x : NodeId) :
    b.content? x = a.content? x := by
  rw [content?, content?, h x, Option.map_map]
  refine Option.map_congr fun n _ => ?_
  rw [Function.comp_apply, hang]
  split_ifs <;> rfl

theorem Wf.value_not_structural (w : a.Wf) (hv : a.getAttribute? id key = some v)
    (hx : a.node? x = some n) : v ∉ n.content.structural := by
  obtain ⟨m, e, hm, he, -, rfl⟩ := getAttribute?_eq_some hv
  have hvalue : e.2 ∈ m.attributes.map (·.2) := List.mem_map_of_mem he
  intro hs
  have hp := w.parent?_of_mem hm (List.mem_append_right _ hvalue)
  cases (w.parent?_of_mem hx (List.mem_append_left _ hs)).symm.trans hp
  cases hx.symm.trans hm
  have hnd := w.owned_nodup hm
  rw [Node.owned, List.nodup_append] at hnd
  exact hnd.2.2 _ hs _ hvalue rfl

/-- Removing an attribute changes no content, and no node is lost. -/
theorem Wf.removeAttribute_content? (w : a.Wf) (id : NodeId) (key : Symbol) :
    (a.removeAttribute id key).2.Wf ∧
      ∀ x, (a.removeAttribute id key).2.contains x = a.contains x ∧
        (a.removeAttribute id key).2.content? x = a.content? x := by
  obtain ⟨b, hb, hsome, hnone, -⟩ := w.removeAttribute_spec id key
  rw [hb]
  cases hv : a.getAttribute? id key with
  | none =>
    rw [hnone hv]
    exact ⟨w, fun x => ⟨rfl, rfl⟩⟩
  | some v =>
    have hd := hsome v hv
    exact ⟨hd.wf, fun x => ⟨hd.contains, hd.content? fun n hn => w.value_not_structural hv hn⟩⟩

/-- Setting an attribute changes the contents only of those nodes of which the value is a
    part, and no node is lost. -/
theorem Wf.setAttribute_content? (w : a.Wf) {r : Option NodeId}
    (h : setAttribute id key v a = some (.ok r, b)) :
    b.Wf ∧ ∀ x, b.contains x = a.contains x ∧
      ((∀ n, a.node? x = some n → v ∉ n.content.structural) → b.content? x = a.content? x) := by
  have ha : Attaches a id v := by
    by_contra ha
    obtain ⟨e, he⟩ := w.setAttribute_kept ha key
    cases h.symm.trans he
  obtain ⟨b₁, b₂, d, hb₁, hd, hrun, hh, -, wd⟩ := w.setAttribute_ok ha key
  cases h.symm.trans hrun
  obtain ⟨-, hkept⟩ := w.removeAttribute_content? id key
  rw [hb₁] at hkept
  refine ⟨wd, fun x => ⟨?_, fun hx => ?_⟩⟩
  · rw [hh.contains, hd.contains, (hkept x).1]
  · rw [content?_hang hh, ← (hkept x).2]
    refine hd.content? fun n hn hv => ?_
    have hcontent : a.content? x = some n.content := by rw [← (hkept x).2, content?, hn]; rfl
    obtain ⟨m, hm, he⟩ := Option.map_eq_some_iff.1 hcontent
    exact hx m hm (he ▸ hv)

theorem Wf.bare?_eq (wa : a.Wf) (wb : b.Wf) (hid : b.contains id = a.contains id)
    (hc : ∀ t, a.tree? id = some t → ∀ x ∈ t.bare.labels, b.content? x = a.content? x) :
    b.bare? id = a.bare? id := by
  cases ht : a.tree? id with
  | none =>
    have htb : b.tree? id = none := wb.tree?_eq_none.2 (hid.trans (wa.tree?_eq_none.1 ht))
    rw [bare?, bare?, ht, htb]
  | some t => rw [bare?_congr wb ht (hc t ht), bare?, ht, Option.map_some]

/-- In the arenas that come about, what is read off the structure of a node does not change
    when an attribute is set whose value is not in that structure, nor does equality without
    attributes of two such nodes; and when an attribute is removed, they do not change at
    all. -/
theorem Reachable.attributes_unread (h : a.Reachable) :
    (∀ n key v r b, setAttribute n key v a = some (.ok r, b) →
      (∀ id, v ∉ a.descendants id → ReadsAlike a b id) ∧
        ∀ x y, v ∉ a.descendants x → v ∉ a.descendants y →
          b.equals x y false = a.equals x y false) ∧
      ∀ n key, (∀ id, ReadsAlike a (a.removeAttribute n key).2 id) ∧
        ∀ x y, (a.removeAttribute n key).2.equals x y false = a.equals x y false := by
  have w := h.wf
  constructor
  · intro n key v r b hset
    obtain ⟨wb, hkept⟩ := w.setAttribute_content? hset
    have hbare : ∀ id, v ∉ a.descendants id → b.bare? id = a.bare? id := by
      intro id hv
      refine w.bare?_eq wb (hkept id).1 fun t ht x hx => (hkept x).2 fun m hm hvm => hv ?_
      rw [w.descendants_eq, bare?, ht]
      exact structural_closed ht hx hm hvm
    exact ⟨fun id hid => w.readsAlike wb (hbare id hid),
      fun x y hx hy => w.equals_alike wb (hbare x hx) (hbare y hy)⟩
  · intro n key
    obtain ⟨wb, hkept⟩ := w.removeAttribute_content? n key
    have hbare (id : NodeId) : (a.removeAttribute n key).2.bare? id = a.bare? id :=
      w.bare?_eq wb (hkept id).1 fun t _ x _ => (hkept x).2
    exact ⟨fun id => w.readsAlike wb (hbare id), fun x y => w.equals_alike wb (hbare x) (hbare y)⟩

/-- An application whose operand has become an attribute of the operator. -/
def operandStored : Arena where
  places := #[some ⟨.var "f", [(typeKey none, 1)], some 2⟩, some ⟨.var "x", [], some 0⟩,
    some ⟨.application [0], [], none⟩]

/-- The operand of an application becomes an attribute of the operator, which is read like
    before, while the application is not. -/
theorem attributes_unread_applied :
    ∃ b, setAttribute 0 ⟨"type", "sts", none, rfl, rfl⟩ 1 applied = some (.ok none, b) ∧
      applied.ReadsAlike b 0 ∧ b.equals 0 0 false = applied.equals 0 0 false ∧
      applied.compact 2 = "f(x)" ∧ b.compact 2 = "f()" := by
  have hset : setAttribute 0 (typeKey none) 1 applied = some (.ok none, operandStored) := by
    cbv
  have hv : 1 ∉ applied.descendants 0 := by
    have : applied.descendants 0 = [0] := by cbv
    simp [this]
  obtain ⟨hread, hequals⟩ := reachable_applied.attributes_unread.1 _ _ _ _ _ hset
  exact ⟨operandStored, hset, hread 0 hv, hequals 0 0 hv hv, by cbv, by cbv⟩

end OpenMath.Arena
