/-
  A valid shape grows into a tree.

  The walk over a shape that makes terms and the one that makes nodes are the
  same; on a valid shape neither fails, and the nodes are those of a new tree
  that is the term.

  * `Grows`: two runs of one walk, on terms and on nodes, beside each other;
  * `Grows.bind`: such runs in a row;
  * `valid_grows`: a valid shape has a term, and its tree is added.
-/
import OpenMath.Proofs.Arena.Planting
import OpenMath.Proofs.Wire.Building
import OpenMath.Arena.Construction

namespace OpenMath.Arena

open Wire
open scoped List

variable {α β γ δ : Type} {a : Arena}

/-! ## Runs beside each other -/

/-- From `a` with the trees `us` added, both runs have results, the one on nodes
    leaves `a` with other trees added, and the results are related. -/
def Grows (a : Arena) (us : List (Tree NodeId)) (x : Except Error α) (m : Edit β)
    (post : List (Tree NodeId) → α → β → Prop) : Prop :=
  ∀ b, Planted a b us →
    ∃ v r c vs, x = .ok v ∧ m b = some (.ok r, c) ∧ Planted a c vs ∧ post vs v r

namespace Grows

variable {us : List (Tree NodeId)} {x : Except Error α} {m : Edit β}
  {post : List (Tree NodeId) → α → β → Prop}

theorem ok {v : α} {r : β} (h : post us v r) : Grows a us (.ok v) (pure r) post :=
  fun b hb => ⟨v, r, b, us, rfl, rfl, hb, h⟩

theorem lift {v : α} {r : β} (h : post us v r) :
    Grows a us (.ok v) (liftExcept (.ok r : Except Error β)) post :=
  fun b hb => ⟨v, r, b, us, rfl, rfl, hb, h⟩

theorem bind {post' : List (Tree NodeId) → γ → δ → Prop} {k : α → Except Error γ}
    {k' : β → Edit δ} (h : Grows a us x m post)
    (hk : ∀ vs v r, post vs v r → Grows a vs (k v) (k' r) post') :
    Grows a us (x >>= k) (m >>= k') post' := by
  intro b hb
  obtain ⟨v, r, c, vs, rfl, hm, hc, hp⟩ := h b hb
  obtain ⟨v', r', d, ws, hv', hr', hd, hp'⟩ := hk vs v r hp c hc
  exact ⟨v', r', d, ws, hv', (Edit.bind_ok hm).trans hr', hd, hp'⟩

theorem behind (h : ∀ b, b.Wf → Grows b [] x m post) :
    Grows a us x m fun vs v r => ∃ ws, vs = us ++ ws ∧ post ws v r := by
  intro b hb
  obtain ⟨v, r, c, vs, hx, hm, hc, hv⟩ := h b hb.wf b (.nil hb.wf)
  exact ⟨v, r, c, us ++ vs, hx, hm, hb.trans hc, vs, rfl, hv⟩

end Grows

/-! ## Lists -/

/-- One tree was added: the node is its root, the term is the tree, and its kind
    is as given. -/
def One (type : Option NodeType) (us : List (Tree NodeId)) (t : Term) (id : NodeId) : Prop :=
  ∃ u, us = [u] ∧ u.label = id ∧ u.toTerm = t ∧ type = some u.kind.type

/-- One tree was added for each of several shapes. -/
def Each (xs : List Json) (us : List (Tree NodeId)) (ts : List Term) (ids : List NodeId) : Prop :=
  us.map Tree.label = ids ∧ us.map Tree.toTerm = ts ∧
    List.Forall₂ (fun x u => x.nodeType? = some u.kind.type) xs us

/-- A shape grows. -/
def ShapeGrows (v : Json) : Prop :=
  ∀ a : Arena, a.Wf → Grows a [] (build v) (grow v) (One v.nodeType?)

theorem mapEach_grows {xs : List Json} (h : ∀ x ∈ xs, ShapeGrows x) (a : Arena) (w : a.Wf) :
    Grows a [] (mapEach xs fun x _ => build x) (mapEach xs fun x _ => grow x) (Each xs) := by
  induction xs generalizing a with
  | nil => exact .ok ⟨rfl, rfl, .nil⟩
  | cons x xs ih =>
    refine (h x (List.mem_cons_self ..) a w).bind fun us t id h1 => ?_
    obtain ⟨u, rfl, rfl, rfl, hk⟩ := h1
    refine (Grows.behind fun b wb => ih (fun y hy => h y (List.mem_cons_of_mem _ hy)) b wb).bind ?_
    rintro _ ts ids ⟨vs, rfl, rfl, rfl, hks⟩
    exact .ok ⟨rfl, rfl, .cons hk hks⟩

/-! ## Contents -/

/-- The parts of a node were added: the contents on both sides are those of one
    content with trees for parts, which play their roles. -/
def Parts (type : NodeType) (us : List (Tree NodeId)) (c : Content Term) (c' : Content NodeId) :
    Prop :=
  ∃ d : Content (Tree NodeId), c = d.map Tree.toTerm ∧ c' = d.map Tree.label ∧
    us.Perm d.structural ∧ (∀ s ∈ d.slots, s.role.admits s.content.kind = true) ∧
    d.kind.type = type

theorem map_elim (c : Content Empty) (f : α → β) :
    (c.map (Empty.elim : Empty → α)).map f = c.map Empty.elim := by
  rw [Content.map_map]
  congr
  exact funext nofun

theorem slots_elim (c : Content Empty) : (c.map (Empty.elim : Empty → α)).slots = [] := by
  rw [Content.slots_map]
  have : c.slots = [] := List.eq_nil_iff_forall_not_mem.2 fun s _ => s.content.elim
  rw [this]
  rfl

/-- A content without parts. -/
theorem leaf_grows {fs : Json.Fields} {type : NodeType}
    (ht : (Json.obj fs).nodeType? = some type) (h : FieldsOk Valid fs type) (hl : IsLeaf type)
    (a : Arena) :
    Grows a [] (liftExcept (buildLeaf fs type)) (liftExcept (buildLeaf (α := NodeId) fs type))
      (Parts type) := by
  obtain ⟨c, hc, hb⟩ := buildLeaf_ok ht h hl
  rw [hb Term, hb NodeId]
  refine .lift ⟨c.map Empty.elim, (map_elim c _).symm, (map_elim c _).symm, ?_, ?_, ?_⟩
  · rw [← Content.contents_slots, slots_elim]
    exact .nil
  · rw [slots_elim]
    simp
  · rw [Content.kind_map, hc]

theorem content_grows {fs : Json.Fields} {type : NodeType}
    (ht : (Json.obj fs).nodeType? = some type) (h : FieldsOk Valid fs type)
    (hin : ∀ v, v.weight < (Json.obj fs).weight → Valid v → ShapeGrows v) (a : Arena) (w : a.Wf) :
    Grows a [] (buildContent fs type fun v _ => build v) (buildContent fs type fun v _ => grow v)
      (Parts type) := by
  have hlist {field : String} {xs : List Json} (hx : fs.get? field = some (.arr xs))
      (hv : ∀ x ∈ xs, Valid x) : ∀ x ∈ xs, ShapeGrows x := fun x hm =>
    hin x (weight_lt_of_mem_get? hx hm) (hv x hm)
  cases type with
  | application =>
    obtain ⟨xs, hx, -, hv⟩ := h
    rw [buildContent, buildContent, buildList_eq _ hx, buildList_eq _ hx]
    refine (mapEach_grows (hlist hx hv) a w).bind ?_
    rintro us _ _ ⟨rfl, rfl, -⟩
    refine .ok ⟨.application us, rfl, rfl, ?_, ?_, rfl⟩
    · simp [Content.structural, Content.children, Content.head?, Content.bound, Content.body?]
    · exact Tree.fits_iff.2 ⟨by simp [Content.head?], by simp [Content.bound]⟩
  | binding =>
    obtain ⟨⟨v, hv, vv, tv⟩, ⟨xs, hx, hxs⟩, b, hb, vb⟩ := h
    rw [buildContent, buildContent, buildField_eq _ hv, buildField_eq _ hv, buildList_eq _ hx,
      buildList_eq _ hx, buildField_eq _ hb, buildField_eq _ hb]
    refine (hin v (weight_lt_of_get? hv) vv a w).bind ?_
    rintro _ _ _ ⟨u, rfl, rfl, rfl, hu⟩
    refine (Grows.behind (mapEach_grows (hlist hx fun x hm => (hxs x hm).1))).bind ?_
    rintro _ _ _ ⟨us, rfl, rfl, rfl, hus⟩
    refine (Grows.behind (hin b (weight_lt_of_get? hb) vb)).bind ?_
    rintro _ _ _ ⟨_, rfl, u', rfl, rfl, rfl, -⟩
    refine .ok ⟨.binding (some u) us (some u'), rfl, rfl, ?_, ?_, rfl⟩
    · simp [Content.structural, Content.children, Content.head?, Content.bound, Content.body?]
    · refine Tree.fits_iff.2 ⟨?_, ?_⟩
      · intro y hy
        cases hy
        exact Option.some.inj (hu.symm.trans tv)
      · intro y hy
        obtain ⟨x, hm, hk⟩ := exists_of_forall₂ hus.flip hy
        exact Option.some.inj (hk.symm.trans (hxs x hm).2)
  | error =>
    obtain ⟨⟨v, hv, vv, tv⟩, hc⟩ := h
    rw [buildContent, buildContent, buildField_eq _ hv, buildField_eq _ hv]
    refine (hin v (weight_lt_of_get? hv) vv a w).bind ?_
    rintro _ _ _ ⟨u, rfl, rfl, rfl, hu⟩
    have hadmits (us : List (Tree NodeId)) := (Tree.fits_iff (c := .error (some u) us)).2
      ⟨fun y hy => by cases hy; exact Option.some.inj (hu.symm.trans tv), by simp [Content.bound]⟩
    have hperm (us : List (Tree NodeId)) :
        ([u] ++ us).Perm (Content.error (some u) us).structural := by
      simpa [Content.structural, Content.children, Content.head?, Content.bound, Content.body?]
        using @List.perm_append_comm _ [u] us
    unfold buildErrorChildren
    rcases hc with hc | ⟨xs, hx, hxs⟩
    · rw [hc]
      exact .ok ⟨.error (some u) [], rfl, rfl, hperm [], hadmits [], rfl⟩
    · rw [hx, if_neg (by simp), if_neg (by simp), buildList_eq _ hx, buildList_eq _ hx]
      refine (Grows.behind (mapEach_grows (hlist hx hxs))).bind ?_
      rintro _ _ _ ⟨us, rfl, rfl, rfl, -⟩
      exact .ok ⟨.error (some u) us, rfl, rfl, hperm us, hadmits us, rfl⟩
  | _ => exact leaf_grows ht h (by simp [IsLeaf]) a

/-! ## Attributes -/

/-- Besides other trees, the values of attributes were added. -/
def Entries (base us : List (Tree NodeId)) (as : List (Symbol × Term))
    (as' : List (Symbol × NodeId)) : Prop :=
  ∃ ds : List (Symbol × Tree NodeId), as = ds.map (fun e => (e.1, e.2.toTerm)) ∧
    as' = ds.map (fun e => (e.1, e.2.label)) ∧ us.Perm (base ++ ds.map (·.2)) ∧ Keyed ds

/-- One more attribute; the value that gives way is freed. -/
theorem addEntry_grows {base : List (Tree NodeId)} {ds : List (Symbol × Tree NodeId)}
    {us : List (Tree NodeId)} {u : Tree NodeId} (hp : us.Perm (base ++ ds.map (·.2)))
    (hk : Keyed ds) (key : Symbol) (a : Arena) :
    Grows a (us ++ [u]) (addEntry termMaker (ds.map fun e => (e.1, e.2.toTerm)) key u.toTerm)
      (addEntry nodeMaker (ds.map fun e => (e.1, e.2.label)) key u.label) (Entries base) := by
  unfold addEntry
  rw [valueOf?_map, valueOf?_map, putEntry_map, putEntry_map]
  have hput := keyed_putEntry hk key u
  rcases putEntry_cases key u ds with ⟨hv, hpe, -⟩ | ⟨l, k, v, r, rfl, hv, hpe⟩
  · rw [hv]
    refine .ok ⟨_, rfl, rfl, ?_, hput⟩
    rw [hpe, List.map_append, ← List.append_assoc]
    exact hp.append_right [u]
  · rw [hv]
    intro b hb
    have hvp : (us ++ [u]).Perm (v :: (base ++ (putEntry key u (l ++ (k, v) :: r)).map (·.2))) := by
      rw [hpe]
      simp only [List.map_append, List.map_cons, ← List.append_assoc] at hp ⊢
      calc us ++ [u]
        _ ~ u :: us := List.perm_append_comm
        _ ~ u :: v :: (base ++ l.map (·.2) ++ r.map (·.2)) := .cons u (hp.trans List.perm_middle)
        _ ~ v :: u :: (base ++ l.map (·.2) ++ r.map (·.2)) := .swap v u _
        _ ~ v :: (base ++ l.map (·.2) ++ u :: r.map (·.2)) := .cons v List.perm_middle.symm
    obtain ⟨c, hc, hpc⟩ := (hb.perm hvp).discard
    refine ⟨_, _, c, _, rfl, (Edit.bind_ok hc).trans rfl, hpc, _, rfl, rfl, .rfl, hput⟩

theorem addEntries_grows {es : Json.Fields}
    (h : ∀ e ∈ es, ∃ shape, Json.parse? e.1 = some shape ∧ shape.nodeType? = some .symbol ∧
      Valid shape ∧ ShapeGrows e.2)
    {base : List (Tree NodeId)} {ds : List (Symbol × Tree NodeId)} {us : List (Tree NodeId)}
    (hp : us.Perm (base ++ ds.map (·.2))) (hk : Keyed ds) (a : Arena) :
    Grows a us
      (addEntries termMaker (ds.map fun e => (e.1, e.2.toTerm)) es fun e _ => build e.2)
      (addEntries nodeMaker (ds.map fun e => (e.1, e.2.label)) es fun e _ => grow e.2)
      (Entries base) := by
  induction es generalizing ds us with
  | nil => exact .ok ⟨ds, rfl, rfl, hp, hk⟩
  | cons e es ih =>
    obtain ⟨shape, hs, ht, hv, hg⟩ := h e (List.mem_cons_self ..)
    obtain ⟨key, hkey⟩ := readKey_ok hs ht hv
    simp only [addEntries]
    rw [hkey]
    have hlift : Grows a us (.ok key) (liftExcept (.ok key)) fun vs k k' =>
        vs = us ∧ k = key ∧ k' = key := .lift ⟨rfl, rfl, rfl⟩
    refine hlift.bind ?_
    rintro _ _ _ ⟨rfl, rfl, rfl⟩
    refine (Grows.behind hg).bind ?_
    rintro _ _ _ ⟨_, rfl, u, rfl, rfl, rfl, -⟩
    refine (addEntry_grows hp hk _ a).bind ?_
    rintro vs _ _ ⟨ds', rfl, rfl, hp', hk'⟩
    exact ih (fun e he => h e (List.mem_cons_of_mem _ he)) hp' hk'

theorem attributes_grow {fs : Json.Fields} (h : AttributesOk Valid fs)
    (hin : ∀ v, v.weight < (Json.obj fs).weight → Valid v → ShapeGrows v)
    (base : List (Tree NodeId)) (a : Arena) :
    Grows a base (buildAttributes termMaker fs fun v _ => build v)
      (buildAttributes nodeMaker fs fun v _ => grow v) (Entries base) := by
  have hnone : Grows a base (pure []) (pure []) (Entries base) :=
    .ok ⟨[], rfl, rfl, by simp, .nil⟩
  unfold buildAttributes
  rcases h with h | ⟨es, h, he⟩
  · split
    · simp_all
    · exact hnone
  · split
    · next es' h' =>
      cases h'.symm.trans h
      have hnil : base.Perm (base ++ List.map (·.2) ([] : List (Symbol × Tree NodeId))) := by simp
      refine addEntries_grows (fun e hm => ?_) hnil .nil a
      obtain ⟨shape, hs, ht, hv, hv'⟩ := he e hm
      exact ⟨shape, hs, ht, hv, hin e.2 (weight_lt_of_attribute h hm) hv'⟩
    · simp_all

/-! ## Shapes -/

/-- A valid shape grows. -/
theorem valid_grows {v : Json} (h : Valid v) : ShapeGrows v := by
  -- on the weight, since the keys of attributes are texts of further shapes
  induction hn : v.weight using Nat.strongRecOn generalizing v with
  | _ n ih =>
    subst hn
    obtain ⟨fs, rfl, ha, type, ht, -, hf⟩ := valid_iff.1 h
    have hin (v : Json) (hw : v.weight < (Json.obj fs).weight) (hv : Valid v) : ShapeGrows v :=
      ih _ hw hv rfl
    intro a w
    rw [build, grow, buildWith, buildWith]
    unfold buildNode
    rw [ht]
    have hlift : Grows a [] (.ok type) (liftExcept (.ok type)) fun vs k k' =>
        vs = [] ∧ k = type ∧ k' = type := .lift ⟨rfl, rfl, rfl⟩
    refine hlift.bind ?_
    rintro _ _ _ ⟨rfl, rfl, rfl⟩
    refine (content_grows ht hf hin a w).bind ?_
    rintro us _ _ ⟨c, rfl, rfl, hp, hadm, hk⟩
    refine (attributes_grow ha hin us a).bind ?_
    rintro vs _ _ ⟨ds, rfl, rfl, hp', hkd⟩
    intro b hb
    have hperm := hp'.trans (hp.append_right _)
    have hi := hb.insertable hperm hadm hkd
    have hins := inserted_insert hi.parent fun x hx => by
      obtain ⟨m, hm⟩ := hi.live x hx
      exact node?_lt hm
    refine ⟨_, _, _, _, rfl, Edit.modifyGet_run ..,
      hb.insert hperm hi hins (by simp [Arena.insert]), _, rfl, rfl, ?_, ?_⟩
    · exact Tree.toTerm_rooted ..
    · rw [← hk]; rfl

end OpenMath.Arena
