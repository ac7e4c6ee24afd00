/-
  Trees in which some of the trees inside gave way to others.

  The trees that gave way are listed with those that took their places.  No two of
  them are inside each other, as the search for them stops at each one, and what is
  above and beside them keeps its label.

  * `Grafted`: the relation, with the list;
  * `Grafted.labels_sublist`, `Grafted.mem_labels`: which labels there are before and
    after;
  * `Relabels`, `exists_relabels`: the list as a change of labels;
  * `Content.exists_pairs`: two contents slot by slot.
-/
import OpenMath.Proofs.Tree.Substitution
import Mathlib.Data.List.Flatten
import Mathlib.Data.List.Nodup
import Mathlib.Data.List.Pairwise

namespace OpenMath

namespace Content

variable {α β γ : Type}

theorem mem_structural_map {f : α → β} {c : Content α} {x : α} (h : x ∈ c.structural) :
    f x ∈ (c.map f).structural :=
  structural_map f c ▸ List.mem_map_of_mem h

/-- A content that is that of another one, changed slot by slot, makes one content of
    pairs with it. -/
theorem exists_pairs {g : β → γ} {f : Role → α → γ} {c : Content α} {c' : Content β}
    (h : c'.map g = c.mapRoles f) :
    ∃ d : Content (α × β), d.map Prod.fst = c ∧ d.map Prod.snd = c' ∧
      ∀ s ∈ d.slots, g s.content.2 = f s.role s.content.1 := by
  have hlist {r : Role} {xs : List α} {ys : List β} (h : ys.map g = xs.map (f r)) :
      ∃ ps : List (α × β), ps.map Prod.fst = xs ∧ ps.map Prod.snd = ys ∧
        ∀ p ∈ ps, g p.2 = f r p.1 := by
    have hlen : ys.length = xs.length := by simpa using congrArg List.length h
    refine ⟨xs.zip ys, List.map_fst_zip (Nat.le_of_eq hlen.symm), List.map_snd_zip (Nat.le_of_eq hlen),
      fun p hp => ?_⟩
    obtain ⟨i, hi, rfl⟩ := List.mem_iff_getElem.1 hp
    have hx : i < xs.length := by simp at hi; omega
    have hy : i < ys.length := by omega
    simpa [hx, hy] using congrArg (·[i]?) h
  have hoption {r : Role} {x : Option α} {y : Option β} (h : y.map g = x.map (f r)) :
      ∃ p : Option (α × β), p.map Prod.fst = x ∧ p.map Prod.snd = y ∧
        ∀ q, p = some q → g q.2 = f r q.1 := by
    cases x <;> cases y <;> simp at h
    · exact ⟨none, rfl, rfl, by simp⟩
    · next x y => exact ⟨some (x, y), rfl, rfl, by rintro _ ⟨⟩; exact h⟩
  have hslots {d : Content (α × β)} (hc : ∀ p ∈ d.children, g p.2 = f .child p.1)
      (hh : ∀ p, d.head? = some p → g p.2 = f .head p.1)
      (hv : ∀ p ∈ d.bound, g p.2 = f .bound p.1)
      (hb : ∀ p, d.body? = some p → g p.2 = f .body p.1) :
      ∀ s ∈ d.slots, g s.content.2 = f s.role s.content.1 :=
    (forall_slots (P := fun r (p : α × β) => g p.2 = f r p.1)).2 ⟨hc, hh, hv, hb⟩
  cases c with
  | application cs =>
    cases c' <;> simp only [map, mapRoles, reduceCtorEq] at h
    obtain ⟨ps, rfl, rfl, hp⟩ := hlist (application.inj h)
    exact ⟨application ps, rfl, rfl, hslots hp (by simp [head?]) (by simp [bound]) (by simp [body?])⟩
  | binding hd vs b =>
    cases c' <;> simp only [map, mapRoles, reduceCtorEq, binding.injEq] at h
    obtain ⟨ph, rfl, rfl, hh⟩ := hoption h.1
    obtain ⟨pv, rfl, rfl, hv⟩ := hlist h.2.1
    obtain ⟨pb, rfl, rfl, hb⟩ := hoption h.2.2
    exact ⟨binding ph pv pb, rfl, rfl, hslots (by simp [children]) hh hv hb⟩
  | error hd cs =>
    cases c' <;> simp only [map, mapRoles, reduceCtorEq, error.injEq] at h
    obtain ⟨ph, rfl, rfl, hh⟩ := hoption h.1
    obtain ⟨pc, rfl, rfl, hc⟩ := hlist h.2
    exact ⟨error ph pc, rfl, rfl, hslots hc hh (by simp [bound]) (by simp [body?])⟩
  -- nothing else has parts
  | integer v =>
    cases c' <;> cases h
    exact ⟨integer v, rfl, rfl, List.forall_mem_nil _⟩
  | float x =>
    cases c' <;> cases h
    exact ⟨float x, rfl, rfl, List.forall_mem_nil _⟩
  | string s =>
    cases c' <;> cases h
    exact ⟨string s, rfl, rfl, List.forall_mem_nil _⟩
  | byteArray bs =>
    cases c' <;> cases h
    exact ⟨byteArray bs, rfl, rfl, List.forall_mem_nil _⟩
  | symbol s =>
    cases c' <;> cases h
    exact ⟨symbol s, rfl, rfl, List.forall_mem_nil _⟩
  | var name =>
    cases c' <;> cases h
    exact ⟨var name, rfl, rfl, List.forall_mem_nil _⟩

end Content

theorem eq_of_map_eq_map {α β : Type} {f g : α → β} {xs ys : List α}
    (h : xs.map f = ys.map g) (hfg : ∀ x ∈ xs, ∀ y, f x = g y → x = y) : xs = ys := by
  induction xs generalizing ys with
  | nil => exact (List.map_eq_nil_iff.1 h.symm).symm
  | cons x xs ih =>
    cases ys with
    | nil => cases h
    | cons y ys =>
      rw [List.map_cons, List.map_cons, List.cons.injEq] at h
      rw [hfg x (List.mem_cons_self ..) y h.1,
        ih h.2 fun z hz => hfg z (List.mem_cons_of_mem _ hz)]

/-- If nothing is twice in what is collected from the items of a list, it comes from one
    item only. -/
theorem eq_of_mem_flatMap {α β : Type} {f : α → List β} {xs : List α} {x y : α} {z : β}
    (h : (xs.flatMap f).Nodup) (hx : x ∈ xs) (hy : y ∈ xs) (hzx : z ∈ f x) (hzy : z ∈ f y) :
    x = y := by
  have hd : xs.Pairwise fun x y => (f x).Disjoint (f y) := (List.nodup_flatMap.1 h).2
  have : Std.Symm fun x y => (f x).Disjoint (f y) := ⟨fun _ _ h _ hx hy => h hy hx⟩
  by_contra hne
  exact hd.forall hx hy hne hzx hzy

namespace Tree

variable {ι : Type} {t t' u : Tree ι} {gs : List (Tree ι × Tree ι)} {x y l : ι}

/-! ## The labels of parts and attributes -/

theorem mem_labels_rooted_map {α : Type} (f : α → Tree ι) (c : Content α)
    (as : List (Symbol × Tree ι)) : y ∈ (rooted l (c.map f) as).labels ↔
      y = l ∨ (∃ e ∈ c.structural, y ∈ (f e).labels) ∨ ∃ d ∈ as, y ∈ d.2.labels := by
  simp only [mem_labels_rooted, Content.structural_map, List.mem_append, List.mem_map,
    or_and_right, exists_or, exists_exists_and_eq_and]

section
variable {c : Content (Tree ι × Tree ι)} {as : List (Symbol × Tree ι)}
  (h : (rooted l (c.map Prod.fst) as).labels.Nodup)
include h

/-- In a tree without repetitions the label of a node is in no part and no
    attribute of it, and there are no repetitions in these. -/
theorem nodup_parts :
    (∀ e ∈ c.structural, e.1.labels.Nodup ∧ l ∉ e.1.labels) ∧ ∀ e ∈ as, l ∉ e.2.labels := by
  rw [labels_rooted, List.nodup_cons, List.nodup_flatMap, Content.structural_map] at h
  refine ⟨fun e he => ?_, fun e he hm => ?_⟩
  · have hmem := List.mem_append_left (as.map (·.2)) (List.mem_map_of_mem (f := Prod.fst) he)
    exact ⟨h.2.1 _ hmem, fun hm => h.1 (List.mem_flatMap.2 ⟨_, hmem, hm⟩)⟩
  · have hmem := List.mem_append_right (c.structural.map Prod.fst)
      (List.mem_map_of_mem (f := Prod.snd) he)
    exact h.1 (List.mem_flatMap.2 ⟨_, hmem, hm⟩)

theorem eq_of_mem_labels {e e' : Tree ι × Tree ι} (he : e ∈ c.structural)
    (he' : e' ∈ c.structural) (hy : y ∈ e.1.labels) (hy' : y ∈ e'.1.labels) : e = e' := by
  rw [labels_rooted, List.nodup_cons, List.flatMap_append, Content.structural_map,
    List.flatMap_map] at h
  exact eq_of_mem_flatMap (List.nodup_append.1 h.2).1 he he' hy hy'

theorem not_mem_value {e : Tree ι × Tree ι} {d : Symbol × Tree ι} (he : e ∈ c.structural)
    (hd : d ∈ as) (hy : y ∈ e.1.labels) : y ∉ d.2.labels := by
  rw [labels_rooted, List.nodup_cons, List.nodup_flatMap, Content.structural_map] at h
  exact (List.pairwise_append.1 h.2.2).2.2 _ (List.mem_map_of_mem he) _ (List.mem_map_of_mem hd) hy

end

/-- Trees are one if their labels, each changed in a way of its own, come to the same only
    where they were the same. -/
theorem eq_of_mapLabels {κ : Type} {f g : ι → κ} (hfg : ∀ x y, f x = g y → x = y)
    (h : t.mapLabels f = u.mapLabels g) : t = u := by
  induction t using Tree.induction generalizing u with
  | node l k ss ih =>
    obtain ⟨l', k', ss'⟩ := u
    rw [mapLabels_node, mapLabels_node, node.injEq] at h
    obtain ⟨hl, rfl, hss⟩ := h
    rw [hfg l l' hl, eq_of_map_eq_map hss fun s hs s' he => ?_]
    obtain ⟨r, v⟩ := s
    obtain ⟨r', v'⟩ := s'
    simp only [Slot.map, Slot.mk.injEq] at he
    have hv : v = v' := ih ⟨r, v⟩ hs he.2
    rw [he.1, hv]

/-! ## Grafts -/

/-- Some of the trees inside a tree gave way to others, which are listed with
    them. -/
inductive Grafted : Tree ι → Tree ι → List (Tree ι × Tree ι) → Prop
  | whole (t t' : Tree ι) : Grafted t t' [(t, t')]
  | kept (t : Tree ι) : Grafted t t []
  | parts (l : ι) (c : Content (Tree ι × Tree ι)) (as : List (Symbol × Tree ι))
      (gs : Tree ι × Tree ι → List (Tree ι × Tree ι))
      (h : ∀ e ∈ c.structural, Grafted e.1 e.2 (gs e)) :
      Grafted (rooted l (c.map Prod.fst) as) (rooted l (c.map Prod.snd) as) (c.structural.flatMap gs)

namespace Grafted

/-- The trees that gave way were in the tree, beside each other. -/
theorem labels_sublist (h : Grafted t t' gs) : (gs.flatMap fun g => g.1.labels).Sublist t.labels := by
  induction h with
  | whole t t' => simp
  | kept t => exact List.nil_sublist _
  | parts l c as gs _ ih =>
    rw [labels_rooted, Content.structural_map, List.flatMap_append, List.flatMap_map,
      List.flatMap_assoc]
    exact .cons _ ((List.Sublist.flatMap_right _ ih).trans (List.sublist_append_left ..))

/-- The trees that took the places gave way if the two are taken the other way round. -/
theorem symm (h : Grafted t t' gs) : Grafted t' t (gs.map Prod.swap) := by
  induction h with
  | whole t t' => exact .whole t' t
  | kept t => exact .kept t
  | parts l c as gs _ ih =>
    have hparts := parts l (c.map Prod.swap) as (fun e => (gs e.swap).map Prod.swap) fun e he => by
      rw [Content.structural_map] at he
      obtain ⟨d, hd, rfl⟩ := List.mem_map.1 he
      exact ih d hd
    rw [Content.map_map, Content.map_map, Content.structural_map, List.flatMap_map] at hparts
    rw [List.map_flatMap]
    exact hparts

theorem mem_of_source (h : Grafted t t' gs) {g : Tree ι × Tree ι} (hg : g ∈ gs)
    (hx : x ∈ g.1.labels) : x ∈ t.labels :=
  h.labels_sublist.subset (List.mem_flatMap.2 ⟨g, hg, hx⟩)

theorem mem_of_part {c : Content (Tree ι × Tree ι)} {as : List (Symbol × Tree ι)}
    {gs : Tree ι × Tree ι → List (Tree ι × Tree ι)}
    (h : ∀ e ∈ c.structural, Grafted e.1 e.2 (gs e))
    (hn : (rooted l (c.map Prod.fst) as).labels.Nodup) {e g : Tree ι × Tree ι}
    (he : e ∈ c.structural) (hy : y ∈ e.1.labels) (hg : g ∈ c.structural.flatMap gs)
    (hyg : y ∈ g.1.labels) : g ∈ gs e := by
  obtain ⟨e', he', hg⟩ := List.mem_flatMap.1 hg
  cases eq_of_mem_labels hn he he' hy ((h e' he').mem_of_source hg hyg)
  exact hg

/-- What gave way in the parts of a node is neither the node nor in an attribute of
    it. -/
theorem not_mem_source {c : Content (Tree ι × Tree ι)} {as : List (Symbol × Tree ι)}
    {gs : Tree ι × Tree ι → List (Tree ι × Tree ι)}
    (h : ∀ e ∈ c.structural, Grafted e.1 e.2 (gs e))
    (hn : (rooted l (c.map Prod.fst) as).labels.Nodup) {g : Tree ι × Tree ι}
    (hg : g ∈ c.structural.flatMap gs) : l ∉ g.1.labels ∧ ∀ d ∈ as, ∀ y ∈ d.2.labels, y ∉ g.1.labels := by
  obtain ⟨e, he, hg⟩ := List.mem_flatMap.1 hg
  exact ⟨fun hl => ((nodup_parts hn).1 e he).2 ((h e he).mem_of_source hg hl),
    fun d hd y hy hyg => not_mem_value hn he hd ((h e he).mem_of_source hg hyg) hy⟩

theorem root (h : Grafted t t' gs) (hn : t.labels.Nodup) :
    gs = [(t, t')] ∨ t'.label = t.label ∧ ∀ g ∈ gs, t.label ∉ g.1.labels := by
  cases h with
  | whole => exact .inl rfl
  | kept => exact .inr ⟨rfl, List.forall_mem_nil _⟩
  | parts l c as gs h => exact .inr ⟨rfl, fun g hg => (not_mem_source h hn hg).1⟩

/-- The labels afterwards are those of what did not give way, and those of what took the
    places. -/
theorem mem_labels (h : Grafted t t' gs) (hn : t.labels.Nodup) :
    y ∈ t'.labels ↔ (y ∈ t.labels ∧ ∀ g ∈ gs, y ∉ g.1.labels) ∨ ∃ g ∈ gs, y ∈ g.2.labels := by
  induction h with
  | whole t t' => simp
  | kept t => simp
  | parts l c as gs h ih =>
    have hpart (e : Tree ι × Tree ι) (he : e ∈ c.structural) := ih e he ((nodup_parts hn).1 e he).1
    rw [mem_labels_rooted_map, mem_labels_rooted_map]
    constructor
    · rintro (rfl | ⟨e, he, hy⟩ | ⟨d, hd, hy⟩)
      · exact .inl ⟨.inl rfl, fun g hg => (not_mem_source h hn hg).1⟩
      · rcases (hpart e he).1 hy with ⟨hy, hno⟩ | ⟨g, hg, hy⟩
        · exact .inl ⟨.inr (.inl ⟨e, he, hy⟩),
            fun g hg hyg => hno g (mem_of_part h hn he hy hg hyg) hyg⟩
        · exact .inr ⟨g, List.mem_flatMap.2 ⟨e, he, hg⟩, hy⟩
      · exact .inl ⟨.inr (.inr ⟨d, hd, hy⟩), fun g hg => (not_mem_source h hn hg).2 d hd y hy⟩
    · rintro (⟨rfl | ⟨e, he, hy⟩ | ⟨d, hd, hy⟩, hno⟩ | ⟨g, hg, hy⟩)
      · exact .inl rfl
      · exact .inr (.inl ⟨e, he, (hpart e he).2
          (.inl ⟨hy, fun g hg => hno g (List.mem_flatMap.2 ⟨e, he, hg⟩)⟩)⟩)
      · exact .inr (.inr ⟨d, hd, hy⟩)
      · obtain ⟨e, he, hg⟩ := List.mem_flatMap.1 hg
        exact .inr (.inl ⟨e, he, (hpart e he).2 (.inr ⟨g, hg, hy⟩)⟩)

end Grafted

/-! ## Grafts as a change of labels -/

/-- `f` takes the label of what gave way to that of what took its place, and leaves the
    other labels of a tree as they are. -/
structure Relabels (f : ι → ι) (t : Tree ι) (gs : List (Tree ι × Tree ι)) : Prop where
  graft : ∀ g ∈ gs, f g.1.label = g.2.label
  other : ∀ x ∈ t.labels, (∀ g ∈ gs, g.1.label ≠ x) → f x = x

/-- Trees beside each other that give way are told apart by their labels. -/
theorem exists_relabels [DecidableEq ι] (h : (gs.flatMap fun g => g.1.labels).Nodup) :
    ∃ f : ι → ι, (∀ g ∈ gs, f g.1.label = g.2.label) ∧ ∀ x, (∀ g ∈ gs, g.1.label ≠ x) → f x = x := by
  induction gs with
  | nil => exact ⟨fun x => x, List.forall_mem_nil _, fun _ _ => rfl⟩
  | cons g gs ih =>
    rw [List.flatMap_cons, List.nodup_append] at h
    obtain ⟨f, hf, hother⟩ := ih h.2.1
    refine ⟨Function.update f g.1.label g.2.label, ?_, fun x hx => ?_⟩
    · rintro g' (_ | ⟨_, hg⟩)
      · exact Function.update_self ..
      · have hne : g'.1.label ≠ g.1.label := fun e => h.2.2 _ g.1.label_mem_labels _
          (List.mem_flatMap.2 ⟨g', hg, g'.1.label_mem_labels⟩) e.symm
        rw [Function.update_of_ne hne, hf g' hg]
    · rw [Function.update_of_ne (hx g (List.mem_cons_self ..)).symm]
      exact hother x fun g' hg => hx g' (List.mem_cons_of_mem _ hg)

namespace Relabels

variable {f : ι → ι}

theorem label (hf : Relabels f t gs) (h : Grafted t t' gs) (hn : t.labels.Nodup) :
    f t.label = t'.label := by
  rcases h.root hn with rfl | ⟨hlabel, hno⟩
  · exact hf.graft _ (List.mem_singleton_self _)
  · rw [hlabel]
    exact hf.other _ t.label_mem_labels fun g hg e => hno g hg (e ▸ g.1.label_mem_labels)

variable {c : Content (Tree ι × Tree ι)} {as : List (Symbol × Tree ι)}
  {gs : Tree ι × Tree ι → List (Tree ι × Tree ι)}
  (hf : Relabels f (rooted l (c.map Prod.fst) as) (c.structural.flatMap gs))
  (h : ∀ e ∈ c.structural, Grafted e.1 e.2 (gs e))
  (hn : (rooted l (c.map Prod.fst) as).labels.Nodup)
include hf h hn

theorem part {e : Tree ι × Tree ι} (he : e ∈ c.structural) : Relabels f e.1 (gs e) where
  graft g hg := hf.graft g (List.mem_flatMap.2 ⟨e, he, hg⟩)
  other x hx hno := by
    refine hf.other x ((mem_labels_rooted_map ..).2 (.inr (.inl ⟨e, he, hx⟩))) fun g hg e' => ?_
    refine hno g (Grafted.mem_of_part h hn he hx hg ?_) e'
    exact e' ▸ g.1.label_mem_labels

theorem value {d : Symbol × Tree ι} (hd : d ∈ as) (hx : x ∈ d.2.labels) : f x = x := by
  refine hf.other x ((mem_labels_rooted_map ..).2 (.inr (.inr ⟨d, hd, hx⟩))) fun g hg e => ?_
  exact (Grafted.not_mem_source h hn hg).2 d hd x hx (e ▸ g.1.label_mem_labels)

end Relabels

end Tree

end OpenMath
