/-
  Fields of objects.

  * `get?_insert`: looking up a key after another field was added;
  * `Ascending`: fields in the order of their keys, each key once, which is how
    `Fields.ofList` leaves them;
  * `ofList_of_ascending`: fields in order stay as they are;
  * `Ascending.ext_get?`: fields in order are determined by what is found in them;
  * `ofList_eq_of_perm`, `filter_ofList`: putting fields in order, and keeping some of them.
-/
import OpenMath.Json.Basic
import Mathlib.Data.String.Basic

namespace OpenMath.Json

variable {f : String × Json} {fs : Fields} {key : String} {v : Json}

namespace Fields

@[simp] theorem get?_nil (k : String) : get? [] k = none := rfl

theorem get?_cons (f : String × Json) (fs : Fields) (k : String) :
    get? (f :: fs) k = if k = f.1 then some f.2 else fs.get? k := by
  obtain ⟨key, v⟩ := f
  by_cases h : k = key
  · simp [get?, h]
  · rw [get?, List.lookup_cons, beq_false_of_ne h, if_neg h, get?]

@[simp] theorem get?_insert (key : String) (v : Json) (fs : Fields) (k : String) :
    (insert key v fs).get? k = if k = key then some v else fs.get? k := by
  induction fs with
  | nil => rw [insert, get?_cons]
  | cons f fs ih =>
    obtain ⟨k', w⟩ := f
    rw [insert]
    by_cases h1 : key < k'
    · rw [if_pos h1, get?_cons]
    · rw [if_neg h1]
      by_cases h2 : key = k'
      · rw [if_pos h2, get?_cons, get?_cons, h2]
        split_ifs <;> rfl
      · rw [if_neg h2, get?_cons, get?_cons, ih]
        by_cases h : k = key <;> simp [h, h2]

theorem mem_insert (h : f ∈ insert key v fs) : f = (key, v) ∨ f ∈ fs := by
  induction fs with
  | nil => simpa [insert] using h
  | cons g fs ih =>
    unfold insert at h
    split_ifs at h
    · simpa using h
    · exact (List.mem_cons.1 h).imp id (List.mem_cons_of_mem _)
    · rcases List.mem_cons.1 h with rfl | h
      · exact .inr (List.mem_cons_self ..)
      · exact (ih h).imp id (List.mem_cons_of_mem _)

/-- Fields in the order of their keys, each key once. -/
def Ascending (fs : Fields) : Prop := fs.Pairwise fun f g => f.1 < g.1

theorem ascending_insert (h : Ascending fs) (key : String) (v : Json) :
    Ascending (insert key v fs) := by
  induction fs with
  | nil => exact List.pairwise_singleton ..
  | cons f fs ih =>
    obtain ⟨k, w⟩ := f
    obtain ⟨hf, hfs⟩ := List.pairwise_cons.1 h
    unfold insert
    split_ifs with h1 h2
    · refine List.pairwise_cons.2 ⟨fun g hg => ?_, h⟩
      rcases List.mem_cons.1 hg with rfl | hg
      · exact h1
      · exact h1.trans (hf g hg)
    · subst h2
      exact List.pairwise_cons.2 ⟨hf, hfs⟩
    · refine List.pairwise_cons.2 ⟨fun g hg => ?_, ih hfs⟩
      rcases mem_insert hg with rfl | hg
      · exact lt_of_le_of_ne (not_lt.1 h1) (Ne.symm h2)
      · exact hf g hg

theorem ascending_ofList (fs : List (String × Json)) : Ascending (ofList fs) :=
  List.foldlRecOn fs _ .nil fun _ h f _ => ascending_insert h f.1 f.2

theorem Ascending.get?_of_mem (h : Ascending fs) (hf : f ∈ fs) : fs.get? f.1 = some f.2 := by
  induction fs with
  | nil => cases hf
  | cons g fs ih =>
    obtain ⟨hg, h⟩ := List.pairwise_cons.1 h
    rw [get?_cons]
    rcases List.mem_cons.1 hf with rfl | hf
    · rw [if_pos rfl]
    · rw [if_neg (hg f hf).ne', ih h hf]

theorem mem_ofList {fs : List (String × Json)} (h : f ∈ ofList fs) : f ∈ fs := by
  suffices ∀ acc, f ∈ fs.foldl (fun acc f => insert f.1 f.2 acc) acc → f ∈ acc ∨ f ∈ fs by
    simpa using this [] h
  clear h
  induction fs with
  | nil => exact fun acc h => .inl h
  | cons g fs ih =>
    intro acc h
    rcases ih _ h with h | h
    · rcases mem_insert h with rfl | h
      · exact .inr (List.mem_cons_self ..)
      · exact .inl h
    · exact .inr (List.mem_cons_of_mem _ h)

theorem perm_insert (h : ∀ f ∈ fs, f.1 ≠ key) (v : Json) :
    (insert key v fs).Perm ((key, v) :: fs) := by
  induction fs with
  | nil => exact .rfl
  | cons f fs ih =>
    obtain ⟨k, w⟩ := f
    have hk : key ≠ k := (h (k, w) (List.mem_cons_self ..)).symm
    rw [insert]
    split_ifs
    · exact .rfl
    · exact ((ih fun g hg => h g (List.mem_cons_of_mem _ hg)).cons _).trans (.swap ..)

/-- Fields whose keys differ are only put in order. -/
theorem perm_ofList {fs : List (String × Json)} (h : (fs.map Prod.fst).Nodup) :
    (ofList fs).Perm fs := by
  suffices ∀ acc, ((acc ++ fs).map Prod.fst).Nodup →
      (fs.foldl (fun acc f => insert f.1 f.2 acc) acc).Perm (acc ++ fs) from this [] h
  clear h
  induction fs with
  | nil => simp
  | cons f fs ih =>
    intro acc h
    have hf : ∀ g ∈ acc, g.1 ≠ f.1 := fun g hg e => by
      rw [List.map_append, List.nodup_append] at h
      exact h.2.2 _ (List.mem_map_of_mem hg) _ (List.mem_map_of_mem (List.mem_cons_self ..)) e
    have hp : (insert f.1 f.2 acc ++ fs).Perm (acc ++ f :: fs) :=
      ((perm_insert hf f.2).append_right fs).trans List.perm_middle.symm
    exact (ih _ ((hp.map _).nodup_iff.2 h)).trans hp

theorem get?_ofList_of_mem {fs : List (String × Json)} (h : (fs.map Prod.fst).Nodup) (hf : f ∈ fs) :
    (ofList fs).get? f.1 = some f.2 :=
  (ascending_ofList fs).get?_of_mem ((perm_ofList h).mem_iff.2 hf)

theorem insert_last (h : ∀ f ∈ fs, f.1 < key) (v : Json) :
    insert key v fs = fs ++ [(key, v)] := by
  induction fs with
  | nil => rfl
  | cons f fs ih =>
    obtain ⟨k, w⟩ := f
    have hk : k < key := h (k, w) (List.mem_cons_self ..)
    rw [insert, if_neg hk.not_gt, if_neg hk.ne', ih fun g hg => h g (List.mem_cons_of_mem _ hg),
      List.cons_append]

/-- Fields that are in order are not changed by putting them in order. -/
theorem ofList_of_ascending (h : Ascending fs) : ofList fs = fs := by
  suffices ∀ acc, Ascending (acc ++ fs) →
      fs.foldl (fun acc f => insert f.1 f.2 acc) acc = acc ++ fs from this [] h
  clear h
  induction fs with
  | nil => simp
  | cons f fs ih =>
    intro acc h
    have hf : ∀ g ∈ acc, g.1 < f.1 := fun g hg =>
      (List.pairwise_append.1 h).2.2 g hg f (List.mem_cons_self ..)
    rw [List.foldl_cons, insert_last hf, ih _ (by simpa using h), List.append_assoc,
      List.singleton_append]

/-! ## Lookups -/

theorem get?_eq_none_iff : fs.get? key = none ↔ ∀ f ∈ fs, f.1 ≠ key := by
  rw [get?, List.lookup_eq_none_iff]
  exact forall₂_congr fun f _ => by rw [bne_iff_ne, ne_comm]

theorem get?_map (g : String → Json → Json) (fs : Fields) (k : String) :
    get? (fs.map fun f => (f.1, g f.1 f.2)) k = (fs.get? k).map (g k) := by
  induction fs with
  | nil => rfl
  | cons f fs ih =>
    rw [List.map_cons, get?_cons, get?_cons, ih]
    split_ifs with h
    · rw [h, Option.map_some]
    · rfl

theorem get?_ofList_reverse (fs : Fields) (k : String) :
    (ofList fs.reverse).get? k = fs.get? k := by
  rw [ofList, List.foldl_reverse]
  induction fs with
  | nil => rfl
  | cons f fs ih => rw [List.foldr_cons, get?_insert, get?_cons, ih]

/-- A lookup among some of the fields. -/
theorem Ascending.get?_filter (h : Ascending fs) (keep : String × Json → Bool) (k : String) :
    get? (fs.filter keep) k = (fs.get? k).filter fun v => keep (k, v) := by
  induction fs with
  | nil => rfl
  | cons f fs ih =>
    obtain ⟨hf, h⟩ := List.pairwise_cons.1 h
    rw [get?_cons, List.filter_cons]
    by_cases hk : k = f.1
    · subst hk
      rw [if_pos rfl]
      split_ifs with hkeep
      · rw [get?_cons, if_pos rfl, Option.filter_some, if_pos hkeep]
      · rw [Option.filter_some, if_neg hkeep]
        refine get?_eq_none_iff.2 fun g hg => ?_
        exact (hf g (List.mem_filter.1 hg).1).ne'
    · rw [if_neg hk, ← ih h]
      split_ifs
      · rw [get?_cons, if_neg hk]
      · rfl

/-- Fields in order are determined by what is found in them. -/
theorem Ascending.ext_get? {gs : Fields} (hf : Ascending fs) (hg : Ascending gs)
    (h : ∀ k, fs.get? k = gs.get? k) : fs = gs := by
  have hnodup {hs : Fields} (hs' : Ascending hs) : hs.Nodup :=
    hs'.imp fun hlt e => hlt.ne (congrArg Prod.fst e)
  have hmem {hs : Fields} (hs' : Ascending hs) (f : String × Json) :
      f ∈ hs ↔ hs.get? f.1 = some f.2 := ⟨hs'.get?_of_mem, mem_of_get?⟩
  refine List.Perm.eq_of_pairwise (fun d e _ _ hd he => absurd (hd.trans he) (lt_irrefl _)) hf hg ?_
  refine (List.perm_ext_iff_of_nodup (hnodup hf) (hnodup hg)).2 fun f => ?_
  rw [hmem hf, hmem hg, h]

/-! ## Lists of fields -/

theorem insert_insert (key : String) (v w : Json) (fs : Fields) :
    insert key v (insert key w fs) = insert key v fs := by
  induction fs with
  | nil => simp [insert]
  | cons f fs ih =>
    obtain ⟨k, u⟩ := f
    by_cases hlt : key < k
    · simp [insert, hlt]
    · by_cases heq : key = k
      · simp [insert, heq]
      · simp [insert, hlt, heq, ih]

theorem ofList_concat (fs : List (String × Json)) (f : String × Json) :
    ofList (fs ++ [f]) = insert f.1 f.2 (ofList fs) := by
  rw [ofList, List.foldl_append]
  rfl

/-- Fields whose keys differ are put in one order, however they stood. -/
theorem ofList_eq_of_perm {fs gs : List (String × Json)} (hn : (fs.map Prod.fst).Nodup)
    (h : fs.Perm gs) : ofList fs = ofList gs := by
  have hgs : (gs.map Prod.fst).Nodup := (h.map Prod.fst).nodup_iff.1 hn
  refine List.Perm.eq_of_pairwise (fun d e _ _ hd he => absurd (hd.trans he) (lt_irrefl _))
    (ascending_ofList fs) (ascending_ofList gs) ?_
  exact (perm_ofList hn).trans (h.trans (perm_ofList hgs).symm)

theorem ofList_eq_nil_iff {fs : List (String × Json)} : ofList fs = [] ↔ fs = [] := by
  refine ⟨fun h => List.eq_nil_iff_forall_not_mem.2 fun f hf => ?_, fun h => by rw [h]; rfl⟩
  have hnone : get? fs.reverse f.1 = none := by
    rw [← get?_ofList_reverse, List.reverse_reverse, h, get?_nil]
  exact get?_eq_none_iff.1 hnone f (List.mem_reverse.2 hf) rfl

/-- Among fields whose keys differ, those that are kept stand in the same order. -/
theorem filter_ofList {fs : List (String × Json)} (hn : (fs.map Prod.fst).Nodup)
    (keep : String × Json → Bool) : (ofList fs).filter keep = ofList (fs.filter keep) := by
  have hasc : Ascending ((ofList fs).filter keep) := (ascending_ofList fs).filter keep
  have hkept : ((fs.filter keep).map Prod.fst).Nodup := (List.filter_sublist.map _).nodup hn
  rw [← ofList_of_ascending hasc]
  exact (ofList_eq_of_perm hkept ((perm_ofList hn).filter keep).symm).symm

end Fields

end OpenMath.Json
