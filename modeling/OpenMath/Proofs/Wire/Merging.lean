/-
  Attributes whose keys agree.

  The entries of an attribute map are put in one after the other, in the order of the texts
  of their keys.  Of those whose keys agree, the first one gives the key and the place, and
  the last one the value.

  * `merge`: what becomes of a list of attributes when one after the other is put in;
  * `merge_of_keyed`: no attribute takes the place of another if no two keys agree;
  * `agreeing_merge_eq`: of the attributes whose keys agree, one is left;
  * `entriesOf`, `EntryRead`: the entries of the attribute map of a shape, and how they are
    read;
  * `build_eq_ok`: what is read off a shape is made of a content and of such attributes.
-/
import Mathlib.Data.List.Induction
import OpenMath.Proofs.Wire.Building

namespace OpenMath.Wire

variable {α : Type} {as ps : List (Symbol × α)} {s key : Symbol}

/-! ## Merging -/

/-- Attributes that are put in from left to right, behind or in the place of others. -/
def merge (ps : List (Symbol × α)) : List (Symbol × α) :=
  ps.foldl (fun as p => putEntry p.1 p.2 as) []

theorem merge_concat (ps : List (Symbol × α)) (p : Symbol × α) :
    merge (ps ++ [p]) = putEntry p.1 p.2 (merge ps) := by
  rw [merge, List.foldl_append]
  rfl

theorem forall_putEntry {P : α → Prop} {x : α} (hx : P x) (h : ∀ e ∈ as, P e.2) :
    ∀ e ∈ putEntry key x as, P e.2 := by
  rcases putEntry_cases key x as with ⟨-, hp, -⟩ | ⟨l, k, y, r, rfl, -, hp⟩ <;> rw [hp]
  · exact List.forall_mem_append.2 ⟨h, List.forall_mem_singleton.2 hx⟩
  · obtain ⟨hl, hr⟩ := List.forall_mem_append.1 h
    exact List.forall_mem_append.2 ⟨hl, List.forall_mem_cons.2 ⟨hx, (List.forall_mem_cons.1 hr).2⟩⟩

theorem forall_merge {P : α → Prop} (h : ∀ p ∈ ps, P p.2) : ∀ e ∈ merge ps, P e.2 := by
  induction ps using List.reverseRecOn with
  | nil => exact nofun
  | append_singleton ps p ih =>
    obtain ⟨hps, hp⟩ := List.forall_mem_append.1 h
    rw [merge_concat]
    exact forall_putEntry (hp p (List.mem_singleton_self p)) (ih hps)

/-- If no two keys agree, then no attribute takes the place of another. -/
theorem merge_of_keyed (h : Keyed ps) : merge ps = ps := by
  induction ps using List.reverseRecOn with
  | nil => rfl
  | append_singleton ps p ih =>
    obtain ⟨hps, -, hp⟩ := List.pairwise_append.1 h
    rw [merge_concat, ih hps]
    exact (putEntry_new (fun e he => hp e he p (List.mem_singleton_self p)) p.2).2

/-! ## One of those that agree -/

/-- The attributes whose keys agree with a given one. -/
def agreeing (s : Symbol) (as : List (Symbol × α)) : List (Symbol × α) :=
  as.filter fun e => e.1.sameKey s

theorem mem_of_agreeing_eq {e : Symbol × α} (h : agreeing s as = [e]) : e ∈ as :=
  List.mem_of_mem_filter (h ▸ List.mem_singleton_self e : e ∈ agreeing s as)

/-- An attribute that is put in only concerns those whose keys agree with its own. -/
theorem agreeing_putEntry (s key : Symbol) (x : α) (as : List (Symbol × α)) :
    agreeing s (putEntry key x as) =
      if key.sameKey s then putEntry key x (agreeing s as) else agreeing s as := by
  induction as with
  | nil => simp [agreeing, putEntry, List.filter_cons]
  | cons e as ih =>
    obtain ⟨k, y⟩ := e
    unfold agreeing at ih ⊢
    rw [putEntry]
    by_cases hk : k.sameKey key = true
    · have hs := Symbol.sameKey_congr hk s
      rw [if_pos hk, List.filter_cons, List.filter_cons, hs]
      split_ifs
      · rw [putEntry, if_pos hk]
      · rfl
    · rw [if_neg hk, List.filter_cons, List.filter_cons, ih]
      split_ifs
      · rw [putEntry, if_neg hk]
      · rfl
      · rfl
      · rfl

theorem agreeing_merge (s : Symbol) (ps : List (Symbol × α)) :
    agreeing s (merge ps) = merge (agreeing s ps) := by
  induction ps using List.reverseRecOn with
  | nil => rfl
  | append_singleton ps p ih =>
    rw [merge_concat, agreeing_putEntry, ih, agreeing, agreeing, List.filter_append,
      List.filter_cons, List.filter_nil]
    split_ifs
    · rw [merge_concat]
    · rw [List.append_nil]

/-- Of attributes that agree the first gives the key, the last one the value. -/
theorem merge_of_agreeing (h : ∀ p ∈ ps, p.1.sameKey s = true) {d e : Symbol × α}
    (hd : ps.head? = some d) (he : ps.getLast? = some e) : merge ps = [(d.1, e.2)] := by
  induction ps using List.reverseRecOn generalizing e with
  | nil => cases hd
  | append_singleton ps p ih =>
    rw [List.getLast?_concat, Option.some.injEq] at he
    subst he
    rw [merge_concat]
    cases hps : ps.getLast? with
    | none =>
      rw [List.getLast?_eq_none_iff] at hps
      subst hps
      cases hd
      rfl
    | some q =>
      have hhead : ps.head? = some d := by
        cases ps with
        | nil => cases hps
        | cons _ _ => exact hd
      have hds := h d (List.mem_append_left _ (List.mem_of_head? hhead))
      have hps' := h p (List.mem_append_right _ (List.mem_singleton_self p))
      rw [ih (fun r hr => h r (List.mem_append_left _ hr)) hhead hps, putEntry,
        if_pos (Symbol.sameKey_trans hds (p.1.sameKey_comm s ▸ hps'))]

/-- Of the attributes whose keys agree with a given one, one is left: it has the key of the
    first and the value of the last. -/
theorem agreeing_merge_eq {d e : Symbol × α} (hd : (agreeing s ps).head? = some d)
    (he : (agreeing s ps).getLast? = some e) : agreeing s (merge ps) = [(d.1, e.2)] := by
  rw [agreeing_merge]
  exact merge_of_agreeing (fun p hp => (List.mem_filter.1 hp).2) hd he

/-! ## Attribute maps -/

/-- The entries of the attribute map of a shape. -/
def entriesOf (fs : Json.Fields) : Json.Fields :=
  match fs.get? "a" with
  | some (.obj es) => es
  | _ => []

theorem entriesOf_eq {fs es : Json.Fields} (h : fs.get? "a" = some (.obj es)) :
    entriesOf fs = es := by
  rw [entriesOf, h]

theorem entriesOf_eq_of_ite {fs es : Json.Fields}
    (h : fs.get? "a" = if es.isEmpty then none else some (.obj es)) : entriesOf fs = es := by
  cases es with
  | nil =>
    rw [entriesOf, h]
    rfl
  | cons e es => exact entriesOf_eq h

theorem mem_entriesOf {fs : Json.Fields} {e : String × Json} (h : e ∈ entriesOf fs) :
    ∃ es, fs.get? "a" = some (.obj es) ∧ e ∈ es := by
  unfold entriesOf at h
  split at h
  · next es he => exact ⟨es, he, h⟩
  · cases h

theorem weight_lt_of_entry {fs : Json.Fields} {e : String × Json} (h : e ∈ entriesOf fs) :
    e.2.weight < (Json.obj fs).weight := by
  obtain ⟨es, hes, he⟩ := mem_entriesOf h
  exact weight_lt_of_attribute hes he

theorem AttributesOk.entry {Part : Json → Prop} {fs : Json.Fields} (h : AttributesOk Part fs)
    {e : String × Json} (he : e ∈ entriesOf fs) : ∃ shape, Json.parse? e.1 = some shape ∧
      shape.nodeType? = some .symbol ∧ Part shape ∧ Part e.2 := by
  obtain ⟨es, hes, hm⟩ := mem_entriesOf he
  rcases h with h | ⟨es', h, hall⟩
  · cases h.symm.trans hes
  · cases h.symm.trans hes
    exact hall e hm

/-- An entry of an attribute map is read as an attribute. -/
def EntryRead (f : Json → Except Error α) (e : String × Json) (p : Symbol × α) : Prop :=
  readKey e.1 = .ok p.1 ∧ f e.2 = .ok p.2

variable {fs es : Json.Fields} {f : Json → Except Error Term}

theorem addEntry_termMaker (as : List (Symbol × Term)) (key : Symbol) (t : Term) :
    addEntry termMaker as key t = .ok (putEntry key t as) := by
  unfold addEntry
  split <;> rfl

theorem addEntries_eq_ok {as bs : List (Symbol × Term)} :
    addEntries termMaker as es (fun e _ => f e.2) = .ok bs ↔
      ∃ ps, List.Forall₂ (EntryRead f) es ps ∧
        bs = ps.foldl (fun as p => putEntry p.1 p.2 as) as := by
  induction es generalizing as with
  | nil => simp [addEntries, pure, Except.pure, eq_comm]
  | cons e es ih =>
    simp only [addEntries, liftExcept_except, Except.bind_eq_ok, addEntry_termMaker, ih,
      List.forall₂_cons_left_iff]
    constructor
    · rintro ⟨key, hkey, t, ht, _, ⟨⟩, ps, hps, rfl⟩
      exact ⟨(key, t) :: ps, ⟨(key, t), ps, ⟨hkey, ht⟩, hps, rfl⟩, rfl⟩
    · rintro ⟨_, ⟨⟨key, t⟩, ps, ⟨hkey, ht⟩, hps, rfl⟩, rfl⟩
      exact ⟨key, hkey, t, ht, _, rfl, ps, hps, rfl⟩

theorem buildAttributes_eq_ok {as : List (Symbol × Term)} :
    buildAttributes termMaker fs (fun v _ => f v) = .ok as ↔
      ∃ ps, List.Forall₂ (EntryRead f) (entriesOf fs) ps ∧ as = merge ps := by
  unfold buildAttributes
  split
  · next es h =>
    rw [entriesOf_eq h]
    exact addEntries_eq_ok
  · next h =>
    have hnil : entriesOf fs = [] := by
      unfold entriesOf
      split
      · next es he => exact absurd he (h es)
      · rfl
    rw [hnil]
    simp [merge, pure, Except.pure, eq_comm]

theorem exists_obj_of_build {v : Json} {t : Term} (h : build v = .ok t) : ∃ fs, v = .obj fs := by
  cases v with
  | obj fs => exact ⟨fs, rfl⟩
  | _ => simp [build, buildWith, malformed, liftExcept_except] at h

/-- What is read off a shape is made of a content and of attributes that were put in one
    after the other. -/
theorem build_eq_ok {t : Term} : build (.obj fs) = .ok t ↔
    ∃ type c ps, (Json.obj fs).nodeType? = some type ∧
      buildContent fs type (fun v _ => build v) = .ok c ∧
      List.Forall₂ (EntryRead build) (entriesOf fs) ps ∧ t = .rooted () c (merge ps) := by
  have htype : ∀ type, demand "type tag" (Json.obj fs).nodeType? = .ok type ↔
      (Json.obj fs).nodeType? = some type := by
    intro type
    cases (Json.obj fs).nodeType? <;> simp [demand, malformed]
  rw [build, buildWith, buildNode, ← build]
  simp only [liftExcept_except, Except.bind_eq_ok, htype, buildAttributes_eq_ok]
  constructor
  · rintro ⟨type, ht, c, hc, _, ⟨ps, hps, rfl⟩, h⟩
    exact ⟨type, c, ps, ht, hc, hps, (Except.ok.inj h).symm⟩
  · rintro ⟨type, c, ps, ht, hc, hps, rfl⟩
    exact ⟨type, ht, c, hc, _, ⟨ps, hps, rfl⟩, rfl⟩

end OpenMath.Wire
