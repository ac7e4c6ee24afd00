/-
  What is read off a valid shape.

  * `buildLeaf_ok`: the content of a node without parts;
  * `ofShape_ok`, `readKey_ok`: symbols, and the keys of attributes;
  * `putEntry_cases`: one more attribute comes last, or takes the place of
    another.
-/
import Mathlib.Data.List.Forall2
import OpenMath.Proofs.Wire.Validity
import OpenMath.Wire.Decoding

namespace OpenMath.Wire

variable {fs : Json.Fields} {α β : Type}

/-! ## Symbols -/

theorem textField_ok {v : Json} {field s : String} (h : v.field? field = some (.str s)) :
    Symbol.textField v field = .ok s := by
  simp [Symbol.textField, h, Json.text?]

theorem ofNames_ok {name cd : String} (hn : Identifier.isIdentifier name = true)
    (hc : Identifier.isIdentifier cd = true) :
    Symbol.ofNames name cd = .ok { name, cd, nameOk := hn, cdOk := hc } := by
  rw [Symbol.ofNames, dif_pos hn, dif_pos hc]

theorem ofShape_eq {v : Json} {name cd : String} (ht : v.nodeType? = some .symbol)
    (hn : v.field? "n" = some (.str name)) (hc : v.field? "cd" = some (.str cd))
    (hn' : Identifier.isIdentifier name = true) (hc' : Identifier.isIdentifier cd = true) :
    Symbol.ofShape v =
      .ok { name, cd, uri := (v.field? "uri").bind Json.text?, nameOk := hn', cdOk := hc' } := by
  rw [Symbol.ofShape, if_pos ht, textField_ok hn, textField_ok hc]
  show (Symbol.ofNames name cd >>= _) = _
  rw [ofNames_ok hn' hc']
  cases h : (v.field? "uri").bind Json.text? <;> rfl

/-- The shape of a symbol is read. -/
theorem ofShape_ok (ht : (Json.obj fs).nodeType? = some .symbol)
    (h : FieldsOk Valid fs .symbol) : ∃ s, Symbol.ofShape (.obj fs) = .ok s := by
  obtain ⟨⟨n, hn, hn'⟩, ⟨c, hc, hc'⟩, -⟩ := h
  exact ⟨_, ofShape_eq ht hn hc hn' hc'⟩

/-- The key of an attribute is read. -/
theorem readKey_ok {key : String} {shape : Json} (h : Json.parse? key = some shape)
    (ht : shape.nodeType? = some .symbol) (hv : Valid shape) : ∃ s, readKey key = .ok s := by
  obtain ⟨fs, rfl, -, type, htype, -, hf⟩ := valid_iff.1 hv
  cases ht.symm.trans htype
  rw [readKey, h]
  exact ofShape_ok ht hf

/-! ## Leaves -/

theorem payload_ok {field part : String} {read? : Json → Option α} {v : Json} {p : α}
    (hv : fs.get? field = some v) (hp : read? v = some p) :
    payload fs field part read? = .ok p := by
  rw [payload, hv]
  show demand part (read? v) = _
  rw [hp]
  rfl

theorem integer?_ok {v : Option Json} (h : isInteger v = true) :
    ∃ w n, v = some w ∧ integer? w = some n := by
  unfold isInteger at h
  split at h
  · next n =>
    obtain ⟨i, hi⟩ := Option.isSome_iff_exists.1 h
    exact ⟨_, i, rfl, hi⟩
  · next s => exact ⟨_, .text s, rfl, rfl⟩
  · cases h

/-- A kind of node that has no parts. -/
def IsLeaf (type : NodeType) : Prop := type ≠ .application ∧ type ≠ .binding ∧ type ≠ .error

/-- The content of a shape without parts is read. -/
theorem buildLeaf_ok {type : NodeType} (ht : (Json.obj fs).nodeType? = some type)
    (h : FieldsOk Valid fs type) (hl : IsLeaf type) :
    ∃ c : Content Empty, c.kind.type = type ∧
      ∀ α : Type, buildLeaf fs type = .ok (c.map (Empty.elim : Empty → α)) := by
  cases type with
  | integer =>
    obtain ⟨v, n, hv, hn⟩ := integer?_ok h
    exact ⟨.integer n, rfl, fun α => by rw [buildLeaf, payload_ok hv hn]; rfl⟩
  | float =>
    obtain ⟨v, x, hv, hx, -⟩ := h
    exact ⟨.float x, rfl, fun α => by rw [buildLeaf, payload_ok hv hx]; rfl⟩
  | string =>
    obtain ⟨s, hv⟩ := h
    exact ⟨.string s, rfl, fun α => by rw [buildLeaf, payload_ok (p := s) hv rfl]; rfl⟩
  | byteArray =>
    obtain ⟨v, bs, hv, hb⟩ := h
    exact ⟨.byteArray bs, rfl, fun α => by rw [buildLeaf, payload_ok hv hb]; rfl⟩
  | symbol =>
    obtain ⟨s, hs⟩ := ofShape_ok ht h
    exact ⟨.symbol s, rfl, fun α => by rw [buildLeaf, hs]; rfl⟩
  | var =>
    obtain ⟨name, hv, -⟩ := h
    exact ⟨.var name, rfl, fun α => by rw [buildLeaf, payload_ok (p := name) hv rfl]; rfl⟩
  | application => exact absurd rfl hl.1
  | binding => exact absurd rfl hl.2.1
  | error => exact absurd rfl hl.2.2

/-! ## Parts -/

theorem ne_nil_of_forall₂ {R : α → β → Prop} {xs : List α} {ys : List β}
    (h : List.Forall₂ R xs ys) (hy : ys ≠ []) : xs ≠ [] := by
  rintro rfl
  cases h
  exact hy rfl

theorem exists_of_forall₂ {R : α → β → Prop} {xs : List α} {ys : List β}
    (h : List.Forall₂ R xs ys) {x : α} (hx : x ∈ xs) : ∃ y ∈ ys, R x y := by
  induction h with
  | nil => cases hx
  | cons hxy _ ih =>
    rcases List.mem_cons.1 hx with rfl | hx
    · exact ⟨_, List.mem_cons_self .., hxy⟩
    · obtain ⟨y, hy, h⟩ := ih hx
      exact ⟨y, List.mem_cons_of_mem _ hy, h⟩

theorem mapEach_eq_ok {f : α → Except Error β} {xs : List α} {ys : List β} :
    mapEach xs (fun x _ => f x) = .ok ys ↔ List.Forall₂ (fun x y => f x = .ok y) xs ys := by
  induction xs generalizing ys with
  | nil => simp [mapEach, pure, Except.pure, eq_comm]
  | cons x xs ih =>
    simp only [mapEach, Except.bind_eq_ok, ih, List.forall₂_cons_left_iff]
    constructor
    · rintro ⟨y, hy, zs, hzs, h⟩
      exact ⟨y, zs, hy, hzs, (Except.ok.inj h).symm⟩
    · rintro ⟨y, zs, hy, hzs, rfl⟩
      exact ⟨y, hy, zs, hzs, rfl⟩

theorem liftExcept_except (r : Except Error α) : (liftExcept r : Except Error α) = r := by
  cases r <;> rfl

section
variable {m : Type → Type} [Monad m] [MonadExceptOf Error m] (f : Json → m α)

theorem buildList_eq {field : String} {xs : List Json} (h : fs.get? field = some (.arr xs)) :
    buildList fs field (fun v _ => f v) = mapEach xs fun x _ => f x := by
  unfold buildList
  split
  · next ys hy =>
    cases hy.symm.trans h
    rfl
  all_goals simp_all

theorem buildField_eq {field : String} {v : Json} (h : fs.get? field = some v) :
    buildField fs field (fun v _ => f v) = f v := by
  unfold buildField
  split <;> simp_all

end

/-! ## Attributes -/

theorem valueOf?_map (f : α → β) (key : Symbol) (as : List (Symbol × α)) :
    valueOf? key (as.map fun e => (e.1, f e.2)) = (valueOf? key as).map f := by
  simp [valueOf?, List.find?_map, Function.comp_def]

theorem putEntry_map (f : α → β) (key : Symbol) (x : α) (as : List (Symbol × α)) :
    putEntry key (f x) (as.map fun e => (e.1, f e.2)) =
      (putEntry key x as).map fun e => (e.1, f e.2) := by
  induction as with
  | nil => rfl
  | cons e as ih =>
    simp only [List.map_cons, putEntry, ih]
    split <;> rfl

/-- A value is put at the end, or it takes the place of one whose key agrees. -/
theorem putEntry_cases (key : Symbol) (x : α) (as : List (Symbol × α)) :
    (valueOf? key as = none ∧ putEntry key x as = as ++ [(key, x)] ∧
      ∀ e ∈ as, e.1.sameKey key = false) ∨
    ∃ l k y r, as = l ++ (k, y) :: r ∧ valueOf? key as = some y ∧
      putEntry key x as = l ++ (k, x) :: r := by
  induction as with
  | nil => simp [valueOf?, putEntry]
  | cons e as ih =>
    obtain ⟨k, y⟩ := e
    by_cases h : k.sameKey key = true
    · exact .inr ⟨[], k, y, as, rfl, by simp [valueOf?, h], by simp [putEntry, h]⟩
    · rcases ih with ⟨hv, hp, hall⟩ | ⟨l, k', y', r, rfl, hv, hp⟩
      · refine .inl ⟨by simpa [valueOf?, h] using hv, by simp [putEntry, h, hp], ?_⟩
        simp only [List.mem_cons, forall_eq_or_imp]
        exact ⟨by simpa using h, hall⟩
      · exact .inr ⟨(k, y) :: l, k', y', r, rfl, by simpa [valueOf?, h] using hv,
          by simp [putEntry, h, hp]⟩

theorem putEntry_new {key : Symbol} {as : List (Symbol × α)}
    (h : ∀ e ∈ as, e.1.sameKey key = false) (x : α) :
    valueOf? key as = none ∧ putEntry key x as = as ++ [(key, x)] := by
  induction as with
  | nil => exact ⟨rfl, rfl⟩
  | cons e as ih =>
    have he := h e (List.mem_cons_self ..)
    obtain ⟨hv, hp⟩ := ih fun d hd => h d (List.mem_cons_of_mem e hd)
    exact ⟨by simpa [valueOf?, he] using hv, by simp [putEntry, he, hp]⟩

theorem keyed_putEntry {as : List (Symbol × α)} (h : Keyed as) (key : Symbol) (x : α) :
    Keyed (putEntry key x as) := by
  rcases putEntry_cases key x as with ⟨-, hp, hall⟩ | ⟨l, k, y, r, rfl, -, hp⟩
  · rw [hp]
    refine List.pairwise_append.2 ⟨h, List.pairwise_singleton .., fun d hd e he => ?_⟩
    cases List.mem_singleton.1 he
    exact hall d hd
  · rw [hp]
    simpa [Keyed, List.pairwise_append] using h

end OpenMath.Wire
