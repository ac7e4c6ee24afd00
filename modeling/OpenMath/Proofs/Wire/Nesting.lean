/-
  How deep validation goes.

  The shape that an attribute key writes is no part of the shape that the key is found in: it is
  read from the text of the key, and may have attribute keys of its own.  But every text in
  a value is shorter than the text that the value is read from, so that the keys get
  shorter as one is opened inside another.

  * `Json.Contains`: the texts in a value, keys among them;
  * `Contains.length_lt_of_parse?`: they are shorter than the text of the value;
  * `HasKey`: the attribute keys of a shape and of its parts;
  * `Opens`: the keys inside of what a key writes;
  * `length_le_of_isChain`, `exists_isChain`: how many keys may be opened one inside another;
  * `unrolled`: validation with a bound on its depth;
  * `unrolled_eq_validate`: the bound that is never met;
  * `validate_terminates`: validation comes to its end, and how deep it goes.
-/
import OpenMath.Proofs.Json.Nesting
import OpenMath.Proofs.Wire.Shallow

namespace OpenMath

/-! ## Texts in values -/

namespace Json
variable {u v : Json} {s t : String}

theorem Holds.weight_le (h : v.Holds u) : u.weight ≤ v.weight := by
  induction h with
  | refl => exact le_rfl
  | item _ hx ih => exact (weight_lt_of_mem_items hx).le.trans ih
  | field _ hf ih =>
    have := weight_lt_of_mem_fields hf
    omega

/-- A text in a value: a string in it, or the key of a field in it. -/
inductive Contains (v : Json) : String → Prop
  | str {t : String} (h : v.Holds (.str t)) : Contains v t
  | key {fs : Fields} {f : String × Json} (h : v.Holds (.obj fs)) (hf : f ∈ fs) : Contains v f.1

theorem Holds.contains (h : v.Holds u) (ht : u.Contains t) : v.Contains t := by
  cases ht with
  | str hs => exact .str (h.trans hs)
  | key ho hf => exact .key (h.trans ho) hf

theorem Contains.length_lt_weight (h : v.Contains t) : t.length < v.weight := by
  cases h with
  | str hs =>
    have := hs.weight_le
    rw [weight] at this
    omega
  | key ho hf =>
    have := ho.weight_le
    have := weight_lt_of_mem_fields hf
    omega

/-- A text in a value is shorter than the text that the value is read from. -/
theorem Contains.length_lt_of_parse? (h : v.Contains t) (hs : parse? s = some v) :
    t.length < s.length :=
  h.length_lt_weight.trans_le (weight_le_of_parse? hs)

end Json

namespace Wire

variable {fs : Json.Fields} {d : String × Json} {v : Json} {k k' : String}

/-! ## Parts -/

theorem exists_field_of_itemsOf {field : String} (h : v ∈ itemsOf fs field) :
    ∃ f ∈ fs, f.2.Holds v := by
  unfold itemsOf at h
  split at h
  · next xs hx => exact ⟨_, Json.mem_of_get? hx, .item .refl h⟩
  · cases h

theorem exists_field_of_partsOf {type : NodeType} (h : v ∈ partsOf fs type) :
    ∃ f ∈ fs, f.2.Holds v := by
  have hfield : ∀ {field}, v ∈ (fs.get? field).toList → ∃ f ∈ fs, f.2.Holds v := fun hm =>
    ⟨_, Json.mem_of_get? (Option.mem_toList.1 hm), .refl⟩
  cases type with
  | application => exact exists_field_of_itemsOf h
  | binding =>
    simp only [partsOf, List.mem_append] at h
    rcases h with (h | h) | h
    exacts [hfield h, exists_field_of_itemsOf h, hfield h]
  | error =>
    simp only [partsOf, List.mem_append] at h
    rcases h with h | h
    exacts [exists_field_of_itemsOf h, hfield h]
  | _ => cases h

theorem HasPart.exists_field (h : HasPart fs v) : ∃ f ∈ fs, f.2.Holds v := by
  rcases h with ⟨d, hd, rfl⟩ | ⟨type, -, hv⟩
  · obtain ⟨es, hes, hm⟩ := mem_entriesOf hd
    exact ⟨_, Json.mem_of_get? hes, .field .refl hm⟩
  · exact exists_field_of_partsOf hv

theorem HasPart.weight_lt (h : HasPart fs v) : v.weight < (Json.obj fs).weight := by
  obtain ⟨f, hf, hv⟩ := h.exists_field
  have := hv.weight_le
  have := Json.weight_lt_of_mem_fields hf
  omega

/-! ## Keys -/

/-- A key of the attributes of a shape, or of a shape inside it.  The keys of the shapes that
    keys write are not among them. -/
inductive HasKey : Json → String → Prop
  | entry {fs : Json.Fields} {d : String × Json} (mem : d ∈ entriesOf fs) : HasKey (.obj fs) d.1
  | part {fs : Json.Fields} {v : Json} {k : String} (part : HasPart fs v) (inside : HasKey v k) :
    HasKey (.obj fs) k

theorem HasKey.contains (h : HasKey v k) : v.Contains k := by
  induction h with
  | entry mem =>
    obtain ⟨es, hes, hm⟩ := mem_entriesOf mem
    exact .key (Json.holds_of_get? hes) hm
  | part part _ ih => exact (Json.holds_obj.2 (.inr part.exists_field)).contains ih

/-- The keys of what a key writes: validation comes from the one to the other. -/
def Opens (k k' : String) : Prop := ∃ v, Json.parse? k = some v ∧ HasKey v k'

theorem Opens.length_lt (h : Opens k k') : k'.length < k.length := by
  obtain ⟨v, hv, hk⟩ := h
  exact hk.contains.length_lt_of_parse? hv

theorem wellFounded_opens : WellFounded fun k' k => Opens k k' :=
  Subrelation.wf (fun h => h.length_lt) (measure String.length).wf

/-- As many keys as are opened one inside another, so many characters the first one has. -/
theorem length_le_of_isChain {ks : List String} (h : (k :: ks).IsChain Opens) :
    ks.length ≤ k.length := by
  induction ks generalizing k with
  | nil => exact Nat.zero_le _
  | cons k' ks ih =>
    obtain ⟨hk, htail⟩ := List.isChain_cons_cons.1 h
    have := ih htail
    have := hk.length_lt
    rw [List.length_cons]
    omega

theorem opens_compact (hv : Json.Parser.Readable Json.Parser.maxDepth v) (hk : HasKey v k) :
    Opens v.compact k :=
  ⟨v, Json.parse?_compact hv, hk⟩

/-- A symbol's shape that has a given key. -/
def shapeWithKey (k : String) : Json :=
  .obj [("a", .obj [(k, .null)]), ("t", .str NodeType.symbol.tag)]

theorem opens_shapeWithKey (k : String) : Opens (shapeWithKey k).compact k := by
  have hlt : "a" < "t" := by decide
  have hkey : HasKey (shapeWithKey k) k :=
    .entry (d := (k, .null)) (List.mem_singleton_self _)
  refine opens_compact (.obj (List.pairwise_pair.2 hlt) fun f hf => ?_) hkey
  simp only [List.mem_cons, List.not_mem_nil, or_false] at hf
  obtain rfl | rfl := hf
  · refine .obj (List.pairwise_singleton ..) fun g hg => ?_
    obtain rfl := List.mem_singleton.1 hg
    exact .null
  · exact .str

/-- There is no end to how many keys may be opened one inside another. -/
theorem exists_isChain (n : Nat) : ∃ k ks, (k :: ks).IsChain Opens ∧ ks.length = n := by
  induction n with
  | zero => exact ⟨"", [], .singleton _, rfl⟩
  | succ n ih =>
    obtain ⟨k, ks, hks, hn⟩ := ih
    exact ⟨(shapeWithKey k).compact, k :: ks, .cons_cons (opens_shapeWithKey k) hks, by simp [hn]⟩

/-! ## Bounded depth -/

/-- The rules of a shape, given checks for the shapes that its attribute keys write and for its
    parts. -/
def rules (key part : Json → Check) : Json → Check
  | .obj fs => checkNode fs (within fs key) (within fs part)
  | v => Check.violated (.notAnObject v.kind)

theorem validate_eq_rules (v : Json) : validate v = rules validate validate v := by
  cases v with
  | obj fs => rw [validate, rules]
  | _ => simp only [validate, rules]

/-- Validation whose calls nest at most `calls` deep, of which at most `keys` are those that open
    a key.  Where it would go deeper, `stop` answers. -/
def unrolled (stop : Json → Check) : (keys calls : Nat) → Json → Check
  | _, 0 => stop
  | 0, calls + 1 => rules stop (unrolled stop 0 calls)
  | keys + 1, calls + 1 => rules (unrolled stop keys calls) (unrolled stop (keys + 1) calls)

theorem weight_pos (v : Json) : 0 < v.weight := by
  cases v <;> simp [Json.weight]

theorem rules_congr {key key' part part' : Json → Check}
    (hk : ∀ fs, v = .obj fs → ∀ d ∈ entriesOf fs, ∀ w, Json.parse? d.1 = some w → key w = key' w)
    (hp : ∀ fs, v = .obj fs → ∀ w, HasPart fs w → part w = part' w) :
    rules key part v = rules key' part' v := by
  cases v with
  | obj fs => exact checkNode_congr (hk fs rfl) (hp fs rfl)
  | _ => rfl

/-- Validation never gets as deep as the shape is heavy, nor opens as many keys one inside another
    as its longest key has characters. -/
theorem unrolled_eq_validate {stop : Json → Check} {keys calls : Nat}
    (hk : ∀ k, HasKey v k → k.length ≤ keys) (hc : v.weight ≤ calls) :
    unrolled stop keys calls v = validate v := by
  induction calls generalizing keys v with
  | zero => exact absurd (weight_pos v) (by omega)
  | succ calls ih =>
    -- in a part the keys are some of those in the shape
    have hparts : ∀ fs, v = .obj fs → ∀ w, HasPart fs w →
        unrolled stop keys calls w = validate w := by
      rintro fs rfl w hw
      have := hw.weight_lt
      exact ih (fun k hm => hk k (.part hw hm)) (by omega)
    -- in what a key writes they are shorter than the key
    have hkeys : ∀ fs, v = .obj fs → ∀ d ∈ entriesOf fs, ∀ w, Json.parse? d.1 = some w →
        0 < keys ∧ unrolled stop (keys - 1) calls w = validate w := by
      rintro fs rfl d hd w hw
      have hlength := hk d.1 (.entry hd)
      have hpos := weight_pos w
      have hle := Json.weight_le_of_parse? hw
      obtain ⟨es, hes, hm⟩ := mem_entriesOf hd
      have hlt := weight_lt_of_key hes hm hw
      refine ⟨by omega, ih (fun k hm => ?_) (by omega)⟩
      have := Opens.length_lt ⟨w, hw, hm⟩
      omega
    rw [validate_eq_rules]
    cases keys with
    | zero =>
      exact rules_congr (fun fs e d hd w hw => absurd (hkeys fs e d hd w hw).1 (lt_irrefl 0)) hparts
    | succ keys => exact rules_congr (fun fs e d hd w hw => (hkeys fs e d hd w hw).2) hparts

/-- Validation of any value comes to its end: nothing depends on what would be answered deeper down
    than some depth.  The texts in what a key writes are shorter than the key, so that the keys that are
    opened one inside another are no more than the first one has characters. -/
theorem validate_terminates (v : Json) :
    (∃ depth, ∀ stop, unrolled stop depth depth v = validate v) ∧
      (∀ keys, (∀ k, HasKey v k → k.length ≤ keys) →
        ∀ stop, unrolled stop keys v.weight v = validate v) ∧
      (∀ s, Json.parse? s = some v → (∀ t, v.Contains t → t.length < s.length) ∧
        ∀ stop, unrolled stop (s.length - 1) v.weight v = validate v) ∧
      WellFounded (fun k' k => Opens k k') ∧
      ∀ k ks, (k :: ks).IsChain Opens → ks.length ≤ k.length := by
  refine ⟨⟨v.weight, fun stop => unrolled_eq_validate (fun k hk => ?_) le_rfl⟩,
    fun keys hk stop => unrolled_eq_validate hk le_rfl, fun s hs => ?_, wellFounded_opens,
    fun k ks => length_le_of_isChain⟩
  · exact hk.contains.length_lt_weight.le
  · have hlt : ∀ t, v.Contains t → t.length < s.length := fun t ht => ht.length_lt_of_parse? hs
    refine ⟨hlt, fun stop => unrolled_eq_validate (fun k hk => ?_) le_rfl⟩
    exact Nat.le_sub_one_of_lt (hlt k hk.contains)

end Wire

end OpenMath
