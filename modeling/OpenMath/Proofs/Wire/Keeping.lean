/-
  What is kept of a shape.

  Nodes are made of all parts of a shape, but of the values of its attributes only the last
  one is kept of those whose keys agree.

  * `partsOf`: the shapes that are parts of a shape, attributes apart;
  * `classOf`: the entries of an attribute map whose keys agree with a given one;
  * `Kept`: the shapes inside a shape of which nodes are made;
  * `forall₂_partsOf`, `agreeing_eq_of_class`: what is made of parts, and of entries.
-/
import OpenMath.Proofs.Wire.Merging

namespace OpenMath.Wire

variable {α : Type} {fs es : Json.Fields} {type : NodeType} {s : Symbol} {d e : String × Json}

/-! ## Parts -/

/-- The shapes in a list. -/
def itemsOf (fs : Json.Fields) (field : String) : List Json :=
  match fs.get? field with
  | some (.arr xs) => xs
  | _ => []

/-- The shapes that are parts of a shape of some kind, in the order of its slots. -/
def partsOf (fs : Json.Fields) : NodeType → List Json
  | .application => itemsOf fs "c"
  | .binding => (fs.get? "s").toList ++ itemsOf fs "v" ++ (fs.get? "b").toList
  | .error => itemsOf fs "c" ++ (fs.get? "s").toList
  | _ => []

section
variable {f : Json → Except Error α}

theorem forall₂_itemsOf {field : String} {ys : List α}
    (h : buildList fs field (fun v _ => f v) = .ok ys) :
    List.Forall₂ (fun x y => f x = .ok y) (itemsOf fs field) ys := by
  unfold buildList at h
  split at h
  · next xs hx =>
    rw [itemsOf, hx]
    exact mapEach_eq_ok.1 h
  · cases h
  · cases h

theorem forall₂_field {field : String} {y : α}
    (h : buildField fs field (fun v _ => f v) = .ok y) :
    List.Forall₂ (fun x y => f x = .ok y) (fs.get? field).toList [y] := by
  unfold buildField at h
  split at h
  · next v hv =>
    rw [hv]
    exact .cons h .nil
  · cases h

theorem structural_buildLeaf {c : Content α} (hc : buildLeaf fs type = .ok c) :
    c.structural = [] := by
  cases type with
  | application | binding | error => cases hc
  | _ =>
    obtain ⟨p, -, hc⟩ := Except.bind_eq_ok.1 hc
    cases hc
    rfl

/-- The parts of a content are read off the parts of the shape. -/
theorem forall₂_partsOf {c : Content α} (hc : buildContent fs type (fun v _ => f v) = .ok c) :
    List.Forall₂ (fun x y => f x = .ok y) (partsOf fs type) c.structural := by
  cases type with
  | application =>
    obtain ⟨ys, hy, hc⟩ := Except.bind_eq_ok.1 hc
    cases hc
    simpa [partsOf, Content.structural, Content.children, Content.head?, Content.bound,
      Content.body?] using forall₂_itemsOf hy
  | binding =>
    obtain ⟨y, hy, hc⟩ := Except.bind_eq_ok.1 hc
    obtain ⟨ys, hys, hc⟩ := Except.bind_eq_ok.1 hc
    obtain ⟨z, hz, hc⟩ := Except.bind_eq_ok.1 hc
    cases hc
    exact List.rel_append (List.rel_append (forall₂_field hy) (forall₂_itemsOf hys))
      (forall₂_field hz)
  | error =>
    obtain ⟨y, hy, hc⟩ := Except.bind_eq_ok.1 hc
    obtain ⟨ys, hys, hc⟩ := Except.bind_eq_ok.1 hc
    cases hc
    have hitems : List.Forall₂ (fun x y => f x = .ok y) (itemsOf fs "c") ys := by
      unfold buildErrorChildren at hys
      split at hys
      · next hnone =>
        cases hys
        rw [itemsOf, Option.isNone_iff_eq_none.1 hnone]
        exact .nil
      · exact forall₂_itemsOf hys
    simpa [partsOf, Content.structural, Content.children, Content.head?, Content.bound,
      Content.body?] using List.rel_append hitems (forall₂_field hy)
  | _ =>
    rw [structural_buildLeaf ((liftExcept_except _).symm.trans hc)]
    exact .nil

end

/-! ## Attributes -/

/-- The entries of the attribute map of a shape whose keys agree with a given one. -/
def classOf (s : Symbol) (fs : Json.Fields) : Json.Fields :=
  (entriesOf fs).filter fun e => match readKey e.1 with
    | .ok k => k.sameKey s
    | .error _ => false

section
variable {f : Json → Except Error α} {ps : List (Symbol × α)}

theorem forall₂_classOf (h : List.Forall₂ (EntryRead f) (entriesOf fs) ps) (s : Symbol) :
    List.Forall₂ (EntryRead f) (classOf s fs) (agreeing s ps) := by
  refine List.rel_filter (fun e p hep => ?_) h
  dsimp only
  rw [hep.1]

theorem head?_of_forall₂ {β γ : Type} {R : β → γ → Prop} {xs : List β} {ys : List γ} {x : β}
    (h : List.Forall₂ R xs ys) (hx : xs.head? = some x) : ∃ y, ys.head? = some y ∧ R x y := by
  cases h with
  | nil => cases hx
  | cons hxy _ =>
    cases hx
    exact ⟨_, rfl, hxy⟩

theorem getLast?_of_forall₂ {β γ : Type} {R : β → γ → Prop} {xs : List β} {ys : List γ} {x : β}
    (h : List.Forall₂ R xs ys) (hx : xs.getLast? = some x) : ∃ y, ys.getLast? = some y ∧ R x y := by
  rw [List.getLast?_eq_head?_reverse] at hx
  rw [List.getLast?_eq_head?_reverse]
  exact head?_of_forall₂ (List.rel_reverse h) hx

/-- Of a class of entries the first gives the key, the last one the value. -/
theorem agreeing_eq_of_class (h : List.Forall₂ (EntryRead f) (entriesOf fs) ps)
    (hd : (classOf s fs).head? = some d) (he : (classOf s fs).getLast? = some e) :
    ∃ k x, agreeing s (merge ps) = [(k, x)] ∧ readKey d.1 = .ok k ∧ f e.2 = .ok x := by
  obtain ⟨p, hp, hdp⟩ := head?_of_forall₂ (forall₂_classOf h s) hd
  obtain ⟨q, hq, heq⟩ := getLast?_of_forall₂ (forall₂_classOf h s) he
  exact ⟨p.1, q.2, agreeing_merge_eq hp hq, hdp.1, heq.2⟩

theorem agreeing_eq_nil_of_class (h : List.Forall₂ (EntryRead f) (entriesOf fs) ps)
    (hs : classOf s fs = []) : agreeing s (merge ps) = [] := by
  have hps := forall₂_classOf h s
  rw [hs, List.forall₂_nil_left_iff] at hps
  rw [agreeing_merge, hps]
  rfl

end

/-! ## Shapes that are kept -/

/-- Of these shapes inside a shape nodes are made and kept: the shape itself, the parts of
    such a shape, and of its attributes with agreeing keys the last one. -/
inductive Kept (v : Json) : Json → Prop
  | refl : Kept v v
  | part {fs : Json.Fields} {type : NodeType} {u : Json} (h : Kept v (.obj fs))
    (ht : (Json.obj fs).nodeType? = some type) (hu : u ∈ partsOf fs type) : Kept v u
  | value {fs : Json.Fields} {s : Symbol} {e : String × Json} (h : Kept v (.obj fs))
    (he : (classOf s fs).getLast? = some e) : Kept v e.2

end OpenMath.Wire
