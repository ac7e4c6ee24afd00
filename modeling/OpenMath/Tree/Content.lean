/-
  What a node is, together with the parts that its kind provides for.

  The content of a node fixes which parts the node can have: an application has
  children, a binding a head, bound variables and a body, an error a head and
  children, and nothing else has any.  The head and the body may be missing.

  * `Content.children`, `Content.head?`, `Content.bound`, `Content.body?`: the
    parts, in the order in which `Content.structural` lists them;
  * `Content.slots`: the same as places with roles;
  * `slots_map`: changing the parts is changing what is in the places;
  * `Keyed`: attributes no two keys of which agree.
-/
import OpenMath.Tree.Basic

namespace OpenMath

/-- The kind of a node with its payload and its parts, attributes excepted. -/
inductive Content (α : Type) where
  | integer (value : Integer)
  | float (value : Double)
  | string (text : String)
  | byteArray (bytes : List UInt8)
  | symbol (s : Symbol)
  | var (name : String)
  /-- the operator first, the operands behind it -/
  | application (children : List α)
  | binding (head : Option α) (bound : List α) (body : Option α)
  | error (head : Option α) (children : List α)
deriving DecidableEq

namespace Content

variable {α β : Type}

/-- The kind of the node, without its parts. -/
def kind : Content α → Kind
  | integer v => .integer v
  | float x => .float x
  | string s => .string s
  | byteArray bs => .byteArray bs
  | symbol s => .symbol s
  | var name => .var name
  | application _ => .application
  | binding _ _ _ => .binding
  | error _ _ => .error

/-! ## Parts -/

/-- The arguments, in order. -/
def children : Content α → List α
  | application cs | error _ cs => cs
  | _ => []

/-- The head, unless its slot is empty. -/
def head? : Content α → Option α
  | binding h _ _ | error h _ => h
  | _ => none

/-- The bound variables, in order. -/
def bound : Content α → List α
  | binding _ vs _ => vs
  | _ => []

/-- The body, unless its slot is empty. -/
def body? : Content α → Option α
  | binding _ _ b => b
  | _ => none

/-- All parts: children, head, bound variables, body. -/
def structural (c : Content α) : List α :=
  c.children ++ c.head?.toList ++ c.bound ++ c.body?.toList

theorem mem_structural {c : Content α} {x : α} :
    x ∈ c.structural ↔
      x ∈ c.children ∨ c.head? = some x ∨ x ∈ c.bound ∨ c.body? = some x := by
  simp [structural]

section
variable {c : Content α} {x : α}

theorem mem_structural_of_child (h : x ∈ c.children) : x ∈ c.structural :=
  mem_structural.2 (.inl h)

theorem mem_structural_of_head (h : c.head? = some x) : x ∈ c.structural :=
  mem_structural.2 (.inr (.inl h))

theorem mem_structural_of_bound (h : x ∈ c.bound) : x ∈ c.structural :=
  mem_structural.2 (.inr (.inr (.inl h)))

theorem mem_structural_of_body (h : c.body? = some x) : x ∈ c.structural :=
  mem_structural.2 (.inr (.inr (.inr h)))

theorem bound_of_child (h : x ∈ c.children) : c.bound = [] := by
  cases c with
  | binding => cases h
  | _ => rfl

end

theorem forall_structural_application {P : α → Prop} {cs : List α} :
    (∀ x ∈ (application cs).structural, P x) ↔ ∀ x ∈ cs, P x := by
  simp [structural, children, head?, bound, body?]

theorem forall_structural_binding {P : α → Prop} {head body : α} {vs : List α} :
    (∀ x ∈ (binding (some head) vs (some body)).structural, P x) ↔
      P head ∧ (∀ x ∈ vs, P x) ∧ P body := by
  simp [structural, children, head?, bound, body?, or_imp, forall_and]

theorem forall_structural_error {P : α → Prop} {head : α} {cs : List α} :
    (∀ x ∈ (error (some head) cs).structural, P x) ↔ P head ∧ ∀ x ∈ cs, P x := by
  simp [structural, children, head?, bound, body?, or_imp, forall_and, and_comm]

/-- The same content with other parts. -/
def map (f : α → β) : Content α → Content β
  | integer v => integer v
  | float x => float x
  | string s => string s
  | byteArray bs => byteArray bs
  | symbol s => symbol s
  | var name => var name
  | application cs => application (cs.map f)
  | binding h vs b => binding (h.map f) (vs.map f) (b.map f)
  | error h cs => error (h.map f) (cs.map f)

@[simp] theorem kind_map (f : α → β) (c : Content α) : (c.map f).kind = c.kind := by
  cases c <;> rfl

@[simp] theorem children_map (f : α → β) (c : Content α) :
    (c.map f).children = c.children.map f := by
  cases c <;> rfl

@[simp] theorem head?_map (f : α → β) (c : Content α) : (c.map f).head? = c.head?.map f := by
  cases c <;> rfl

@[simp] theorem bound_map (f : α → β) (c : Content α) : (c.map f).bound = c.bound.map f := by
  cases c <;> rfl

@[simp] theorem body?_map (f : α → β) (c : Content α) : (c.map f).body? = c.body?.map f := by
  cases c <;> rfl

theorem map_map {γ : Type} (f : α → β) (g : β → γ) (c : Content α) :
    (c.map f).map g = c.map fun x => g (f x) := by
  cases c <;> simp [map, Function.comp_def]

theorem map_self (c : Content α) : c.map (fun x => x) = c := by
  cases c <;> simp [map]

theorem map_congr {f g : α → β} {c : Content α} (h : ∀ x ∈ c.structural, f x = g x) :
    c.map f = c.map g := by
  simp only [mem_structural] at h
  cases c with
  | application cs => exact congrArg application (List.map_congr_left fun x hx => h x (.inl hx))
  | binding hd vs b =>
    have hh : hd.map f = hd.map g := Option.map_congr fun x hx => h x (.inr (.inl hx))
    have hv : vs.map f = vs.map g := List.map_congr_left fun x hx => h x (.inr (.inr (.inl hx)))
    have hb : b.map f = b.map g := Option.map_congr fun x hx => h x (.inr (.inr (.inr hx)))
    rw [map, map, hh, hv, hb]
  | error hd cs =>
    have hh : hd.map f = hd.map g := Option.map_congr fun x hx => h x (.inr (.inl hx))
    have hc : cs.map f = cs.map g := List.map_congr_left fun x hx => h x (.inl hx)
    rw [map, map, hh, hc]
  | _ => rfl

/-! ## Places -/

/-- Places of one role. -/
def placed (role : Role) (xs : List α) : Slots α := xs.map (Slot.mk role)

/-- The places of attributes. -/
def attributeSlots (as : List (Symbol × α)) : Slots α := as.map fun a => ⟨.attr a.1, a.2⟩

/-- The parts with the roles that they play. -/
def slots (c : Content α) : Slots α :=
  placed .child c.children ++ placed .head c.head?.toList ++ placed .bound c.bound ++
    placed .body c.body?.toList

theorem contents_slots (c : Content α) : c.slots.contents = c.structural := by
  simp [slots, structural, placed, Slots.contents, Function.comp_def]

theorem slots_map (f : α → β) (c : Content α) : (c.map f).slots = c.slots.mapContent f := by
  cases c <;>
    simp [map, slots, placed, children, head?, bound, body?, Slots.mapContent, Slot.map,
      Option.toList_map, Function.comp_def]

theorem structural_map (f : α → β) (c : Content α) :
    (c.map f).structural = c.structural.map f := by
  rw [← contents_slots, ← contents_slots, slots_map]
  simp [Slots.contents, Slots.mapContent, Slot.map, Function.comp_def]

theorem forall_slots {P : Role → α → Prop} {c : Content α} :
    (∀ s ∈ c.slots, P s.role s.content) ↔ (∀ x ∈ c.children, P .child x) ∧
      (∀ x, c.head? = some x → P .head x) ∧ (∀ x ∈ c.bound, P .bound x) ∧
      ∀ x, c.body? = some x → P .body x := by
  simp only [slots, placed, List.mem_append, or_imp, forall_and, List.forall_mem_map,
    Option.mem_toList, and_assoc]

theorem role_ne_attr {c : Content α} {s : Slot α} (h : s ∈ c.slots) (key : Symbol) :
    s.role ≠ .attr key :=
  (forall_slots (P := fun r _ => ∀ key, r ≠ .attr key)).2
    ⟨fun _ _ => nofun, fun _ _ => nofun, fun _ _ => nofun, fun _ _ => nofun⟩ s h key

end Content

/-! ## Trees by their contents -/

namespace Slots
variable {α : Type}

theorem withRole_append (ss ts : Slots α) (r : Role) :
    Slots.withRole (ss ++ ts) r = ss.withRole r ++ ts.withRole r :=
  List.filterMap_append ..

theorem withRole_placed (r r' : Role) (xs : List α) :
    (Content.placed r xs).withRole r' = if r = r' then xs else [] := by
  rw [withRole, Content.placed, List.filterMap_map]
  show xs.filterMap (fun x => if r = r' then some x else none) = _
  split <;> simp

theorem withRole_attributeSlots {r : Role} (h : ∀ key, r ≠ .attr key) (as : List (Symbol × α)) :
    (Content.attributeSlots as).withRole r = [] := by
  simpa [withRole, Content.attributeSlots, List.filterMap_map] using
    fun key _ _ e => h key e.symm

theorem attributes_append (ss ts : Slots α) :
    Slots.attributes (ss ++ ts) = ss.attributes ++ ts.attributes :=
  List.filterMap_append ..

theorem attributes_placed {r : Role} (h : ∀ key, r ≠ .attr key) (xs : List α) :
    (Content.placed r xs).attributes = [] := by
  cases r <;> simp_all [attributes, Content.placed]

theorem attributes_attributeSlots (as : List (Symbol × α)) :
    (Content.attributeSlots as).attributes = as := by
  rw [attributes, Content.attributeSlots, List.filterMap_map]
  exact List.filterMap_some

end Slots

namespace Content
variable {α β : Type}

/-- The places of a node: those of its content, and then those of its
    attributes. -/
def allSlots (c : Content α) (as : List (Symbol × α)) : Slots α := c.slots ++ attributeSlots as

section
variable (c : Content α) (as : List (Symbol × α))

@[simp] theorem children_allSlots : (c.allSlots as).children = c.children := by
  simp [allSlots, slots, Slots.children, Slots.withRole_append, Slots.withRole_placed,
    Slots.withRole_attributeSlots]

@[simp] theorem head?_allSlots : (c.allSlots as).head? = c.head? := by
  simp [allSlots, slots, Slots.head?, Slots.withRole_append, Slots.withRole_placed,
    Slots.withRole_attributeSlots]

@[simp] theorem bound_allSlots : (c.allSlots as).bound = c.bound := by
  simp [allSlots, slots, Slots.bound, Slots.withRole_append, Slots.withRole_placed,
    Slots.withRole_attributeSlots]

@[simp] theorem body?_allSlots : (c.allSlots as).body? = c.body? := by
  simp [allSlots, slots, Slots.body?, Slots.withRole_append, Slots.withRole_placed,
    Slots.withRole_attributeSlots]

@[simp] theorem attributes_allSlots : (c.allSlots as).attributes = as := by
  simp [allSlots, slots, Slots.attributes_append, Slots.attributes_placed,
    Slots.attributes_attributeSlots]

theorem contents_allSlots : (c.allSlots as).contents = c.structural ++ as.map (·.2) := by
  rw [← contents_slots]
  simp [allSlots, Slots.contents, attributeSlots]

theorem mapContent_allSlots (f : α → β) :
    (c.allSlots as).mapContent f = (c.map f).allSlots (as.map fun e => (e.1, f e.2)) := by
  rw [allSlots, allSlots, slots_map]
  simp [Slots.mapContent, attributeSlots, Slot.map]

end

end Content

namespace Tree
variable {ι κ : Type}

/-- The tree of a node with a given content and given attributes. -/
def rooted (l : ι) (c : Content (Tree ι)) (as : List (Symbol × Tree ι)) : Tree ι :=
  .node l c.kind (c.allSlots as)

section
variable (l : ι) (c : Content (Tree ι)) (as : List (Symbol × Tree ι))

@[simp] theorem label_rooted : (rooted l c as).label = l := rfl

@[simp] theorem kind_rooted : (rooted l c as).kind = c.kind := rfl

theorem slots_rooted : (rooted l c as).slots = c.allSlots as := rfl

@[simp] theorem children_rooted : (rooted l c as).children = c.children := c.children_allSlots as

@[simp] theorem head?_rooted : (rooted l c as).head? = c.head? := c.head?_allSlots as

@[simp] theorem bound_rooted : (rooted l c as).bound = c.bound := c.bound_allSlots as

@[simp] theorem body?_rooted : (rooted l c as).body? = c.body? := c.body?_allSlots as

@[simp] theorem attributes_rooted : (rooted l c as).attributes = as := c.attributes_allSlots as

theorem mapLabels_rooted (f : ι → κ) :
    (rooted l c as).mapLabels f =
      rooted (f l) (c.map (mapLabels f)) (as.map fun e => (e.1, e.2.mapLabels f)) := by
  rw [rooted, mapLabels_node, Content.mapContent_allSlots, rooted, Content.kind_map]

theorem toTerm_rooted :
    (rooted l c as).toTerm = rooted () (c.map toTerm) (as.map fun e => (e.1, e.2.toTerm)) :=
  mapLabels_rooted ..

theorem labels_rooted :
    (rooted l c as).labels = l :: (c.structural ++ as.map (·.2)).flatMap labels := by
  rw [rooted, labels_node, ← Content.contents_allSlots, Slots.contents, List.flatMap_map]

theorem mem_labels_rooted {x : ι} :
    x ∈ (rooted l c as).labels ↔ x = l ∨ ∃ u ∈ c.structural ++ as.map (·.2), x ∈ u.labels := by
  rw [labels_rooted, List.mem_cons, List.mem_flatMap]

theorem forall_labels_rooted {P : ι → Prop} :
    (∀ x ∈ (rooted l c as).labels, P x) ↔ P l ∧
      (∀ u ∈ c.structural, ∀ x ∈ u.labels, P x) ∧ ∀ e ∈ as, ∀ x ∈ e.2.labels, P x := by
  have hparts : (∀ u ∈ c.structural ++ as.map (·.2), ∀ x ∈ u.labels, P x) ↔
      (∀ u ∈ c.structural, ∀ x ∈ u.labels, P x) ∧ ∀ e ∈ as, ∀ x ∈ e.2.labels, P x := by
    rw [List.forall_mem_append, List.forall_mem_map]
  simp only [← hparts, mem_labels_rooted, forall_eq_or_imp, forall_exists_index, and_imp]
  exact and_congr_right fun _ => ⟨fun h u hu x => h x u hu, fun h x u hu => h u hu x⟩

end

end Tree

/-! ## Keys -/

/-- No two keys of attributes agree. -/
def Keyed {α : Type} (as : List (Symbol × α)) : Prop :=
  as.Pairwise fun d e => d.1.sameKey e.1 = false

theorem Keyed.eq_of_sameKey {α : Type} {as : List (Symbol × α)} (h : Keyed as)
    {d e : Symbol × α} (hd : d ∈ as) (he : e ∈ as) (hk : d.1.sameKey e.1 = true) : d = e := by
  induction as with
  | nil => cases hd
  | cons f as ih =>
    obtain ⟨hf, h⟩ := List.pairwise_cons.1 h
    rcases List.mem_cons.1 hd with rfl | hd' <;> rcases List.mem_cons.1 he with rfl | he'
    · rfl
    · simp [hf e he'] at hk
    · simp [Symbol.sameKey_comm d.1, hf d hd'] at hk
    · exact ih h hd' he'

theorem Keyed.perm {α : Type} {as bs : List (Symbol × α)} (h : Keyed as) (hp : as.Perm bs) :
    Keyed bs :=
  List.Pairwise.perm h hp fun h => Symbol.sameKey_comm .. ▸ h

theorem keyed_map {α β : Type} {as : List (Symbol × α)} (f : α → β) :
    Keyed (as.map fun e => (e.1, f e.2)) ↔ Keyed as := by
  simp [Keyed, List.pairwise_map]

end OpenMath
