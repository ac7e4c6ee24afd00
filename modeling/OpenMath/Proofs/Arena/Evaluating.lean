/-
  What evaluates, and what is said about it.

  A node evaluates if it is a leaf with a payload, one of a few constants, or an application
  of a known operator whose first operands evaluate to values of its sort.  The message about
  it is made of the notes on the constants among these operands, from left to right, and of
  the note of the operator after those on its own operands.

  * `Arena.Evaluates`: a node has a value, and notes are made on the way to it;
  * `Operation.result?_eq_some_iff`: which values an operation takes;
  * `Evaluation.operandValues_of_values`, `Evaluation.operandValues_cases`: the values and the
    messages of the first operands;
  * `Wf.evaluate_node`: the evaluation of a node by those of its children;
  * `Reachable.evaluate_iff`: a node has a value just if it evaluates, the message is made of
    the notes, and what does not evaluate says so.
-/
import OpenMath.Proofs.Arena.Commands
import OpenMath.Proofs.Arena.Readers

namespace OpenMath

/-! ## Operations -/

/-- The values that can be taken as numbers. -/
def Value.IsNumeric : Value → Prop
  | number _ | bool _ => True
  | text _ | bytes _ => False

theorem Value.isSome_toFloat? {v : Value} : v.toFloat?.isSome = true ↔ v.IsNumeric := by
  cases v with
  | bool b => cases b <;> exact iff_of_true rfl trivial
  | number => exact iff_of_true rfl trivial
  | text | bytes => exact iff_of_false nofun nofun

namespace Operation

/-- The operations on numbers. -/
def IsNumeric : Operation → Prop
  | unary _ | binary _ => True
  | compare _ | negation => False

/-- The result of an operation on values of its sort. -/
def result (op : Operation) (vs : List Value) : Value := (op.result? vs).getD (.bool false)

/-- An operation on numbers takes those values only, any other takes all. -/
theorem result?_isSome_iff {op : Operation} {vs : List Value} (h : vs.length = op.arity) :
    (op.result? vs).isSome = true ↔ (op.IsNumeric → ∀ v ∈ vs, v.IsNumeric) := by
  cases op with
  | unary f =>
    obtain ⟨v, rfl⟩ := List.length_eq_one_iff.1 h
    simp [result?, IsNumeric, Value.isSome_toFloat?]
  | binary f =>
    obtain ⟨v, w, rfl⟩ := List.length_eq_two.1 h
    simp only [result?, IsNumeric, forall_const, List.forall_mem_cons, ← Value.isSome_toFloat?]
    cases v.toFloat? <;> cases w.toFloat? <;> simp
  | compare test =>
    obtain ⟨v, w, rfl⟩ := List.length_eq_two.1 h
    simp [result?, IsNumeric]
  | negation =>
    obtain ⟨v, rfl⟩ := List.length_eq_one_iff.1 h
    simp [result?, IsNumeric]

/-- An operation has its result just on values of its sort. -/
theorem result?_eq_some_iff {op : Operation} {vs : List Value} {v : Value}
    (h : vs.length = op.arity) :
    op.result? vs = some v ↔ (op.IsNumeric → ∀ v ∈ vs, v.IsNumeric) ∧ op.result vs = v := by
  rw [← result?_isSome_iff h, result]
  cases op.result? vs <;> simp

end Operation

/-! ## Evaluations -/

namespace Evaluation

/-- The notes of an operator itself, which go after those on its operands. -/
def operatorNotes (operator : String) : List String :=
  if operator = "relation1.approx" then [approximationNote] else []

/-- Notes as a message, one on a line. -/
def messageOf (notes : List String) : Option String :=
  if notes.isEmpty then none else some ("\n".intercalate notes)

variable {α : Type} {e : Evaluation} {ns ms : List String}

@[simp] theorem messageOf_nil : messageOf [] = none := rfl

@[simp] theorem messageOf_singleton (note : String) : messageOf [note] = some note := by
  simp [messageOf]

@[simp] theorem value_note (e : Evaluation) (note : String) : (e.note note).value = e.value := by
  unfold Evaluation.note
  split <;> rfl

theorem messageOf_of_ne_nil (h : ns ≠ []) : messageOf ns = some ("\n".intercalate ns) := by
  rw [messageOf, if_neg (by simpa using h)]

theorem note_messageOf (hns : e.message = messageOf ns) (hms : ms ≠ []) :
    (e.note ("\n".intercalate ms)).message = messageOf (ns ++ ms) := by
  rw [messageOf_of_ne_nil (List.append_ne_nil_of_right_ne_nil ns hms)]
  unfold note
  rcases eq_or_ne ns [] with rfl | hne
  · rw [hns, messageOf_nil, List.nil_append]
  · rw [hns, messageOf_of_ne_nil hne]
    exact congrArg some (String.intercalate_append_of_ne_nil hne hms).symm

theorem message_noteMessage (hns : e.message = messageOf ns) (ms : List String) :
    (e.noteMessage (messageOf ms)).message = messageOf (ns ++ ms) := by
  rcases eq_or_ne ms [] with rfl | hms
  · rw [messageOf_nil, List.append_nil]
    exact hns
  · rw [messageOf_of_ne_nil hms]
    exact note_messageOf hns hms

/-- If the first operands have values, then these are what is found, with all their notes. -/
theorem operandValues_of_values {evaluation : α → Evaluation} {value : α → Value}
    {notes : α → List String} {us : List α} (more : List Evaluation)
    (h : ∀ u ∈ us, evaluation u = ⟨some (value u), messageOf (notes u)⟩)
    (hns : e.message = messageOf ns) :
    ∃ e', operandValues us.length (us.map evaluation ++ more) e = .ok (us.map value, e') ∧
      e'.message = messageOf (ns ++ us.flatMap notes) := by
  induction us generalizing e ns with
  | nil => exact ⟨e, rfl, by rw [List.flatMap_nil, List.append_nil, hns]⟩
  | cons u us ih =>
    obtain ⟨hu, hus⟩ := List.forall_mem_cons.1 h
    obtain ⟨e', hrun, he'⟩ := ih hus (message_noteMessage hns (notes u))
    refine ⟨e', ?_, by rw [he', List.flatMap_cons, List.append_assoc]⟩
    rw [List.length_cons, List.map_cons, List.cons_append, operandValues, hu]
    rw [hrun]
    rfl

/-- Values are found only if the first operands have them; what is found instead has none. -/
theorem operandValues_cases (n : Nat) (es : List Evaluation) (e : Evaluation) :
    (∃ vs e', operandValues n es e = .ok (vs, e') ∧ n ≤ es.length ∧
      (es.take n).map (·.value) = vs.map some) ∨
    ∃ r, operandValues n es e = .error r ∧ r.value = none := by
  induction n generalizing es e with
  | zero => exact .inl ⟨[], e, rfl, Nat.zero_le _, rfl⟩
  | succ n ih =>
    cases es with
    | nil => exact .inr ⟨{}, rfl, rfl⟩
    | cons operand es =>
      cases hv : operand.value with
      | none => exact .inr ⟨operand, by simp only [operandValues, hv], hv⟩
      | some v =>
        simp only [operandValues, hv]
        rcases ih es (e.noteMessage operand.message) with ⟨vs, e', hrun, hle, htake⟩ | ⟨r, hrun, hr⟩
        · refine .inl ⟨v :: vs, e', by rw [hrun]; rfl, Nat.succ_le_succ hle, ?_⟩
          rw [List.take_succ_cons, List.map_cons, htake, hv, List.map_cons]
        · exact .inr ⟨r, by rw [hrun]; rfl, hr⟩

/-- An application of an operator whose first operands have values of its sort. -/
theorem ofApplication_of_values {operator : String} {op : Operation} {evaluation : α → Evaluation}
    {value : α → Value} {notes : α → List String} {us : List α} (more : List Evaluation)
    (hop : operation? operator = some op) (hlen : us.length = op.arity)
    (h : ∀ u ∈ us, evaluation u = ⟨some (value u), messageOf (notes u)⟩)
    (hn : op.IsNumeric → ∀ u ∈ us, (value u).IsNumeric) :
    ofApplication operator (us.map evaluation ++ more) =
      ⟨some (op.result (us.map value)),
        messageOf (us.flatMap notes ++ operatorNotes operator)⟩ := by
  have hnothing : ({} : Evaluation).message = messageOf [] := rfl
  obtain ⟨e', hrun, he'⟩ := operandValues_of_values more h hnothing
  rw [List.nil_append] at he'
  have hresult : op.result? (us.map value) = some (op.result (us.map value)) :=
    (Operation.result?_eq_some_iff (by rw [List.length_map, hlen])).2
      ⟨fun hop => List.forall_mem_map.2 (hn hop), rfl⟩
  have happly : apply op (us.map evaluation ++ more) =
      ⟨some (op.result (us.map value)), messageOf (us.flatMap notes)⟩ := by
    rw [apply, ← hlen, hrun]
    simp only [hresult, he']
  simp only [ofApplication, hop, happly, operatorNotes, Option.isSome_some, and_true]
  split
  · have hnote := note_messageOf
      (e := ⟨some (op.result (us.map value)), messageOf (us.flatMap notes)⟩) rfl
      (List.cons_ne_nil approximationNote [])
    rw [String.intercalate_singleton] at hnote
    exact congrArg₂ Evaluation.mk (value_note _ _) hnote
  · rw [List.append_nil]

/-- An application of an operator has a value only if the first operands have values of its
    sort. -/
theorem values_of_ofApplication {operator : String} {es : List Evaluation} {v : Value}
    (h : (ofApplication operator es).value = some v) :
    ∃ op vs, operation? operator = some op ∧ op.arity ≤ es.length ∧
      (es.take op.arity).map (·.value) = vs.map some ∧ op.result? vs = some v := by
  cases hop : operation? operator with
  | none => simp [ofApplication, hop] at h
  | some op =>
    have happly : (apply op es).value = some v := by
      simp only [ofApplication, hop] at h
      split at h
      · rwa [value_note] at h
      · exact h
    rw [apply] at happly
    rcases operandValues_cases op.arity es {} with ⟨vs, e', hrun, hle, htake⟩ | ⟨r, hrun, hr⟩
    · rw [hrun] at happly
      exact ⟨op, vs, rfl, hle, htake, happly⟩
    · rw [hrun] at happly
      cases hr.symm.trans happly

end Evaluation

/-! ## Nodes -/

namespace Arena

open Evaluation (messageOf operatorNotes)

/-- A node has a value, and notes are made on the way to it. -/
inductive Evaluates (a : Arena) : NodeId → Value → List String → Prop
  | integer {x i} : a.content? x = some (.integer i) → Evaluates a x (.number i.toDouble) []
  | float {x y} : a.content? x = some (.float y) → Evaluates a x (.number y) []
  | string {x s} : a.content? x = some (.string s) → Evaluates a x (.text s) []
  | byteArray {x bs} : a.content? x = some (.byteArray bs) → Evaluates a x (.bytes bs) []
  | circleRatio {x} : a.content? x = some (.var "π") →
      Evaluates a x (.ofFloat circleRatio) ["The actual value of π has been rounded."]
  | logarithmBase {x} : a.content? x = some (.var "e") →
      Evaluates a x (.ofFloat logarithmBase) ["The actual value of e has been rounded."]
  | degrees {x s} : a.content? x = some (.symbol s) → s.toText = "units.degrees" →
      Evaluates a x (.ofFloat (OpenMath.circleRatio / 180))
        ["Converting to degrees used an approximation of π."]
  | percent {x s} : a.content? x = some (.symbol s) → s.toText = "units.percent" →
      Evaluates a x (.ofFloat 0.01) []
  | dollars {x s} : a.content? x = some (.symbol s) → s.toText = "units.dollars" →
      Evaluates a x (.ofFloat 1) ["Dollar units were dropped"]
  /-- the operands that are taken, and more of them that are not looked at -/
  | application {x head} {args more : List NodeId} {op} {value : NodeId → Value}
      {notes : NodeId → List String} :
      a.content? x = some (.application (head :: (args ++ more))) →
      operation? (a.compact head) = some op → args.length = op.arity →
      (∀ u ∈ args, Evaluates a u (value u) (notes u)) →
      (op.IsNumeric → ∀ u ∈ args, (value u).IsNumeric) →
      Evaluates a x (op.result (args.map value))
        (args.flatMap notes ++ operatorNotes (a.compact head))

variable {a : Arena} {x : NodeId} {n : Node} {v : Value} {notes : List String}

/-- The evaluation of a content, given the texts and the evaluations of the parts. -/
def evaluateContent (a : Arena) : Content NodeId → Evaluation
  | .integer v => .ofValue (.number v.toDouble)
  | .float x => .ofValue (.number x)
  | .string s => .ofValue (.text s)
  | .byteArray bs => .ofValue (.bytes bs)
  | .symbol s => .ofSymbol s
  | .var name => .ofVar name
  | .application (head :: operands) => .ofApplication (a.compact head) (operands.map a.evaluate)
  | .application [] | .binding .. | .error .. => {}

/-- The evaluation of a node, by those of its parts. -/
theorem Wf.evaluate_node (w : a.Wf) (hn : a.node? x = some n) :
    a.evaluate x =
      if (a.evaluateContent n.content).value.isNone then
        (a.evaluateContent n.content).failed (a.compact x)
      else a.evaluateContent n.content := by
  obtain ⟨t, ht⟩ := w.exists_tree hn
  obtain ⟨m, c, as, hm, hr, rfl⟩ := exists_roots ht
  cases hn.symm.trans hm
  have hcompact {y : NodeId} {t : Tree NodeId} (ht : a.tree? y = some t) :
      a.compact y = t.compact := by
    rw [compact, ht]
    rfl
  have hevaluate (u : Tree NodeId) (hu : u ∈ c.structural) : a.evaluate u.label = u.evaluate := by
    rw [evaluate, hr.part u hu]
  have hnode : Tree.evaluateNode (Tree.rooted x c as).kind
      ((Tree.rooted x c as).slots.mapContent fun u => (u, u.evaluate)) =
        a.evaluateContent n.content := by
    rw [Tree.slots_rooted, Content.mapContent_allSlots, Tree.kind_rooted, Tree.evaluateNode.eq_def,
      Content.children_allSlots, hr.content]
    cases c with
    | application cs =>
      cases cs with
      | nil => rfl
      | cons head operands =>
        obtain ⟨hhead, -⟩ :=
          List.forall_mem_cons.1 (Content.forall_structural_application.1 hr.part)
        obtain ⟨-, hoperands⟩ :=
          List.forall_mem_cons.1 (Content.forall_structural_application.1 hevaluate)
        have hmap : (operands.map fun u => a.evaluate u.label) = operands.map Tree.evaluate :=
          List.map_congr_left hoperands
        simp [Content.map, Content.kind, Content.children, evaluateContent, hcompact hhead, ← hmap,
          Function.comp_def]
    | _ => rfl
  rw [evaluate, ht]
  show Tree.evaluate _ = _
  rw [Tree.evaluate_eq, Tree.evaluateStep, hnode, hcompact ht]

/-- What a node that evaluates has as its value, and what is said about it. -/
theorem Wf.evaluate_of_evaluates (w : a.Wf) (h : a.Evaluates x v notes) :
    a.evaluate x = ⟨some v, messageOf notes⟩ := by
  have hnode {x c v} {notes : List String} (hc : a.content? x = some c)
      (h : a.evaluateContent c = ⟨some v, messageOf notes⟩) :
      a.evaluate x = ⟨some v, messageOf notes⟩ := by
    obtain ⟨n, hn, rfl⟩ := Option.map_eq_some_iff.1 hc
    rw [w.evaluate_node hn, h]
    rfl
  induction h with
  | integer hc | float hc | string hc | byteArray hc => exact hnode hc rfl
  | circleRatio hc | logarithmBase hc =>
    refine hnode hc ?_
    rw [Evaluation.messageOf_singleton]
    rfl
  | degrees hc hs | dollars hc hs =>
    refine hnode hc ?_
    rw [evaluateContent, Evaluation.ofSymbol, hs, Evaluation.messageOf_singleton]
    rfl
  | percent hc hs =>
    refine hnode hc ?_
    rw [evaluateContent, Evaluation.ofSymbol, hs]
    rfl
  | application hc hop hlen _ hnum ih =>
    refine hnode hc ?_
    rw [evaluateContent, List.map_append]
    exact Evaluation.ofApplication_of_values _ hop hlen ih hnum

theorem evaluate_stale (hn : a.node? x = none) :
    a.evaluate x = Evaluation.failed {} (a.compact x) := by
  have ht : a.tree? x = none := by
    cases ht : a.tree? x with
    | none => rfl
    | some t =>
      obtain ⟨n, hn', -⟩ := exists_node_of_tree ht
      cases hn.symm.trans hn'
  rw [evaluate, ht]

/-- An application of an operator evaluates if its first operands do, with values of its sort. -/
theorem Evaluates.of_operands {head : NodeId} {operands : List NodeId} {op : Operation}
    {vs : List Value} (hc : a.content? x = some (.application (head :: operands)))
    (hop : operation? (a.compact head) = some op) (hle : op.arity ≤ operands.length)
    (hvs : (operands.take op.arity).map (fun u => (a.evaluate u).value) = vs.map some)
    (hresult : op.result? vs = some v)
    (ih : ∀ u ∈ operands, ∀ w, (a.evaluate u).value = some w → ∃ ns, a.Evaluates u w ns) :
    ∃ notes, a.Evaluates x v notes := by
  set args := operands.take op.arity with hargs
  let value (u : NodeId) : Value := ((a.evaluate u).value).getD v
  have hvalue : ∀ u ∈ args, (a.evaluate u).value = some (value u) := fun u hu => by
    have hm : (a.evaluate u).value ∈ vs.map some := hvs ▸ List.mem_map_of_mem hu
    obtain ⟨w, -, hw⟩ := List.mem_map.1 hm
    simp only [value, ← hw, Option.getD_some]
  have hmap : args.map value = vs := by
    have hsome : (args.map value).map some = vs.map some := by
      rw [← hvs, List.map_map]
      exact (List.map_congr_left hvalue).symm
    exact List.map_injective_iff.2 (Option.some_injective _) hsome
  have hlen : args.length = op.arity := by rw [hargs, List.length_take, min_eq_left hle]
  have hlenvs : vs.length = op.arity := by rw [← hmap, List.length_map, hlen]
  obtain ⟨hnum, hv⟩ := (Operation.result?_eq_some_iff hlenvs).1 hresult
  choose! notes hnotes using fun u (hu : u ∈ args) => ih u (List.mem_of_mem_take hu) _ (hvalue u hu)
  rw [← hmap] at hnum hv
  rw [← hv]
  rw [← List.take_append_drop op.arity operands] at hc
  exact ⟨_, .application hc hop hlen hnotes fun h => List.forall_mem_map.1 (hnum h)⟩

/-- A node without operands evaluates if it has a value. -/
theorem Evaluates.of_leaf {c : Content NodeId} (hc : a.content? x = some c)
    (hleaf : ∀ cs, c ≠ .application cs) (hv : (a.evaluateContent c).value = some v) :
    ∃ notes, a.Evaluates x v notes := by
  cases c with
  | integer i =>
    cases hv
    exact ⟨_, .integer hc⟩
  | float y =>
    cases hv
    exact ⟨_, .float hc⟩
  | string s =>
    cases hv
    exact ⟨_, .string hc⟩
  | byteArray bs =>
    cases hv
    exact ⟨_, .byteArray hc⟩
  | symbol s =>
    simp only [evaluateContent, Evaluation.ofSymbol] at hv
    split at hv <;> cases hv
    · next hs => exact ⟨_, .degrees hc hs⟩
    · next hs => exact ⟨_, .percent hc hs⟩
    · next hs => exact ⟨_, .dollars hc hs⟩
  | var name =>
    simp only [evaluateContent, Evaluation.ofVar] at hv
    split at hv <;> cases hv
    · exact ⟨_, .circleRatio hc⟩
    · exact ⟨_, .logarithmBase hc⟩
  | application cs => exact absurd rfl (hleaf cs)
  | binding hd vs b => cases hv
  | error hd cs => cases hv

/-- What has a value evaluates. -/
theorem Wf.exists_evaluates (w : a.Wf) (h : (a.evaluate x).value = some v) :
    ∃ notes, a.Evaluates x v notes := by
  induction x using w.descends.induction generalizing v with
  | _ x ih =>
  cases hn : a.node? x with
  | none =>
    rw [evaluate_stale hn] at h
    cases h
  | some n =>
    have hv : (a.evaluateContent n.content).value = some v := by
      rw [w.evaluate_node hn] at h
      split at h
      · next hnone =>
        rw [Option.isNone_iff_eq_none] at hnone
        cases hnone.symm.trans h
      · exact h
    have hc : a.content? x = some n.content := by
      rw [content?, hn]
      rfl
    have hparent {u : NodeId} (hu : u ∈ n.content.structural) : a.parent? u = some x :=
      w.parent?_of_mem hn (List.mem_append_left _ hu)
    cases hcontent : n.content with
    | application cs =>
      rw [hcontent] at hc hv hparent
      cases cs with
      | nil => cases hv
      | cons head operands =>
        obtain ⟨op, vs, hop, hle, htake, hresult⟩ := Evaluation.values_of_ofApplication hv
        rw [List.length_map] at hle
        rw [← List.map_take, List.map_map] at htake
        exact Evaluates.of_operands hc hop hle htake hresult fun u hu w hw =>
          ih u (hparent (Content.mem_structural_of_child (List.mem_cons_of_mem head hu))) hw
    | _ =>
      rw [hcontent] at hc hv
      exact Evaluates.of_leaf hc (fun cs h => by cases h) hv

/-- What is evaluated, in an arena that comes about: a node has a value just if it evaluates,
    and this is its value; then the message is made of the notes, and otherwise it says that
    there is no value, whatever was said on the way. -/
theorem Reachable.evaluate_iff (h : a.Reachable) (x : NodeId) :
    (∀ v, (a.evaluate x).value = some v ↔ ∃ notes, a.Evaluates x v notes) ∧
      (∀ v notes, a.Evaluates x v notes → (a.evaluate x).message = messageOf notes) ∧
      ((a.evaluate x).value = none →
        (a.evaluate x).message = some ("Could not evaluate " ++ a.compact x)) := by
  refine ⟨fun v => ⟨h.wf.exists_evaluates, ?_⟩, ?_, fun hnone => ?_⟩
  · rintro ⟨notes, he⟩
    rw [h.wf.evaluate_of_evaluates he]
  · intro v notes he
    rw [h.wf.evaluate_of_evaluates he]
  · cases hn : a.node? x with
    | none =>
      rw [evaluate_stale hn]
      rfl
    | some n =>
      rw [h.wf.evaluate_node hn] at hnone ⊢
      split at hnone
      · next hnode =>
        rw [if_pos hnode]
        rfl
      · next hnode =>
        rw [hnone] at hnode
        exact absurd rfl hnode

/-- An approximate comparison of two constants, with an operand that is not looked at. -/
def approximated : Arena :=
  ⟨#[some ⟨.symbol ⟨"approx", "relation1", none, rfl, rfl⟩, [], some 4⟩,
    some ⟨.symbol ⟨"degrees", "units", none, rfl, rfl⟩, [], some 4⟩,
    some ⟨.var "e", [], some 4⟩, some ⟨.var "x", [], some 4⟩,
    some ⟨.application [0, 1, 2, 3], [], none⟩]⟩

/-- The values of the two operands that are compared. -/
def approximatedValue (u : NodeId) : Value :=
  if u = 1 then .ofFloat (OpenMath.circleRatio / 180) else .ofFloat logarithmBase

/-- The notes on the two operands that are compared. -/
def approximatedNotes (u : NodeId) : List String :=
  if u = 1 then ["Converting to degrees used an approximation of π."]
  else ["The actual value of e has been rounded."]

/-- The comparison evaluates, with three notes, though its last operand does not. -/
theorem evaluate_iff_approximated :
    parse "relation1.approx(units.degrees,e,x)" .empty = some (.ok 4, approximated) ∧
      (approximated.evaluate 4).value.isSome = true ∧
      (approximated.evaluate 4).message = some (
        "Converting to degrees used an approximation of π." ++
        "\nThe actual value of e has been rounded." ++
        "\nValues were rounded to two decimal places for approximate comparison.") ∧
      (approximated.evaluate 3).message = some "Could not evaluate x" := by
  have hmade : parse "relation1.approx(units.degrees,e,x)" .empty = some (.ok 4, approximated) := by
    cbv
  have hreach : approximated.Reachable :=
    .step (c := .parse "relation1.approx(units.degrees,e,x)") (r := .ok ()) .empty
      (Edit.bind_ok hmade)
  have hhead : approximated.compact 0 = "relation1.approx" := by cbv
  have hcontent : approximated.content? 4 = some (.application (0 :: ([1, 2] ++ [3]))) := rfl
  have hop : operation? (approximated.compact 0) =
      some (.compare <| Value.comparing fun x y => (x - y).abs < closeness) := by
    rw [hhead]
    rfl
  have heach : ∀ u ∈ [1, 2], approximated.Evaluates u (approximatedValue u) (approximatedNotes u) :=
    List.forall_mem_cons.2 ⟨.degrees rfl rfl, List.forall_mem_singleton.2 (.logarithmBase rfl)⟩
  have heval := Evaluates.application hcontent hop rfl heach fun h => h.elim
  obtain ⟨hvalue, hmessage, -⟩ := hreach.evaluate_iff 4
  obtain ⟨-, -, hfailed⟩ := hreach.evaluate_iff 3
  have hx : approximated.compact 3 = "x" := by cbv
  refine ⟨hmade, Option.isSome_iff_exists.2 ⟨_, (hvalue _).2 ⟨_, heval⟩⟩, ?_, ?_⟩
  · rw [hmessage _ _ heval, hhead]
    decide +kernel
  · rw [hfailed (by cbv), hx]
    rfl

end Arena

end OpenMath
