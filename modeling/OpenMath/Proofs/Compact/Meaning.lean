/-
  What the compact notation means.

  An expression that keeps the rules for bindings and floats means a shape, and
  tokens are read as a shape if they are those of such an expression.

  * `Expr.meaning`, `Expr.Proper`: the shape of an expression, and the rules;
  * `eval_shapes_iff`: what the reader of shapes makes of an expression;
  * `valid_meaning`: the shape of a proper expression is accepted;
  * `parseTokens_grammar`: the tokens that are read, and as what.
-/
import Mathlib
import OpenMath.Proofs.Compact.Grammar
import OpenMath.Proofs.Compact.Tokens
import OpenMath.Proofs.Wire.Acceptance

namespace OpenMath.Compact

/-! ## Meaning -/

/-- The integer that a numeral means: a number if it fits 64 bits, otherwise the
    numeral. -/
def integerOf (text : String) : Integer :=
  ((Integer.readText? text).bind Integer.native?).getD (.text text)

/-- The number that the text of a float means. -/
def floatOf (text : String) : Double := (Double.ofText? text).getD .nan

/-- The shape of an atom, for one whose text is proper. -/
def Atom.meaning : Atom → Json
  | symbol cd name => Symbol.shapeOf name cd none
  | var name => Shape.ofVar name
  | float text => Shape.ofFloat (floatOf text)
  | integer text => Shape.ofInteger (integerOf text)
  | string text => Shape.ofString text

/-- The kind of object that an atom stands for. -/
def Atom.type : Atom → NodeType
  | symbol _ _ => .symbol
  | var _ => .var
  | float _ => .float
  | integer _ => .integer
  | string _ => .string

/-- The rule for atoms: a float is finite. -/
def Atom.Proper : Atom → Prop
  | float text => (floatOf text).isFinite = true
  | _ => True

namespace Expr

/-- The shape that an expression means. -/
def meaning : Expr → Json
  | atom a => a.meaning
  | application head operands => Shape.ofApplication (head.meaning :: operands.map meaning)
  | binding head bound body => Shape.ofBinding head.meaning (bound.map meaning) body.meaning

/-- The kind of object that an expression means. -/
def type : Expr → NodeType
  | atom a => a.type
  | application _ _ => .application
  | binding _ _ _ => .binding

/-- The rules for expressions: a float is finite, the head of a binding is a
    symbol, and what it binds are variables. -/
def Proper : Expr → Prop
  | atom a => a.Proper
  | application head operands => head.Proper ∧ ∀ e ∈ operands, e.Proper
  | binding head bound body =>
    head.Proper ∧ (∀ e ∈ bound, e.Proper) ∧ body.Proper ∧
      head.type = .symbol ∧ ∀ e ∈ bound, e.type = .var

end Expr

/-! ## Kinds -/

theorem nodeType?_ofContent (c : Content Json) :
    (Shape.ofContent c).nodeType? = some c.kind.type := by
  obtain ⟨fs, hg, -⟩ := Tree.ofContent_eq c
  rw [hg]
  exact Wire.nodeType?_ofContent fun k _ => by rw [hg]; rfl

theorem nodeType?_shapeOf (name cd : String) :
    (Symbol.shapeOf name cd none).nodeType? = some .symbol := by
  have ht : (Symbol.shapeOf name cd none).field? "t" = some (.str NodeType.symbol.tag) := by
    simp [Symbol.shapeOf, Json.ofFields, Json.field?, Json.fields?, Json.Fields.ofList]
  rw [Json.nodeType?, ht]
  exact NodeType.ofTag?_eq_some_iff.2 rfl

theorem nodeType?_meaning (e : Expr) : e.meaning.nodeType? = some e.type := by
  cases e with
  | atom a =>
    rw [Expr.meaning]
    cases a with
    | symbol cd name => exact nodeType?_shapeOf name cd
    | var name => exact nodeType?_ofContent (.var name)
    | float text => exact nodeType?_ofContent (.float (floatOf text))
    | integer text => exact nodeType?_ofContent (.integer (integerOf text))
    | string text => exact nodeType?_ofContent (.string text)
  | application head operands =>
    rw [Expr.meaning]
    exact nodeType?_ofContent (.application _)
  | binding head bound body =>
    rw [Expr.meaning]
    exact nodeType?_ofContent (.binding (some _) _ (some _))

/-! ## Atoms -/

theorem acceptable_integerOf {text : String} (h : Identifier.isIntegerText text = true) :
    (Kind.integer (integerOf text)).Acceptable := by
  unfold integerOf
  cases hn : (Integer.readText? text).bind Integer.native? with
  | none => exact h
  | some v =>
    obtain ⟨n, -, hv⟩ := Option.bind_eq_some_iff.1 hn
    rw [Integer.native?] at hv
    split at hv <;> cases hv
    trivial

theorem valid_atom {a : Atom} (ha : a.token.WellFormed) (hp : a.Proper) : Wire.Valid a.meaning := by
  cases a with
  | symbol cd name => exact Symbol.valid_toShape ⟨name, cd, none, ha.2, ha.1⟩
  | var name => exact Wire.valid_of_isLeaf (c := .var name) ⟨nofun, nofun, nofun⟩ ha
  | float text => exact Wire.valid_of_isLeaf (c := .float (floatOf text)) ⟨nofun, nofun, nofun⟩ hp
  | integer text =>
    exact Wire.valid_of_isLeaf (c := .integer (integerOf text)) ⟨nofun, nofun, nofun⟩
      (acceptable_integerOf ha)
  | string text => exact Wire.valid_of_isLeaf (c := .string text) ⟨nofun, nofun, nofun⟩ trivial

theorem ofNumeral_eq {text : String} (h : Identifier.isIntegerText text = true) :
    Integer.ofNumeral text = .ok (integerOf text) := by
  unfold Integer.ofNumeral integerOf
  split
  · next n hn => rw [hn]; rfl
  · next hn => rw [hn, Integer.ofText, if_pos h]; rfl

theorem shapeFloat_eq_ok_iff {x : Double} {v : Json} :
    Shape.float x = .ok v ↔ x.isFinite = true ∧ Wire.validated (Shape.ofFloat x) = .ok v := by
  unfold Shape.float
  split
  · next hn =>
    refine iff_of_false nofun fun h => ?_
    rw [Double.not_isNaN_of_isFinite h.1] at hn
    cases hn
  · split
    · next hf => exact (and_iff_right hf).symm
    · next hf => exact iff_of_false nofun fun h => hf h.1

theorem floatAtom_eq_ok_iff {text : String} {v : Json} :
    floatAtom text = .ok v ↔ (floatOf text).isFinite = true ∧
      Wire.validated (Shape.ofFloat (floatOf text)) = .ok v := by
  rw [← shapeFloat_eq_ok_iff, floatAtom, floatOf]
  cases Double.ofText? text with
  | some x => rfl
  | none => exact iff_of_false nofun fun h => absurd (shapeFloat_eq_ok_iff.1 h).1 (by decide)

/-- What the reader of shapes makes of an atom. -/
theorem atom_eq_ok_iff {a : Atom} (ha : a.token.WellFormed) {v : Json} :
    atom a.token = .ok v ↔ a.Proper ∧ a.meaning = v := by
  have hvalid (h : a.Proper) : Wire.validated a.meaning = .ok v ↔ a.meaning = v :=
    Wire.validated_eq_ok.trans (and_iff_right (valid_atom ha h))
  cases a with
  | float text => exact floatAtom_eq_ok_iff.trans (and_congr_right hvalid)
  | integer text =>
    refine Iff.trans ?_ ((hvalid trivial).trans (and_iff_right trivial).symm)
    show (Integer.ofNumeral text >>= _) = _ ↔ _
    rw [ofNumeral_eq ha]
    rfl
  | _ => exact (hvalid trivial).trans (and_iff_right trivial).symm

/-! ## Expressions -/

theorem mem_separated {ts : List Token} {args : List (List Token)} (h : ts ∈ args) {t : Token}
    (ht : t ∈ ts) : t ∈ Expr.separated args := by
  induction args with
  | nil => cases h
  | cons us args ih =>
    cases args with
    | nil => simpa [Expr.separated, List.mem_singleton.1 h] using ht
    | cons ws args =>
      have hcons : Expr.separated (us :: ws :: args) = us ++ .comma :: Expr.separated (ws :: args) := by
        simp [Expr.separated]
      rw [hcons]
      rcases List.mem_cons.1 h with rfl | h
      · exact List.mem_append_left _ ht
      · exact List.mem_append_right _ (List.mem_cons_of_mem _ (ih h))

section
variable {P : Token → Prop} {head body : Expr} {es : List Expr}

theorem forall_tokens_application (h : ∀ t ∈ (Expr.application head es).tokens, P t) :
    (∀ t ∈ head.tokens, P t) ∧ ∀ e ∈ es, ∀ t ∈ e.tokens, P t := by
  simp only [Expr.tokens, List.mem_append, List.mem_cons] at h
  refine ⟨fun t ht => h t (.inl ht), fun e he t ht => h t (.inr (.inr (.inl ?_)))⟩
  exact mem_separated (List.mem_map_of_mem he) ht

theorem forall_tokens_binding (h : ∀ t ∈ (Expr.binding head es body).tokens, P t) :
    (∀ t ∈ head.tokens, P t) ∧ (∀ e ∈ es, ∀ t ∈ e.tokens, P t) ∧ ∀ t ∈ body.tokens, P t := by
  simp only [Expr.tokens, List.mem_append, List.mem_cons] at h
  refine ⟨fun t ht => h t (.inl ht), fun e he t ht => h t (.inr (.inr (.inl ?_))),
    fun t ht => h t (.inr (.inr (.inl ?_)))⟩
  · exact mem_separated (List.mem_append_left _ (List.mem_map_of_mem he)) ht
  · exact mem_separated (List.mem_append_right _ (List.mem_singleton_self _)) ht

end

section
variable {es : List Expr} {v : Json}

theorem evals_shapes_iff (ih : ∀ e ∈ es, ∀ v, shapes.eval e = .ok v ↔ e.Proper ∧ e.meaning = v)
    (vs : List Json) : shapes.Evals es vs ↔ (∀ e ∈ es, e.Proper) ∧ es.map Expr.meaning = vs := by
  induction es generalizing vs with
  | nil => simp [Interpretation.Evals, eq_comm]
  | cons e es ihs =>
    have hes := ihs fun d hd => ih d (List.mem_cons_of_mem e hd)
    simp only [Interpretation.Evals] at hes
    rw [Interpretation.Evals, List.forall₂_cons_left_iff]
    simp only [ih e (List.mem_cons_self ..), hes, List.forall_mem_cons, List.map_cons]
    constructor
    · rintro ⟨w, ws, ⟨he, rfl⟩, ⟨hes, rfl⟩, rfl⟩
      exact ⟨⟨he, hes⟩, rfl⟩
    · rintro ⟨⟨he, hes⟩, rfl⟩
      exact ⟨_, _, ⟨he, rfl⟩, ⟨hes, rfl⟩, rfl⟩

theorem joinApplication_eq_ok_iff {cs : List Json} (hc : cs ≠ []) :
    Shape.joinApplication cs = .ok v ↔ Shape.ofApplication cs = v := by
  have h : Wire.validateShallow (Shape.ofApplication cs) = .ok () :=
    Wire.passes_shallow_application.2 hc
  rw [Shape.joinApplication, h]
  exact ⟨Except.ok.inj, congrArg _⟩

theorem joinBinding_eq_ok_iff (head : Json) (vs : List Json) (body : Json) :
    Shape.joinBinding head vs body = .ok v ↔
      (head.nodeType? = some .symbol ∧ ∀ w ∈ vs, w.nodeType? = some .var) ∧
        Shape.ofBinding head vs body = v := by
  rw [← Wire.passes_shallow_binding head vs body, Shape.joinBinding, Except.bind_eq_ok]
  constructor
  · rintro ⟨_, h, hv⟩
    exact ⟨h, Except.ok.inj hv⟩
  · rintro ⟨h, rfl⟩
    exact ⟨(), h, rfl⟩

/-- What the reader of shapes makes of an expression. -/
theorem eval_shapes_iff {e : Expr} (he : ∀ t ∈ e.tokens, t.WellFormed) :
    shapes.eval e = .ok v ↔ e.Proper ∧ e.meaning = v := by
  induction e using Expr.induction generalizing v with
  | atom a =>
    rw [Expr.tokens, List.forall_mem_singleton] at he
    rw [Interpretation.eval, Expr.Proper, Expr.meaning]
    exact atom_eq_ok_iff he
  | application head operands ih ihs =>
    obtain ⟨heh, heo⟩ := forall_tokens_application he
    have hhead (w : Json) := ih heh (v := w)
    have hoperands := evals_shapes_iff fun d hd w => ihs d hd (heo d hd) (v := w)
    simp only [eval_application, hhead, hoperands, Expr.Proper, Expr.meaning]
    have hjoin := joinApplication_eq_ok_iff (v := v)
      (List.cons_ne_nil head.meaning (operands.map Expr.meaning))
    constructor
    · rintro ⟨f, ws, ⟨hp, rfl⟩, ⟨hps, rfl⟩, h⟩
      exact ⟨⟨hp, hps⟩, hjoin.1 h⟩
    · rintro ⟨⟨hp, hps⟩, h⟩
      exact ⟨_, _, ⟨hp, rfl⟩, ⟨hps, rfl⟩, hjoin.2 h⟩
  | binding head bound body ih ihs ihb =>
    obtain ⟨heh, hev, heb⟩ := forall_tokens_binding he
    have hhead (w : Json) := ih heh (v := w)
    have hbody (w : Json) := ihb heb (v := w)
    have hbound := evals_shapes_iff fun d hd w => ihs d hd (hev d hd) (v := w)
    simp only [eval_binding, hhead, hbound, hbody, Expr.Proper, Expr.meaning]
    have hjoin := joinBinding_eq_ok_iff (v := v) head.meaning (bound.map Expr.meaning) body.meaning
    simp only [nodeType?_meaning, List.forall_mem_map, Option.some.injEq] at hjoin
    constructor
    · rintro ⟨f, ws, w, ⟨hp, rfl⟩, ⟨hps, rfl⟩, ⟨hpb, rfl⟩, h⟩
      obtain ⟨⟨hs, hv⟩, h⟩ := hjoin.1 h
      exact ⟨⟨hp, hps, hpb, hs, hv⟩, h⟩
    · rintro ⟨⟨hp, hps, hpb, hs, hv⟩, h⟩
      exact ⟨_, _, _, ⟨hp, rfl⟩, ⟨hps, rfl⟩, ⟨hpb, rfl⟩, hjoin.2 ⟨⟨hs, hv⟩, h⟩⟩

/-- The shape of a proper expression is accepted. -/
theorem valid_meaning {e : Expr} (he : ∀ t ∈ e.tokens, t.WellFormed) (hp : e.Proper) :
    Wire.Valid e.meaning := by
  induction e using Expr.induction with
  | atom a =>
    rw [Expr.tokens, List.forall_mem_singleton] at he
    rw [Expr.Proper] at hp
    rw [Expr.meaning]
    exact valid_atom he hp
  | application head operands ih ihs =>
    obtain ⟨heh, heo⟩ := forall_tokens_application he
    rw [Expr.Proper] at hp
    rw [Expr.meaning]
    refine Wire.valid_ofContent (Content.acceptable_application (List.cons_ne_nil _ _) ?_)
    rw [List.forall_mem_cons, List.forall_mem_map]
    exact ⟨ih heh hp.1, fun d hd => ihs d hd (heo d hd) (hp.2 d hd)⟩
  | binding head bound body ih ihs ihb =>
    obtain ⟨heh, hev, heb⟩ := forall_tokens_binding he
    rw [Expr.Proper] at hp
    obtain ⟨hp, hps, hpb, hs, hv⟩ := hp
    rw [Expr.meaning]
    have htype : head.meaning.nodeType? = some .symbol := by rw [nodeType?_meaning, hs]
    refine Wire.valid_ofContent
      (Content.acceptable_binding htype ?_ (ih heh hp) ?_ (ihb heb hpb))
    · exact List.forall_mem_map.2 fun d hd => by rw [nodeType?_meaning, hv d hd]
    · exact List.forall_mem_map.2 fun d hd => ihs d hd (hev d hd) (hps d hd)

end

/-! ## Tokens -/

theorem atomic_shapes : shapes.Atomic := by
  intro t v h
  cases t with
  | symbol cd name => exact ⟨.symbol cd name, rfl⟩
  | var name => exact ⟨.var name, rfl⟩
  | float text => exact ⟨.float text, rfl⟩
  | integer text => exact ⟨.integer text, rfl⟩
  | string text => exact ⟨.string text, rfl⟩
  | _ => cases h

/-- A reader is through if just one expression has ended that is accepted. -/
theorem finish_eq_ok_iff {r : Reading Json} {v : Json} :
    finish r = .ok v ↔ r = .ended v [] ∧ Wire.Valid v := by
  unfold finish
  split
  · next top =>
    rw [Wire.validated_eq_ok]
    constructor
    · rintro ⟨h, rfl⟩
      exact ⟨rfl, h⟩
    · rintro ⟨⟨⟩, h⟩
      exact ⟨h, rfl⟩
  · next hr => exact iff_of_false nofun fun h => hr v h.1

/-- Tokens are read as a shape if they are those of a proper expression with that
    meaning. -/
theorem parseTokens_eq_ok_iff {ts : List Token} (h : ∀ t ∈ ts, t.WellFormed) {v : Json} :
    parseTokens ts = .ok v ↔ ∃ e : Expr, e.tokens = ts ∧ e.Proper ∧ e.meaning = v := by
  rw [parseTokens, Except.bind_eq_ok]
  constructor
  · rintro ⟨r, hr, hf⟩
    obtain ⟨rfl, -⟩ := finish_eq_ok_iff.1 hf
    obtain ⟨e, rfl, he⟩ := (run_eq_ended_iff atomic_shapes).1 hr
    exact ⟨e, rfl, (eval_shapes_iff h).1 he⟩
  · rintro ⟨e, rfl, hp, rfl⟩
    exact ⟨_, (run_eq_ended_iff atomic_shapes).2 ⟨e, rfl, (eval_shapes_iff h).2 ⟨hp, rfl⟩⟩,
      finish_eq_ok_iff.2 ⟨rfl, valid_meaning h hp⟩⟩

/-- The reader accepts just what the grammar derives: any tokens of texts are read
    as a shape if and only if they are derived by an expression whose floats are
    finite, whose bindings have symbols as heads, and in which all arguments in
    brackets but the last are variables; there is only one derivation, and the
    shape is what it means. -/
theorem parseTokens_grammar {ts : List Token} (h : ∀ t ∈ ts, t.Scanned) :
    (∀ v, parseTokens ts = .ok v ↔ ∃ e : Expr, e.tokens = ts ∧ e.Proper ∧ e.meaning = v) ∧
      ∀ e e' : Expr, e.tokens = ts → e'.tokens = ts → e = e' :=
  ⟨fun _ => parseTokens_eq_ok_iff fun t ht => (h t ht).wellFormed,
    fun _ _ he he' => tokens_injective (he.trans he'.symm)⟩

/-- The tokens of `c.f[x,x()]` are derived, and by one expression only. -/
theorem parseTokens_grammar_binding :
    ∃! e : Expr, e.tokens = [.symbol "c" "f", .openBracket, .var "x", .comma, .var "x", .openParen,
      .closeParen, .closeBracket] ∧ e.Proper := by
  have hts : Token.ofChars "c.f[x,x()]".toList = .ok [.symbol "c" "f", .openBracket, .var "x",
    .comma, .var "x", .openParen, .closeParen, .closeBracket] := by cbv
  obtain ⟨hread, hunique⟩ := parseTokens_grammar (Token.scanned_of_ofChars hts)
  obtain ⟨e, he, hp, -⟩ := (hread (Shape.ofBinding (Symbol.shapeOf "f" "c" none)
    [Shape.ofVar "x"] (Shape.ofApplication [Shape.ofVar "x"]))).1 (by cbv)
  exact ⟨e, ⟨he, hp⟩, fun e' he' => hunique e' e he'.1 he⟩

/-- A whole text is read if its tokens are those of a proper expression. -/
theorem parse_eq_ok_iff {text : String} {v : Json} :
    parse text = .ok v ↔ ∃ e : Expr, Token.ofChars text.toList = .ok e.tokens ∧ e.Proper ∧
      e.meaning = v := by
  rw [parse, Except.bind_eq_ok]
  constructor
  · rintro ⟨ts, ht, hv⟩
    have hts := fun t hm => (Token.scanned_of_ofChars ht t hm).wellFormed
    obtain ⟨e, rfl, hp, rfl⟩ := (parseTokens_eq_ok_iff hts).1 hv
    exact ⟨e, ht, hp, rfl⟩
  · rintro ⟨e, ht, hp, rfl⟩
    have hts := fun t hm => (Token.scanned_of_ofChars ht t hm).wellFormed
    exact ⟨_, ht, (parseTokens_eq_ok_iff hts).2 ⟨e, rfl, hp, rfl⟩⟩

end OpenMath.Compact
