/-
  The grammar of the compact notation.

      expr := atom | expr '(' args? ')' | expr '[' args ']'
      args := expr (',' expr)*

  A derivation is a tree, whose leaves in a row are the tokens that it derives.
  The reader finds the derivation of what it reads, whatever it reads expressions
  as: its stack holds what the heads and the earlier arguments of the groups stand
  for that are still open, and a mark on the stack is an opening bracket.

  * `Expr`, `Expr.tokens`: derivations, and the tokens that they derive;
  * `Interpretation.eval`: what an expression is read as;
  * `reads_of_eval`: the reader gets through the tokens of an expression;
  * `Spells`: the tokens that a state of the reader stands for;
  * `run_eq_ended_iff`: what the reader reads is derived;
  * `tokens_injective`: no tokens have two derivations.
-/
import OpenMath.Compact.Parser
import OpenMath.Proofs.Wire.Validity
import Mathlib.Data.List.Forall2
import Mathlib.Data.List.Induction

namespace OpenMath.Compact

/-- The token that opens a group. -/
def Group.openingToken : Group → Token
  | application => .openParen
  | binding => .openBracket

/-- The token that closes a group. -/
def Group.closingToken : Group → Token
  | application => .closeParen
  | binding => .closeBracket

/-! ## Derivations -/

/-- A token that is an expression by itself. -/
inductive Atom where
  | symbol (cd name : String)
  | var (name : String)
  | float (text : String)
  | integer (text : String)
  | string (text : String)
deriving DecidableEq

/-- The token that an atom is written as. -/
def Atom.token : Atom → Token
  | symbol cd name => .symbol cd name
  | var name => .var name
  | float text => .float text
  | integer text => .integer text
  | string text => .string text

/-- The atom that a token writes, unless it is a mark. -/
def Atom.ofToken? : Token → Option Atom
  | .symbol cd name => some (symbol cd name)
  | .var name => some (var name)
  | .float text => some (float text)
  | .integer text => some (integer text)
  | .string text => some (string text)
  | _ => none

theorem Atom.ofToken?_token (a : Atom) : ofToken? a.token = some a := by
  cases a <;> rfl

/-- A derivation: an atom, a head with a list of arguments in parentheses, or one
    in brackets, whose last argument stands apart. -/
inductive Expr where
  | atom (a : Atom)
  | application (head : Expr) (operands : List Expr)
  | binding (head : Expr) (bound : List Expr) (body : Expr)

namespace Expr

/-- Arguments with a comma between any two. -/
def separated (args : List (List Token)) : List Token := [Token.comma].intercalate args

/-- The tokens that a derivation derives. -/
def tokens : Expr → List Token
  | atom a => [a.token]
  | application head operands =>
    head.tokens ++ .openParen :: (separated (operands.map tokens) ++ [.closeParen])
  | binding head bound body =>
    head.tokens ++ .openBracket :: (separated (bound.map tokens ++ [body.tokens]) ++ [.closeBracket])

/-- A property that passes from the parts of an expression to the expression holds
    of every one. -/
@[elab_as_elim]
theorem induction {P : Expr → Prop} (atom : ∀ a, P (.atom a))
    (application : ∀ head operands, P head → (∀ e ∈ operands, P e) →
      P (.application head operands))
    (binding : ∀ head bound body, P head → (∀ e ∈ bound, P e) → P body →
      P (.binding head bound body)) : ∀ e, P e
  | .atom a => atom a
  | .application head operands =>
    application head operands (induction atom application binding head)
      fun e _ => induction atom application binding e
  | .binding head bound body =>
    binding head bound body (induction atom application binding head)
      (fun e _ => induction atom application binding e) (induction atom application binding body)

end Expr

/-! ## What an expression is read as -/

/-- What an expression stands for, from its parts up. -/
def Interpretation.eval {α : Type} (I : Interpretation α) : Expr → Except Error α
  | .atom a => I.atom a.token
  | .application head operands => do
    let f ← I.eval head
    let vs ← operands.mapM I.eval
    I.application f vs
  | .binding head bound body => do
    let f ← I.eval head
    let vs ← bound.mapM I.eval
    let v ← I.eval body
    I.binding f vs v

theorem mapM_eq_ok_iff_forall₂ {α β : Type} {f : α → Except Error β} {xs : List α} {ys : List β} :
    xs.mapM f = .ok ys ↔ List.Forall₂ (fun x y => f x = .ok y) xs ys := by
  induction xs generalizing ys with
  | nil => simp [pure, Except.pure, eq_comm]
  | cons x xs ih =>
    simp only [List.mapM_cons, Except.bind_eq_ok, ih, List.forall₂_cons_left_iff]
    constructor
    · rintro ⟨y, hy, ys', hys, h⟩
      cases h
      exact ⟨y, ys', hy, hys, rfl⟩
    · rintro ⟨y, ys', hy, hys, rfl⟩
      exact ⟨y, hy, ys', hys, rfl⟩

section
variable {α : Type} {I : Interpretation α} {top v : α} {below : List (Entry α)}
  {cs ts rest : List Token}

/-- Expressions and what they are read as. -/
def Interpretation.Evals (I : Interpretation α) : List Expr → List α → Prop :=
  List.Forall₂ fun e v => I.eval e = .ok v

theorem eval_application {head : Expr} {operands : List Expr} :
    I.eval (.application head operands) = .ok v ↔
      ∃ f vs, I.eval head = .ok f ∧ I.Evals operands vs ∧ I.application f vs = .ok v := by
  simp only [Interpretation.eval, Except.bind_eq_ok, mapM_eq_ok_iff_forall₂]
  exact ⟨fun ⟨f, hf, vs, hvs, h⟩ => ⟨f, vs, hf, hvs, h⟩, fun ⟨f, vs, hf, hvs, h⟩ => ⟨f, hf, vs, hvs, h⟩⟩

theorem eval_binding {head : Expr} {bound : List Expr} {body : Expr} :
    I.eval (.binding head bound body) = .ok v ↔
      ∃ f vs w, I.eval head = .ok f ∧ I.Evals bound vs ∧ I.eval body = .ok w ∧
        I.binding f vs w = .ok v := by
  simp only [Interpretation.eval, Except.bind_eq_ok, mapM_eq_ok_iff_forall₂]
  exact ⟨fun ⟨f, hf, vs, hvs, w, hw, h⟩ => ⟨f, vs, w, hf, hvs, hw, h⟩,
    fun ⟨f, vs, w, hf, hvs, hw, h⟩ => ⟨f, hf, vs, hvs, w, hw, h⟩⟩

/-! ## The reader gets through an expression -/

namespace Expr

theorem separated_append_singleton (es : List Expr) (t : List Token) :
    separated (es.map tokens ++ [t]) = es.flatMap (fun e => e.tokens ++ [.comma]) ++ t := by
  induction es with
  | nil => simp [separated]
  | cons e es ih =>
    rw [List.flatMap_cons, List.append_assoc, ← ih]
    cases es <;> simp [separated]

theorem exists_tokens_eq_cons (e : Expr) : ∃ a ts, e.tokens = Atom.token a :: ts := by
  induction e using Expr.induction with
  | atom a => exact ⟨a, [], by rw [tokens]⟩
  | application head operands ih _ =>
    obtain ⟨a, ts, h⟩ := ih
    exact ⟨a, _, by rw [tokens, h, List.cons_append]⟩
  | binding head bound body ih _ _ =>
    obtain ⟨a, ts, h⟩ := ih
    exact ⟨a, _, by rw [tokens, h, List.cons_append]⟩

end Expr

/-- A reader that is behind arguments of a group: what they are read as lies on
    the stack, the last one on top. -/
def arguments (vs : List α) : List (Entry α) := (vs.map (Entry.mk · none)).reverse

@[simp] theorem nearestHead_arguments (vs bs : List α) (f : α) (g : Group)
    (below : List (Entry α)) :
    nearestHead bs (arguments vs ++ ⟨f, some g⟩ :: below) = some (g, f, vs ++ bs, below) := by
  induction vs using List.reverseRecOn generalizing bs with
  | nil => rfl
  | append_singleton vs v ih => simpa [arguments, nearestHead] using ih (v :: bs)

/-- The reader gets through the tokens of an expression, whatever stands behind. -/
def Reads (I : Interpretation α) (e : Expr) (v : α) : Prop :=
  ∀ below rest, run I (.expecting below) (e.tokens ++ rest) = run I (.ended v below) rest

theorem run_arguments {es : List Expr} {vs : List α} (h : List.Forall₂ (Reads I) es vs) {e : Expr}
    (he : Reads I e v) (below : List (Entry α)) (rest : List Token) :
    run I (.expecting below) (Expr.separated (es.map Expr.tokens ++ [e.tokens]) ++ rest) =
      run I (.ended v (arguments vs ++ below)) rest := by
  rw [Expr.separated_append_singleton]
  induction h generalizing below with
  | nil => exact he below rest
  | @cons d w es vs hd _ ih =>
    rw [List.flatMap_cons, List.append_assoc, List.append_assoc, List.append_assoc, hd,
      List.singleton_append, run, ← List.append_assoc, ih]
    simp [arguments]

theorem run_openingToken (g : Group) (a : Atom) (top : α) (below : List (Entry α))
    (ts : List Token) :
    run I (.ended top below) (g.openingToken :: a.token :: ts) =
      run I (.expecting (⟨top, some g⟩ :: below)) (a.token :: ts) := by
  cases g <;> cases a <;> rfl

/-- The reader gets through a group with arguments. -/
theorem run_group {es : List Expr} {vs : List α} (h : List.Forall₂ (Reads I) es vs) {e : Expr}
    (he : Reads I e v) (g : Group) (top : α) (below : List (Entry α)) (rest : List Token) :
    run I (.ended top below) (g.openingToken ::
        (Expr.separated (es.map Expr.tokens ++ [e.tokens]) ++ g.closingToken :: rest)) =
      (do let w ← g.join I top vs v; run I (.ended w below) rest) := by
  obtain ⟨a, ts, hat⟩ : ∃ a ts, Expr.separated (es.map Expr.tokens ++ [e.tokens]) =
      Atom.token a :: ts := by
    cases es with
    | nil => simpa [Expr.separated] using e.exists_tokens_eq_cons
    | cons d es =>
      obtain ⟨a, ts, hd⟩ := d.exists_tokens_eq_cons
      exact ⟨a, _, by rw [Expr.separated_append_singleton, List.flatMap_cons, hd]; rfl⟩
  rw [hat, List.cons_append, run_openingToken, ← List.cons_append, ← hat, run_arguments h he]
  cases g <;> simp [Group.closingToken, run, close]

@[simp] theorem except_ok_bind {β γ : Type} (x : β) (f : β → Except Error γ) :
    (Except.ok x >>= f) = f x := rfl

section
variable {β γ : Type} {R S : β → γ → Prop} {xs : List β} {ys : List γ}

theorem forall₂_imp_of_mem (h : List.Forall₂ R xs ys)
    (hi : ∀ x ∈ xs, ∀ {y}, R x y → S x y) : List.Forall₂ S xs ys := by
  induction h with
  | nil => exact .nil
  | @cons x y xs ys hxy _ ih =>
    exact .cons (hi x (List.mem_cons_self ..) hxy) (ih fun z hz => hi z (List.mem_cons_of_mem x hz))

theorem forall₂_append_singleton {x : β} (h : List.Forall₂ R (xs ++ [x]) ys) :
    ∃ zs z, List.Forall₂ R xs zs ∧ R x z ∧ ys = zs ++ [z] := by
  induction xs generalizing ys with
  | nil =>
    obtain ⟨z, _, hz, hn, rfl⟩ := List.forall₂_cons_left_iff.1 h
    cases hn
    exact ⟨[], z, .nil, hz, rfl⟩
  | cons w xs ih =>
    obtain ⟨y, ys, hy, hys, rfl⟩ := List.forall₂_cons_left_iff.1 h
    obtain ⟨zs, z, hzs, hz, rfl⟩ := ih hys
    exact ⟨y :: zs, z, .cons hy hzs, hz, rfl⟩

end

/-- An expression that is read as something is read as that from its tokens. -/
theorem reads_of_eval {e : Expr} (h : I.eval e = .ok v) : Reads I e v := by
  induction e using Expr.induction generalizing v with
  | atom a =>
    intro below rest
    rw [Interpretation.eval] at h
    rw [Expr.tokens, List.singleton_append, run, h, except_ok_bind]
  | application head operands ih ihs =>
    intro below rest
    obtain ⟨f, vs, hf, hvs, hv⟩ := eval_application.1 h
    have hreads := forall₂_imp_of_mem hvs ihs
    rw [Expr.tokens, List.append_assoc, ih hf]
    rcases operands.eq_nil_or_concat' with rfl | ⟨es, e, rfl⟩
    · cases hvs
      simp [Expr.separated, run, hv]
    · obtain ⟨ws, w, hes, he, rfl⟩ := forall₂_append_singleton hreads
      have := run_group hes he .application f below rest
      simpa [Group.openingToken, Group.closingToken, Group.join, hv] using this
  | binding head bound body ih ihs ihb =>
    intro below rest
    obtain ⟨f, vs, w, hf, hvs, hw, hv⟩ := eval_binding.1 h
    have := run_group (forall₂_imp_of_mem hvs ihs) (ihb hw) .binding f below rest
    rw [Expr.tokens, List.append_assoc, ih hf]
    simpa [Group.openingToken, Group.closingToken, Group.join, hv] using this

/-! ## What the reader has read is derived -/

/-- The token behind an entry of the stack. -/
def behind : Option Group → Token
  | none => .comma
  | some g => g.openingToken

/-- The tokens that a stack stands for: those of its expressions, each with the
    token behind it. -/
inductive Stacked (I : Interpretation α) : List (Entry α) → List Token → Prop
  | nil : Stacked I [] []
  | cons {below : List (Entry α)} {cs : List Token} {e : Expr} {v : α} (opens : Option Group)
    (s : Stacked I below cs) (h : I.eval e = .ok v) :
    Stacked I (⟨v, opens⟩ :: below) (cs ++ e.tokens ++ [behind opens])

/-- The tokens that a state of the reader stands for. -/
def Spells (I : Interpretation α) : Reading α → List Token → Prop
  | .expecting below, cs => Stacked I below cs
  | .ended v below, cs => ∃ e cs', Stacked I below cs' ∧ I.eval e = .ok v ∧ cs = cs' ++ e.tokens

/-- Above the nearest open head lie the arguments of its group. -/
theorem Stacked.nearestHead (s : Stacked I below cs) {bs args : List α} {g : Group} {f : α}
    {below' : List (Entry α)} (h : nearestHead bs below = some (g, f, args, below')) :
    ∃ cs' e es vs, Stacked I below' cs' ∧ I.eval e = .ok f ∧ I.Evals es vs ∧ args = vs ++ bs ∧
      cs = cs' ++ e.tokens ++ g.openingToken :: es.flatMap fun e => e.tokens ++ [.comma] := by
  induction s generalizing bs with
  | nil => cases h
  | @cons below cs e v opens s he ih =>
    cases opens with
    | some g' =>
      cases h
      exact ⟨cs, e, [], [], s, he, .nil, rfl, rfl⟩
    | none =>
      obtain ⟨cs', d, es, vs, s', hd, hes, rfl, rfl⟩ := ih h
      refine ⟨cs', d, es ++ [e], vs ++ [v], s', hd, List.rel_append hes (.cons he .nil), ?_, ?_⟩
      · simp
      · simp [behind]

/-- Closing a group makes an expression of its head and its arguments. -/
theorem spells_close (h : Spells I (.ended top below) cs) {g : Group} {r : Reading α}
    (hr : close I g top below = .ok r) : Spells I r (cs ++ [g.closingToken]) := by
  obtain ⟨last, cs', s, hlast, rfl⟩ := h
  unfold close at hr
  split at hr
  · cases hr
  · next opened f args below' hn =>
    obtain ⟨cs'', e, es, vs, s', he, hes, hargs, rfl⟩ := s.nearestHead hn
    rw [List.append_nil] at hargs
    subst hargs
    split at hr
    · next hg =>
      subst hg
      obtain ⟨w, hw, hr⟩ := Except.bind_eq_ok.1 hr
      cases hr
      cases opened with
      | application =>
        refine ⟨.application e (es ++ [last]), cs'', s', eval_application.2
          ⟨f, args ++ [top], he, List.rel_append hes (.cons hlast .nil), hw⟩, ?_⟩
        simp [Expr.tokens, Expr.separated_append_singleton, Group.openingToken, Group.closingToken]
      | binding =>
        refine ⟨.binding e es last, cs'', s', eval_binding.2 ⟨f, args, top, he, hes, hlast, hw⟩, ?_⟩
        simp [Expr.tokens, Expr.separated_append_singleton, Group.openingToken, Group.closingToken]
    · cases hr

theorem Spells.push (h : Spells I (.ended top below) cs) (opens : Option Group) :
    Spells I (.expecting (⟨top, opens⟩ :: below)) (cs ++ [behind opens]) := by
  obtain ⟨e, cs', s, he, rfl⟩ := h
  exact .cons opens s he

/-- Only the tokens that are expressions by themselves are read as something. -/
def Interpretation.Atomic (I : Interpretation α) : Prop :=
  ∀ t v, I.atom t = .ok v → ∃ a : Atom, a.token = t

/-- What the reader has read is what its state stands for. -/
theorem spells_run (hI : I.Atomic) {r r' : Reading α} (h : Spells I r cs)
    (hr : run I r ts = .ok r') : Spells I r' (cs ++ ts) := by
  fun_induction run I r ts generalizing cs with
  | case1 r =>
    cases hr
    rwa [List.append_nil]
  | case2 below t ts ih =>
    obtain ⟨v, hv, hrest⟩ := Except.bind_eq_ok.1 hr
    obtain ⟨a, rfl⟩ := hI t v hv
    have he : I.eval (.atom a) = .ok v := by rw [Interpretation.eval, hv]
    have := ih v ⟨.atom a, cs, h, he, rfl⟩ hrest
    rwa [Expr.tokens, List.append_assoc] at this
  | case3 top below ts ih => simpa [behind] using ih (h.push none) hr
  | case4 top below ts ih =>
    -- the two brackets of an empty group are read in one step
    obtain ⟨v, hv, hrest⟩ := Except.bind_eq_ok.1 hr
    obtain ⟨e, cs', s, he, rfl⟩ := h
    have happ : I.eval (.application e []) = .ok v := eval_application.2 ⟨top, [], he, .nil, hv⟩
    have := ih v ⟨.application e [], cs', s, happ, rfl⟩ hrest
    simpa [Expr.tokens, Expr.separated] using this
  | case5 top below ts _ ih =>
    simpa [behind, Group.openingToken] using ih (h.push (some .application)) hr
  | case6 top below ts ih =>
    simpa [behind, Group.openingToken] using ih (h.push (some .binding)) hr
  | case7 top below ts ih =>
    obtain ⟨r, hc, hrest⟩ := Except.bind_eq_ok.1 hr
    simpa [Group.closingToken] using ih r (spells_close h hc) hrest
  | case8 top below ts ih =>
    obtain ⟨r, hc, hrest⟩ := Except.bind_eq_ok.1 hr
    simpa [Group.closingToken] using ih r (spells_close h hc) hrest
  | case9 => cases hr

/-- The reader is through with just one expression if and only if the tokens are
    those of an expression that is read as that. -/
theorem run_eq_ended_iff (hI : I.Atomic) :
    run I (.expecting []) ts = .ok (.ended v []) ↔ ∃ e : Expr, e.tokens = ts ∧ I.eval e = .ok v := by
  constructor
  · intro hr
    have hempty : Spells I (.expecting []) [] := .nil
    obtain ⟨e, cs, s, he, hcs⟩ := spells_run hI hempty hr
    cases s
    exact ⟨e, by simpa using hcs.symm, he⟩
  · rintro ⟨e, rfl, he⟩
    simpa [run] using reads_of_eval he [] []

end

/-! ## No tokens have two derivations -/

/-- Expressions as their own derivations. -/
def derivations : Interpretation Expr where
  atom t := match Atom.ofToken? t with
    | some a => .ok (.atom a)
    | none => unexpected t.toText
  application head operands := .ok (.application head operands)
  binding head bound body := .ok (.binding head bound body)

theorem eval_derivations (e : Expr) : derivations.eval e = .ok e := by
  induction e using Expr.induction with
  | atom a =>
    rw [Interpretation.eval]
    simp only [derivations, Atom.ofToken?_token]
  | application head operands ih ihs =>
    exact eval_application.2 ⟨head, operands, ih, List.forall₂_same.2 ihs, rfl⟩
  | binding head bound body ih ihs ihb =>
    exact eval_binding.2 ⟨head, bound, body, ih, List.forall₂_same.2 ihs, ihb, rfl⟩

/-- Tokens have at most one derivation. -/
theorem tokens_injective {e e' : Expr} (h : e.tokens = e'.tokens) : e = e' := by
  have he := reads_of_eval (eval_derivations e) [] []
  rw [h, reads_of_eval (eval_derivations e') [] []] at he
  cases he
  rfl

end OpenMath.Compact
