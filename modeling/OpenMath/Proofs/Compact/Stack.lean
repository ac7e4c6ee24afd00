/-
  The reader, step by step.

  In each step the reader takes a token, or the two brackets of an empty group.  A property
  that its expressions have when they are made is one that all of them on the stack have, at
  every step of any run, also of a run that fails later on.  The expressions on the stack of
  the reader of shapes are valid, which is why a group needs no check of its parts, and the
  shape that is read in the end no check at all.

  * `Reading.values`: the expressions on the stack;
  * `Step`: one step; `run_eq_ok_iff`: the reader takes steps until no tokens are left;
  * `step_or_fails`: it fails only where it can take no step;
  * `Interpretation.Keeps`, `Step.keeps`, `keeps_of_steps`: what holds of all expressions on
    the stack, by one step and by any number of them;
  * `shallow_checks_suffice`: nothing more is found by checking shapes from top to bottom.
-/
import Mathlib
import OpenMath.Proofs.Compact.Grammar
import OpenMath.Proofs.Wire.Shallow

namespace OpenMath.Compact

open Relation

variable {α : Type} {I : Interpretation α} {P : α → Prop}

/-! ## Steps -/

/-- The expressions on the stack, the latest first. -/
def Reading.values : Reading α → List α
  | .expecting below => below.map (·.value)
  | .ended top below => top :: below.map (·.value)

/-- One step of the reader, from a state and the tokens that are left there to the next. -/
inductive Step (I : Interpretation α) : Reading α × List Token → Reading α × List Token → Prop
  | atom {below : List (Entry α)} {t : Token} {ts : List Token} {v : α} (h : I.atom t = .ok v) :
    Step I (.expecting below, t :: ts) (.ended v below, ts)
  | comma {top : α} {below : List (Entry α)} {ts : List Token} :
    Step I (.ended top below, .comma :: ts) (.expecting (⟨top, none⟩ :: below), ts)
  | empty {top v : α} {below : List (Entry α)} {ts : List Token} (h : I.application top [] = .ok v) :
    Step I (.ended top below, .openParen :: .closeParen :: ts) (.ended v below, ts)
  | opens {top : α} {below : List (Entry α)} {ts : List Token} (g : Group)
    (h : ts.head? = some .closeParen → g = .binding) :
    Step I (.ended top below, g.openingToken :: ts) (.expecting (⟨top, some g⟩ :: below), ts)
  | closes {top : α} {below : List (Entry α)} {ts : List Token} {r : Reading α} (g : Group)
    (h : close I g top below = .ok r) : Step I (.ended top below, g.closingToken :: ts) (r, ts)

/-- A step does not change what is read in the end. -/
theorem Step.run_eq {s s' : Reading α × List Token} (h : Step I s s') :
    run I s.1 s.2 = run I s'.1 s'.2 := by
  cases h with
  | atom h => rw [run, h, except_ok_bind]
  | comma => rw [run]
  | empty h => rw [run, h, except_ok_bind]
  | @opens top below ts g h =>
    cases g with
    | binding => rw [Group.openingToken, run]
    | application =>
      rw [Group.openingToken, run]
      rintro us rfl
      cases h rfl
  | closes g h => cases g <;> rw [Group.closingToken, run, h, except_ok_bind]

/-- The reader is through if and only if it gets there step by step. -/
theorem run_eq_ok_iff {r r' : Reading α} {ts : List Token} :
    run I r ts = .ok r' ↔ ReflTransGen (Step I) (r, ts) (r', []) := by
  constructor
  · intro h
    fun_induction run I r ts with
    | case1 r =>
      cases h
      exact .refl
    | case2 below t ts ih =>
      obtain ⟨v, hv, hrest⟩ := Except.bind_eq_ok.1 h
      exact .head (.atom hv) (ih v hrest)
    | case3 top below ts ih => exact .head .comma (ih h)
    | case4 top below ts ih =>
      obtain ⟨v, hv, hrest⟩ := Except.bind_eq_ok.1 h
      exact .head (.empty hv) (ih v hrest)
    | case5 top below ts hts ih =>
      refine .head (.opens .application fun hc => ?_) (ih h)
      obtain ⟨us, rfl⟩ := List.head?_eq_some_iff.1 hc
      exact absurd rfl (hts us)
    | case6 top below ts ih => exact .head (.opens .binding fun _ => rfl) (ih h)
    | case7 top below ts ih =>
      obtain ⟨r, hr, hrest⟩ := Except.bind_eq_ok.1 h
      exact .head (.closes .application hr) (ih r hrest)
    | case8 top below ts ih =>
      obtain ⟨r, hr, hrest⟩ := Except.bind_eq_ok.1 h
      exact .head (.closes .binding hr) (ih r hrest)
    | case9 => cases h
  · intro h
    generalize hs : (r, ts) = s at h
    induction h using ReflTransGen.head_induction_on generalizing r ts with
    | refl =>
      cases hs
      rw [run]
    | @head s s' hstep _ ih =>
      subst hs
      exact hstep.run_eq.trans (ih rfl)

/-- Where the reader can take no step although tokens are left, it fails. -/
theorem step_or_fails (r : Reading α) (t : Token) (ts : List Token) :
    (∃ s, Step I (r, t :: ts) s) ∨ ∃ e, run I r (t :: ts) = .error e := by
  cases r with
  | expecting below =>
    cases hv : I.atom t with
    | ok v => exact .inl ⟨_, .atom hv⟩
    | error e => exact .inr ⟨e, by rw [run, hv]; rfl⟩
  | ended top below =>
    have hclose (g : Group) (hg : g.closingToken = t)
        (hrun : run I (.ended top below) (t :: ts) = (do let r ← close I g top below; run I r ts)) :
        (∃ s, Step I (.ended top below, t :: ts) s) ∨
          ∃ e, run I (.ended top below) (t :: ts) = .error e := by
      subst hg
      cases hr : close I g top below with
      | ok r => exact .inl ⟨_, .closes g hr⟩
      | error e => exact .inr ⟨e, by rw [hrun, hr]; rfl⟩
    cases t with
    | comma => exact .inl ⟨_, .comma⟩
    | openBracket => exact .inl ⟨_, .opens .binding fun _ => rfl⟩
    | openParen =>
      by_cases hts : ts.head? = some .closeParen
      · obtain ⟨us, rfl⟩ := List.head?_eq_some_iff.1 hts
        cases hv : I.application top [] with
        | ok v => exact .inl ⟨_, .empty hv⟩
        | error e => exact .inr ⟨e, by rw [run, hv]; rfl⟩
      · exact .inl ⟨_, .opens .application fun h => absurd h hts⟩
    | closeParen => exact hclose .application rfl (by rw [run])
    | closeBracket => exact hclose .binding rfl (by rw [run])
    | _ => exact .inr ⟨_, by rw [run, unexpected] <;> simp⟩

/-! ## What holds of the expressions on the stack -/

/-- Expressions with a property are made, if those that they are made of have it. -/
structure Interpretation.Keeps (I : Interpretation α) (P : α → Prop) : Prop where
  atom : ∀ {t v}, I.atom t = .ok v → P v
  application : ∀ {f vs v}, P f → (∀ w ∈ vs, P w) → I.application f vs = .ok v → P v
  binding : ∀ {f vs b v}, P f → (∀ w ∈ vs, P w) → P b → I.binding f vs b = .ok v → P v

/-- The nearest open head, what is behind it and what is below it were on the stack. -/
theorem forall_nearestHead {behind args : List α} {below below' : List (Entry α)} {g : Group} {f : α}
    (hb : ∀ v ∈ behind, P v) (h : ∀ e ∈ below, P e.value)
    (hn : nearestHead behind below = some (g, f, args, below')) :
    P f ∧ (∀ v ∈ args, P v) ∧ ∀ e ∈ below', P e.value := by
  fun_induction nearestHead behind below with
  | case1 => cases hn
  | case2 behind value g below =>
    cases hn
    exact ⟨(List.forall_mem_cons.1 h).1, hb, (List.forall_mem_cons.1 h).2⟩
  | case3 behind value below ih =>
    obtain ⟨hv, hr⟩ := List.forall_mem_cons.1 h
    exact ih (List.forall_mem_cons.2 ⟨hv, hb⟩) hr hn

theorem Interpretation.Keeps.join (hI : I.Keeps P) {g : Group} {f last v : α} {args : List α}
    (hf : P f) (ha : ∀ w ∈ args, P w) (hl : P last) (h : g.join I f args last = .ok v) : P v := by
  cases g with
  | application =>
    exact hI.application hf (List.forall_mem_append.2 ⟨ha, List.forall_mem_singleton.2 hl⟩) h
  | binding => exact hI.binding hf ha hl h

theorem Interpretation.Keeps.close (hI : I.Keeps P) {g : Group} {top : α} {below : List (Entry α)}
    {r : Reading α} (h : ∀ v ∈ (Reading.ended top below).values, P v)
    (hr : close I g top below = .ok r) : ∀ v ∈ r.values, P v := by
  obtain ⟨htop, hbelow⟩ := List.forall_mem_cons.1 h
  rw [List.forall_mem_map] at hbelow
  unfold Compact.close at hr
  split at hr
  · cases hr
  · next opened f args below' hn =>
    obtain ⟨hf, ha, hbelow'⟩ := forall_nearestHead (List.forall_mem_nil P) hbelow hn
    split at hr
    · obtain ⟨v, hv, hr⟩ := Except.bind_eq_ok.1 hr
      cases hr
      exact List.forall_mem_cons.2 ⟨hI.join hf ha htop hv, List.forall_mem_map.2 hbelow'⟩
    · cases hr

/-- In a step nothing comes on the stack that does not have the property. -/
theorem Step.keeps (hI : I.Keeps P) {s s' : Reading α × List Token} (hs : Step I s s')
    (h : ∀ v ∈ s.1.values, P v) : ∀ v ∈ s'.1.values, P v := by
  cases hs with
  | atom ha => exact List.forall_mem_cons.2 ⟨hI.atom ha, h⟩
  | comma => exact h
  | empty hv =>
    obtain ⟨htop, hbelow⟩ := List.forall_mem_cons.1 h
    exact List.forall_mem_cons.2 ⟨hI.application htop (List.forall_mem_nil P) hv, hbelow⟩
  | opens g _ => exact h
  | closes g hr => exact hI.close h hr

theorem keeps_of_steps (hI : I.Keeps P) {s s' : Reading α × List Token}
    (hs : ReflTransGen (Step I) s s') (h : ∀ v ∈ s.1.values, P v) : ∀ v ∈ s'.1.values, P v := by
  induction hs with
  | refl => exact h
  | tail _ hstep ih => exact hstep.keeps hI ih

/-! ## Shapes -/

open Wire

theorem valid_of_validated {v w : Json} (h : validated v = .ok w) : Valid w := by
  obtain ⟨hv, rfl⟩ := validated_eq_ok.1 h
  exact hv

/-- What a single token is read as has been checked. -/
theorem valid_of_atom {t : Token} {v : Json} (h : atom t = .ok v) : Valid v := by
  cases t with
  | symbol cd name => exact valid_of_validated h
  | var name => exact valid_of_validated h
  | string text => exact valid_of_validated h
  | integer text =>
    obtain ⟨n, -, hv⟩ := Except.bind_eq_ok.1 h
    exact valid_of_validated hv
  | float text =>
    rw [atom, floatAtom] at h
    split at h
    · rw [Shape.float] at h
      split_ifs at h
      exact valid_of_validated h
    · cases h
  | _ => cases h

theorem keeps_valid : shapes.Keeps Valid where
  atom h := valid_of_atom h
  application hf hvs h :=
    valid_of_validated ((joinApplication_eq (List.forall_mem_cons.2 ⟨hf, hvs⟩)).symm.trans h)
  binding hf hvs hb h := valid_of_validated ((joinBinding_eq hf hvs hb).symm.trans h)

/-- Nothing more is found by checking shapes from top to bottom.  Joining valid shapes comes
    out as making the same node and checking all of it, and fails with the same error; so all
    expressions that are on the stack at any step are valid, whatever the tokens; and if the
    tokens of a text are those of one expression, then the text is read as its shape, which
    breaks no rule. -/
theorem shallow_checks_suffice :
    (∀ cs : List Json, (∀ v ∈ cs, Valid v) → Shape.joinApplication cs = Shape.application cs) ∧
    (∀ (head body : Json) (bound : List Json), Valid head → (∀ v ∈ bound, Valid v) → Valid body →
      Shape.joinBinding head bound body = Shape.binding head bound body) ∧
    (∀ (ts : List Token) (s : Reading Json × List Token),
      ReflTransGen (Step shapes) (.expecting [], ts) s → ∀ v ∈ s.1.values, Valid v) ∧
    ∀ (text : String) (ts : List Token) (top : Json), Token.ofChars text.toList = .ok ts →
      run shapes (.expecting []) ts = .ok (.ended top []) →
        validate top = .ok () ∧ parse text = .ok top := by
  have hstack (ts : List Token) (s : Reading Json × List Token)
      (hs : ReflTransGen (Step shapes) (.expecting [], ts) s) : ∀ v ∈ s.1.values, Valid v :=
    keeps_of_steps keeps_valid hs nofun
  refine ⟨fun _ => joinApplication_eq, fun _ _ _ => joinBinding_eq, hstack, ?_⟩
  intro text ts top hts hrun
  have htop : Valid top := hstack ts _ (run_eq_ok_iff.1 hrun) top (List.mem_cons_self ..)
  refine ⟨htop, ?_⟩
  rw [parse, hts, except_ok_bind, parseTokens, hrun, except_ok_bind, finish]
  exact validated_eq_ok.2 ⟨htop, rfl⟩

/-- What is on the stack behind `c.f[x,x(`. -/
def nestedEntries : List (Entry Json) :=
  [⟨Shape.ofVar "x", some .application⟩, ⟨Shape.ofVar "x", none⟩,
    ⟨Symbol.shapeOf "f" "c" none, some .binding⟩]

/-- In `c.f[x,x(` a head is open inside of another; no tokens are left then, and all that is
    on the stack is valid, although the text is not read.  With `)]` behind it, it is. -/
theorem shallow_checks_suffice_nested :
    (∃ below : List (Entry Json), below.length = 3 ∧
      run shapes (.expecting []) [.symbol "c" "f", .openBracket, .var "x", .comma, .var "x",
        .openParen] = .ok (.expecting below) ∧ ∀ e ∈ below, Valid e.value) ∧
    (∃ top, parse "c.f[x,x()]" = .ok top ∧ validate top = .ok ()) ∧
    Shape.joinApplication [Shape.ofVar "x"] = Shape.application [Shape.ofVar "x"] ∧
    Shape.joinBinding (Shape.ofVar "x") [] (Shape.ofVar "x") =
      Shape.binding (Shape.ofVar "x") [] (Shape.ofVar "x") := by
  obtain ⟨happlication, hbinding, hstack, htext⟩ := shallow_checks_suffice
  have hx : Valid (Shape.ofVar "x") := by unfold Valid Check.Passes; cbv
  refine ⟨?_, ?_, happlication _ (by simpa using hx), hbinding _ _ _ hx (List.forall_mem_nil _) hx⟩
  · have hrun : run shapes (.expecting []) [.symbol "c" "f", .openBracket, .var "x", .comma, .var "x",
        .openParen] = .ok (.expecting nestedEntries) := by cbv
    exact ⟨nestedEntries, rfl, hrun, List.forall_mem_map.1 (hstack _ _ (run_eq_ok_iff.1 hrun))⟩
  · have hts : Token.ofChars "c.f[x,x()]".toList = .ok [.symbol "c" "f", .openBracket, .var "x",
      .comma, .var "x", .openParen, .closeParen, .closeBracket] := by cbv
    obtain ⟨hv, hp⟩ := htext _ _ (Shape.ofBinding (Symbol.shapeOf "f" "c" none)
      [Shape.ofVar "x"] (Shape.ofApplication [Shape.ofVar "x"])) hts (by cbv)
    exact ⟨_, hp, hv⟩

end OpenMath.Compact
