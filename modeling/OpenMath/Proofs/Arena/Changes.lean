/-
  What commands do to an arena.

  Whatever its arguments are, a command comes to an end, and it changes the arena in
  a few ways only: trees of valid shapes are added, a tree is given up, nodes are
  changed in their places, or a tree gives way to what a substitution makes of it.
  If a command fails, every node is as it was: what is made is made of a valid shape,
  so that it does not fail half way, and the copies that a substitution makes are
  given up again.

  * `Change`: the ways in which an arena changes;
  * `Edit.Changes`: an operation that does no more, with one lemma for each kind of
    command;
  * `Command.forall_run`: the kinds of commands that there are;
  * `Command.changes`: all commands.
-/
import Mathlib
import OpenMath.Proofs.Arena.Replacing
import OpenMath.Arena.History

namespace OpenMath

open Arena

variable {α : Type} {a b : Arena} {id : NodeId}

/-! ## Changes -/

/-- A term of a valid shape. -/
def Term.OfValid (t : Term) : Prop := ∃ v, Wire.Valid v ∧ Wire.build v = .ok t

namespace Arena

/-- The ways in which an arena changes. -/
inductive Change : Arena → Arena → Prop
  /-- trees of valid shapes are added -/
  | planted {a b : Arena} {us : List (Tree NodeId)} (h : Planted a b us)
    (shapes : ∀ u ∈ us, Term.OfValid u.toTerm) : Change a b
  /-- a tree is given up -/
  | freed {a b : Arena} {t : Tree NodeId} (h : Freed t a b) (next : b.next = a.next) (wf : b.Wf) :
    Change a b
  /-- nodes are changed in their places, and keep their kinds -/
  | remapped {a b : Arena} {F : NodeId → Node → Node} (h : Remapped F a b)
    (kind : ∀ x n, (F x n).kind = n.kind) (next : b.next = a.next) (wf : b.Wf) : Change a b
  /-- a tree gives way to what a substitution makes of it -/
  | substituted {a b : Arena} {σ : Substitution NodeId} {names above : List String}
    {t t' : Tree NodeId} {role : Option Role} (h : Outcome σ names t t' a b)
    (tree : a.tree? t.label = some t) (shape : Term.OfValid σ.replacement)
    (term : t'.mapLabels (older a.next) = σ.apply t above role) : Change a b
  | trans {a b c : Arena} : Change a b → Change b c → Change a c

namespace Change

theorem refl (w : a.Wf) : Change a a := .planted (.nil w) (by simp)

theorem detached (h : Detached id a b) : Change a b :=
  .remapped h.node? (kind_cut _ id) h.next h.wf

theorem wf (h : Change a b) : b.Wf := by
  induction h with
  | planted h => exact h.wf
  | freed _ _ wf => exact wf
  | remapped _ _ _ wf => exact wf
  | substituted h => exact h.wf
  | trans _ _ _ ih => exact ih

theorem next_le (h : Change a b) : a.next ≤ b.next := by
  induction h with
  | planted h => exact h.next_le
  | freed _ next => exact next.ge
  | remapped _ _ next => exact next.ge
  | substituted h => exact h.next_le
  | trans _ _ ih ih' => exact ih.trans ih'

end Change

theorem Planted.node?_eq (h : Planted a b []) (x : NodeId) : b.node? x = a.node? x := by
  by_cases hx : x < a.next
  · exact h.old x hx
  · rw [node?_eq_none_of_le (not_lt.1 hx)]
    by_contra hn
    obtain ⟨n, hn⟩ := Option.ne_none_iff_exists'.1 hn
    obtain ⟨u, hu, -⟩ := h.covered x n (not_lt.1 hx) hn
    cases hu

end Arena

/-! ## Operations -/

/-- An operation that comes to an end, changes the arena in the ways that there are,
    and if it fails, changes no node. -/
def Edit.Changes (x : Edit α) : Prop :=
  ∀ a, a.Wf → ∃ r b, x a = some (r, b) ∧ Change a b ∧
    ∀ e, r = .error e → ∀ y, b.node? y = a.node? y

namespace Edit.Changes

theorem effect {x : Edit α} (h : Changes x) : Changes x.effect := fun a w => by
  obtain ⟨r, b, hx, hb, hu⟩ := h a w
  cases r with
  | ok v => exact ⟨.ok (), b, Edit.bind_ok hx, hb, nofun⟩
  | error e => exact ⟨.error e, b, Edit.bind_error hx, hb, fun _ _ => hu e rfl⟩

theorem makeFrom {shape : Arena → Except Error Json} (h : ∀ a, Validated (shape a)) :
    Changes (Arena.makeFrom shape) := fun a w => by
  cases hs : shape a with
  | error e => exact ⟨_, a, make_error hs, .refl w, fun _ _ _ => rfl⟩
  | ok v =>
    obtain ⟨u, b, hm, hp, hb⟩ := w.make_ok hs (h a v hs)
    exact ⟨_, b, hm, .planted hp (by simpa using ⟨v, h a v hs, hb⟩), nofun⟩

theorem discard (id : NodeId) : Changes (Arena.discard id) := fun a w => by
  cases hn : a.node? id with
  | none => exact ⟨_, a, discard_stale hn, .refl w, nofun⟩
  | some n =>
    cases hp : a.parent? id with
    | some p => exact ⟨_, a, discard_attached hp, .refl w, fun _ _ _ => rfl⟩
    | none =>
      obtain ⟨t, ht⟩ := w.exists_tree hn
      obtain ⟨b, hb, hf, hnext, wb⟩ := w.discard_ok hp ht
      exact ⟨_, b, hb, .freed hf hnext wb, nofun⟩

theorem remove (id : NodeId) : Changes (modifyGet fun a => a.remove id : Edit Bool) := fun a w =>
  ⟨_, _, Edit.modifyGet_run _ a, .detached (w.remove id), nofun⟩

theorem replaceWith (id other : NodeId) : Changes (Arena.replaceWith id other) := fun a w => by
  by_cases h : ∃ p l, Replaces a id other p l
  · obtain ⟨p, l, h⟩ := h
    obtain ⟨b, c, hd, hrun, hs, hnext, wc⟩ := w.replaceWith_ok h
    have hswap : Change b c := .remapped hs (kind_swap p id other) (hnext.trans hd.next.symm) wc
    exact ⟨_, c, hrun, (Change.detached hd).trans hswap, nofun⟩
  · obtain ⟨r, hrun, -⟩ := w.replaceWith_kept fun p l hr => h ⟨p, l, hr⟩
    exact ⟨r, a, hrun, .refl w, fun _ _ _ => rfl⟩

theorem change_removeAttribute (w : a.Wf) (id : NodeId) (key : Symbol) :
    Change a (a.removeAttribute id key).2 ∧ (a.removeAttribute id key).2.next = a.next := by
  obtain ⟨b, hb, hs, hn, -⟩ := w.removeAttribute_spec id key
  rw [hb]
  cases hg : a.getAttribute? id key with
  | none =>
    rw [hn hg]
    exact ⟨.refl w, rfl⟩
  | some v => exact ⟨.detached (hs v hg), (hs v hg).next⟩

theorem removeAttribute (id : NodeId) (key : Symbol) :
    Changes (modifyGet fun a => a.removeAttribute id key : Edit (Option NodeId)) := fun a w =>
  ⟨_, _, Edit.modifyGet_run _ a, (change_removeAttribute w id key).1, nofun⟩

theorem setAttribute (id : NodeId) (key : Symbol) (value : NodeId) :
    Changes (Arena.setAttribute id key value) := fun a w => by
  by_cases h : Attaches a id value
  · obtain ⟨b, c, d, hr, hd, hrun, hh, hnext, wd⟩ := w.setAttribute_ok h key
    obtain ⟨hb, hnb⟩ := change_removeAttribute w id key
    rw [hr] at hb hnb
    have hhang : Change c d :=
      .remapped hh kind_hang (hnext.trans (hnb.symm.trans hd.next.symm)) wd
    exact ⟨_, d, hrun, (hb.trans (.detached hd)).trans hhang, nofun⟩
  · obtain ⟨e, hrun⟩ := w.setAttribute_kept h key
    exact ⟨_, a, hrun, .refl w, fun _ _ _ => rfl⟩

theorem ofValid_of_copy {t : Tree NodeId} {c : Term} (h : t.copy = .ok c) : c.OfValid := by
  obtain ⟨v, -, hd⟩ := Except.bind_eq_ok.1 h
  obtain ⟨_, hv, hb⟩ := Except.bind_eq_ok.1 hd
  exact ⟨v, hv, hb⟩

theorem replaceFreeWithin (id target replacement : NodeId) (upto : Option NodeId) :
    Changes (Arena.replaceFreeWithin id target replacement upto) := fun a w => by
  cases hn : a.node? target with
  | none => exact ⟨_, a, replaceFreeWithin_stale (.inl hn) id upto, .refl w, nofun⟩
  | some n =>
    cases hm : a.node? replacement with
    | none => exact ⟨_, a, replaceFreeWithin_stale (.inr hm) id upto, .refl w, nofun⟩
    | some m =>
      obtain ⟨o, ho⟩ := w.exists_tree hn
      obtain ⟨r, hr⟩ := w.exists_tree hm
      by_cases hc : (∃ c, o.copy = .ok c) ∧ ∃ c, r.copy = .ok c
      · obtain ⟨⟨co, hco⟩, cr, hcr⟩ := hc
        cases hi : a.node? id with
        | none =>
          obtain ⟨b, hrun, hp⟩ := w.replaceFreeWithin_nothing hi ho hr hco hcr upto
          exact ⟨_, b, hrun, .planted hp (by simp), nofun⟩
        | some k =>
          obtain ⟨t, ht⟩ := w.exists_tree hi
          obtain ⟨names, b, t', -, hrun, hout, hterm⟩ :=
            w.replaceFreeWithin_ok ht ho hr hco hcr upto
          have htree : a.tree? t.label = some t := (tree?_label ht).symm ▸ ht
          exact ⟨_, b, hrun, .substituted hout htree (ofValid_of_copy hcr) hterm, nofun⟩
      · obtain ⟨e, b, hrun, hp⟩ := w.replaceFreeWithin_error ho hr hc id upto
        exact ⟨_, b, hrun, .planted hp (by simp), fun _ _ => hp.node?_eq⟩

end Edit.Changes

/-! ## Commands -/

theorem Arena.decode_eq (text : String) :
    Arena.decode text = makeFrom fun _ => readJson text >>= Wire.validated := by
  rw [Arena.decode]
  cases readJson text <;> rfl

/-- A command makes a tree of a shape that is validated, or it is one of a few edits:
    what holds of these operations holds of every command. -/
theorem Command.forall_run {P : Edit Unit → Prop}
    (makes : ∀ shape : Arena → Except Error Json, (∀ a, Validated (shape a)) →
      P (makeFrom shape).effect)
    (discards : ∀ id, P (Arena.discard id))
    (removes : ∀ id, P (Edit.effect (modifyGet fun a => a.remove id)))
    (replaces : ∀ id other, P (Arena.replaceWith id other).effect)
    (sets : ∀ id key value, P (Arena.setAttribute id key value).effect)
    (unsets : ∀ id key, P (Edit.effect (modifyGet fun a => a.removeAttribute id key)))
    (substitutes : ∀ id target replacement upto,
      P (Arena.replaceFreeWithin id target replacement upto).effect)
    (c : Command) : P c.run := by
  have makes' (shape : Except Error Json) (h : Validated shape) : P (make shape).effect :=
    makes (fun _ => shape) fun _ => h
  cases c with
  | decode text =>
    rw [run, decode_eq]
    exact makes _ fun _ => .bind _ validated_validated
  | decodeShape shape => exact makes' _ (validated_validated shape)
  | parse text => exact makes' _ (validated_parse text)
  | integer v => exact makes' _ (validated_validated _)
  | float x => exact makes' _ (validated_float x)
  | string s => exact makes' _ (validated_validated _)
  | bytes bs => exact makes' _ (validated_validated _)
  | symbol name cd uri => exact makes' _ (validated_validated _)
  | var name => exact makes' _ (validated_validated _)
  | application nodes => exact makes _ fun a => .bind _ fun _ => validated_validated _
  | binding head bound body =>
    exact makes _ fun a => .bind _ fun _ => .bind _ fun _ => .bind _ fun _ => validated_validated _
  | error head nodes =>
    exact makes _ fun a => .bind _ fun _ => .bind _ fun _ => validated_validated _
  | attribution node entries =>
    exact makes _ fun a => .bind _ fun _ => .bind _ fun _ => validated_attribution _ _
  | copy id => exact makes _ fun a => validated_copyShape a id
  | discard id => exact discards id
  | remove id => exact removes id
  | replaceWith id other => exact replaces id other
  | setAttribute id key value => exact sets id key value
  | removeAttribute id key => exact unsets id key
  | replaceFree id target replacement => exact substitutes id target replacement (some id)
  | replaceFreeWithin id target replacement upto => exact substitutes id target replacement upto

/-- Every command comes to an end and changes the arena in no other way. -/
theorem Command.changes (c : Command) : c.run.Changes :=
  c.forall_run (fun _ h => (Edit.Changes.makeFrom h).effect) .discard
    (fun id => (Edit.Changes.remove id).effect)
    (fun id other => (Edit.Changes.replaceWith id other).effect)
    (fun id key value => (Edit.Changes.setAttribute id key value).effect)
    (fun id key => (Edit.Changes.removeAttribute id key).effect)
    fun id target replacement upto =>
      (Edit.Changes.replaceFreeWithin id target replacement upto).effect

end OpenMath
