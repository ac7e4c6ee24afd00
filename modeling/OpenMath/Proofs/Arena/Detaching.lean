/-
  Detaching a node.

  The slot of a node is looked up among those of its owner, and that slot is emptied: a
  sequence closes up, a head or a body is missing from then on, and an attribute is gone
  together with its key.  An attached node is in one slot only, so that it is always found,
  and nothing else is lost.

  * `Content.Loses`, `Node.Loses`: a content and a node without the part at a location;
  * `Node.loses_of_write?`: emptying a slot takes out the node that was in it;
  * `Wf.removed`: what there is after a node is detached;
  * `Reachable.remove_detaches`: when a node is detached, and that nothing changes otherwise.
-/
import OpenMath.Proofs.Arena.Installing

namespace OpenMath

/-! ## Emptied slots -/

/-- A content, and the same without the part `x`, which was at a location.  What stands
    behind it in a sequence moves up. -/
inductive Content.Loses {α : Type} (x : α) : Location → Content α → Content α → Prop
  | operand (before behind : List α) :
    Loses x (.child before.length) (.application (before ++ x :: behind))
      (.application (before ++ behind))
  | errorChild (head : Option α) (before behind : List α) :
    Loses x (.child before.length) (.error head (before ++ x :: behind))
      (.error head (before ++ behind))
  | bound (head : Option α) (before behind : List α) (body : Option α) :
    Loses x (.bound before.length) (.binding head (before ++ x :: behind) body)
      (.binding head (before ++ behind) body)
  | bindingHead (bound : List α) (body : Option α) :
    Loses x .head (.binding (some x) bound body) (.binding none bound body)
  | errorHead (children : List α) : Loses x .head (.error (some x) children) (.error none children)
  | body (head : Option α) (bound : List α) :
    Loses x .body (.binding head bound (some x)) (.binding head bound none)

/-- A node, and the same without the node `x`, which was at a location. -/
inductive Node.Loses (x : NodeId) : Location → Node → Node → Prop
  | part {l : Location} {c c' : Content NodeId} (h : c.Loses x l c')
    (as : List (Symbol × NodeId)) (parent : Option NodeId) :
    Loses x l ⟨c, as, parent⟩ ⟨c', as, parent⟩
  | attribute (key : Symbol) (c : Content NodeId) (before behind : List (Symbol × NodeId))
    (parent : Option NodeId) :
    Loses x (.attr key) ⟨c, before ++ (key, x) :: behind, parent⟩ ⟨c, before ++ behind, parent⟩

theorem exists_splice {α : Type} {xs ys : List α} {x : α} {i : Nat} (hx : xs[i]? = some x)
    (hw : writeItem? xs i none = some ys) :
    ∃ before behind, before.length = i ∧ xs = before ++ x :: behind ∧ ys = before ++ behind := by
  obtain ⟨hi, rfl⟩ := List.getElem?_eq_some_iff.1 hx
  rw [writeItem?, if_pos hi] at hw
  cases hw
  refine ⟨xs.take i, xs.drop (i + 1), by simp; omega, ?_, List.eraseIdx_eq_take_drop_succ ..⟩
  rw [List.getElem_cons_drop, List.take_append_drop]

/-- Emptying the slot in which a part is takes out that part. -/
theorem Content.loses_of_write? {c c' : Content NodeId} {x : NodeId} {l : Location}
    (hx : (⟨c, [], none⟩ : Node).at? l = some x) (hw : c.write? l none = some c') :
    c.Loses x l c' := by
  cases l with
  | child i =>
    cases c with
    | application cs =>
      obtain ⟨ys, hys, rfl⟩ := Option.map_eq_some_iff.1 hw
      obtain ⟨before, behind, rfl, rfl, rfl⟩ := exists_splice hx hys
      exact .operand before behind
    | error hd cs =>
      obtain ⟨ys, hys, rfl⟩ := Option.map_eq_some_iff.1 hw
      obtain ⟨before, behind, rfl, rfl, rfl⟩ := exists_splice hx hys
      exact .errorChild hd before behind
    | _ => cases hw
  | bound i =>
    cases c with
    | binding hd vs b =>
      obtain ⟨ys, hys, rfl⟩ := Option.map_eq_some_iff.1 hw
      obtain ⟨before, behind, rfl, rfl, rfl⟩ := exists_splice hx hys
      exact .bound hd before behind b
    | _ => cases hw
  | head =>
    have hh : c.head? = some x := hx
    cases c with
    | binding hd vs b =>
      cases hh
      cases hw
      exact .bindingHead vs b
    | error hd cs =>
      cases hh
      cases hw
      exact .errorHead cs
    | _ => cases hw
  | body =>
    have hb : c.body? = some x := hx
    cases c with
    | binding hd vs b =>
      cases hb
      cases hw
      exact .body hd vs
    | _ => cases hw
  | attr key => cases hx

/-- Emptying the slot in which a node is takes out that node. -/
theorem Node.loses_of_write? {n m : Node} {x : NodeId} {l : Location} (hk : n.Keyed)
    (hs : ⟨l.role, x⟩ ∈ n.slots) (hx : n.at? l = some x) (hw : n.write? l none = some m) :
    n.Loses x l m := by
  obtain ⟨c, as, p⟩ := n
  cases l with
  | attr key =>
    obtain ⟨bs, hbs, rfl⟩ := Option.map_eq_some_iff.1 hw
    obtain ⟨i, hi, hbs⟩ := Option.bind_eq_some_iff.1 hbs
    cases hbs
    obtain ⟨hlt, hkey, -⟩ := List.findIdx?_eq_some_iff_getElem.1 hi
    -- the entry that is found has the very key that was asked for, as no other one agrees
    have hentry : as[i] = (key, x) := by
      rcases List.mem_append.1 hs with hs | hs
      · exact absurd rfl (Content.role_ne_attr hs key)
      · obtain ⟨e, he, hr⟩ := List.mem_map.1 hs
        cases hr
        exact Keyed.eq_of_sameKey hk (List.getElem_mem hlt) he hkey
    have has : as = as.take i ++ (key, x) :: as.drop (i + 1) := by
      rw [← hentry, List.getElem_cons_drop, List.take_append_drop]
    rw [List.eraseIdx_eq_take_drop_succ]
    conv => arg 3; rw [has]
    exact .attribute key c _ _ p
  | child | bound | head | body =>
    obtain ⟨c', hc', rfl⟩ := Option.map_eq_some_iff.1 hw
    exact .part (Content.loses_of_write? hx hc') as p

/-! ## Detaching -/

namespace Arena

variable {a b : Arena} {id p x : NodeId} {l : Location} {n : Node}

/-- What there is after `id` was taken out of the slot `l` of `p`. -/
structure Removed (a b : Arena) (id p : NodeId) (l : Location) : Prop where
  root : b.parent? id = none
  /-- the node keeps its kind, its slots and its attributes, and all that is inside -/
  node : ∃ n, a.node? id = some n ∧ b.node? id = some { n with parent := none }
  subtree : b.tree? id = a.tree? id
  /-- the owner loses the slot in which the node was, and that alone -/
  owner : ∃ n m, a.node? p = some n ∧ b.node? p = some m ∧ n.Loses id l m
  /-- the node is in no slot of the arena any more -/
  gone : ∀ x m, b.node? x = some m → ∀ s ∈ m.slots, s.content ≠ id
  kept : ∀ x, x ≠ id → x ≠ p → b.node? x = a.node? x

/-- An attached node is detached, and that is all that happens. -/
theorem Wf.removed (w : a.Wf) (hp : a.parent? id = some p) :
    ∃ b l, a.remove id = (true, b) ∧ a.location? id = some l ∧ Removed a b id p l := by
  obtain ⟨b, hb, hcut, -⟩ := w.remove_attached hp
  obtain ⟨n, l, hn, hl, hsits⟩ := w.locationIn?_spec hp
  have hd : Detached id a b := by
    have := w.remove id
    rwa [hb] at this
  have hat : n.at? l = some id :=
    Node.at?_location? (w.keyed hn) (by simpa [locationIn?, hn] using hl)
  have hne : id ≠ p := w.acyclic.parent?_ne hp
  obtain ⟨k, hk, -⟩ := node?_of_parent? hp
  refine ⟨b, l, hb, by simp [location?, hp, hl], hd.parent?_self, ⟨k, hk, ?_⟩, ?_, ?_, ?_, ?_⟩
  · rw [hcut id, hk, Option.map_some, Arena.cut, if_neg fun e => hne (Option.some.inj e).symm, if_pos rfl]
  · obtain ⟨t, ht⟩ := w.exists_tree hk
    rw [ht]
    refine tree?_congr ht fun x hx m hm => ⟨_, by rw [hcut x, hm]; rfl, kind_cut .., ?_⟩
    have hx' : some p ≠ some x := fun e =>
      w.acyclic.not_under hp (Option.some.inj e ▸ (w.mem_labels ht).1 hx)
    rw [Arena.cut, if_neg hx']
    split_ifs <;> rfl
  · refine ⟨n, n.without id, hn, ?_, Node.loses_of_write? (w.keyed hn) hsits.mem hat hsits.empty⟩
    rw [hcut p, hn, Option.map_some, Arena.cut, if_pos rfl]
  · intro x m hm s hs he
    have hparent := hd.wf.parent?_of_mem hm (he ▸ Node.mem_owned_of_slot hs)
    cases hd.parent?_self.symm.trans hparent
  · intro x hxi hxp
    rw [hcut x]
    cases a.node? x with
    | none => rfl
    | some m => rw [Option.map_some, Arena.cut, if_neg fun e => hxp (Option.some.inj e).symm, if_neg hxi]

/-- A node is detached exactly if it is there and attached.  It becomes a root with all that
    is inside of it, its slot is emptied, and every other node is as it was; otherwise
    nothing changes. -/
theorem Reachable.remove_detaches (h : a.Reachable) (id : NodeId) :
    ((a.remove id).1 = true ↔ a.contains id = true ∧ ∃ p, a.parent? id = some p) ∧
      ((a.remove id).1 = true → ∃ p l, a.parent? id = some p ∧ a.location? id = some l ∧
        Removed a (a.remove id).2 id p l) ∧
      ((a.remove id).1 = false → (a.remove id).2 = a) := by
  cases hp : a.parent? id with
  | none =>
    rw [remove_root hp]
    refine ⟨iff_of_false Bool.false_ne_true ?_, nofun, fun _ => rfl⟩
    rintro ⟨-, p, ⟨⟩⟩
  | some p =>
    obtain ⟨b, l, hb, hl, hr⟩ := h.wf.removed hp
    obtain ⟨n, hn, -⟩ := node?_of_parent? hp
    rw [hb]
    exact ⟨iff_of_true rfl ⟨contains_iff.2 ⟨n, hn⟩, p, rfl⟩, fun _ => ⟨p, l, rfl, hl, hr⟩, nofun⟩

/-- The operator of an application is detached, and the operand moves up. -/
theorem remove_detaches_applied :
    ∃ b, applied.remove 0 = (true, b) ∧ Removed applied b 0 2 (.child 0) ∧ b.compact 2 = "x()" := by
  obtain ⟨hok, hrem, -⟩ := reachable_applied.remove_detaches 0
  obtain ⟨p, l, hp, hl, hb⟩ := hrem (hok.2 ⟨rfl, 2, rfl⟩)
  cases hp.symm.trans (rfl : applied.parent? 0 = some 2)
  cases hl.symm.trans (rfl : applied.location? 0 = some (.child 0))
  exact ⟨_, Prod.ext (hok.2 ⟨rfl, 2, rfl⟩) rfl, hb, by cbv⟩

end Arena

end OpenMath
