/-
  How a text is cut into tokens.

  A text is cut into lexemes one behind another, each the longest that its place
  has.  The offsets that are gone through are the ends of the lexemes, so that
  no character is ever cut.

  * `Lexeme.exists_closed`: a lexeme goes on until a token ends;
  * `scan_eq_none_iff`: where no token is found;
  * `Partition`: the lexemes that the front of a text is cut into;
  * `Stuck`: the places where no token starts;
  * `exists_partition`: every text is cut up to its end or to such a place;
  * `run_start`: the offsets lead to the same tokens;
  * `ofChars_partition`: what the tokens of a text are, and what is said where there are none.
-/
import OpenMath.Compact.Offsets
import OpenMath.Proofs.Compact.Scanning

namespace OpenMath.Token

variable {t t' : Token} {l l' cs rest rest' : List Char}

/-! ## The longest lexeme -/

theorem isWord_append {w v : List Char} (hw : isWord w = true) (hv : ∀ c ∈ v, isWordPart c = true) :
    isWord (w ++ v) = true := by
  cases w with
  | nil => cases hw
  | cons c cs =>
    simp only [isWord, Bool.and_eq_true, List.all_eq_true] at hw
    simp only [List.cons_append, isWord, Bool.and_eq_true, List.all_eq_true]
    exact ⟨hw.1, List.forall_mem_append.2 ⟨hw.2, hv⟩⟩

/-- A lexeme goes on, as one of the same token or of another, until a token ends. -/
theorem Lexeme.exists_closed (h : Lexeme t l) (rest : List Char) :
    ∃ t' l' rest', l ++ rest = l' ++ rest' ∧ l.length ≤ l'.length ∧ Lexeme t' l' ∧
      Closed t' rest' := by
  cases h with
  | @symbol cd name cdOk nameOk =>
    obtain ⟨v, r, rfl, hv, hends⟩ := exists_span isWordPart rest
    exact ⟨_, _, r, by simp, by simp, .symbol cdOk (isWord_append nameOk hv), hends⟩
  | var wordOk =>
    obtain ⟨v, r, rfl, hv, hends⟩ := exists_span isWordPart rest
    have hword := isWord_append wordOk hv
    by_cases hsymbol : ∃ c s, r = '.' :: c :: s ∧ isWordStart c = true
    · obtain ⟨c, s, rfl, hc⟩ := hsymbol
      obtain ⟨u, s', rfl, hu, hends'⟩ := exists_span isWordPart s
      have hname : isWord (c :: u) = true := isWord_append (w := [c]) (by simp [isWord, hc]) hu
      exact ⟨_, _, s', by simp, by simp, .symbol hword hname, hends'⟩
    · refine ⟨_, _, r, by simp, by simp, .var hword, hends, fun c s e => ?_⟩
      rw [← Bool.not_eq_true]
      exact fun hc => hsymbol ⟨c, s, e, hc⟩
  | @float sign whole frac signOk wholeOk fracOk ne_nil =>
    obtain ⟨v, r, rfl, hv, hends⟩ := exists_span Char.isDigit rest
    refine ⟨_, _, r, by simp, by simp,
      .float signOk wholeOk (List.forall_mem_append.2 ⟨fracOk, hv⟩) ?_, hends⟩
    exact ne_nil.imp_right fun hne => List.append_ne_nil_of_left_ne_nil hne v
  | @integer sign ds signOk digitsOk ne_nil =>
    obtain ⟨v, r, rfl, hv, hends⟩ := exists_span Char.isDigit rest
    have hdigits := List.forall_mem_append.2 ⟨digitsOk, hv⟩
    have hne := List.append_ne_nil_of_left_ne_nil ne_nil v
    by_cases hfloat : ∃ s, r = '.' :: s
    · obtain ⟨s, rfl⟩ := hfloat
      obtain ⟨u, s', rfl, hu, hends'⟩ := exists_span Char.isDigit s
      exact ⟨_, _, s', by simp, by simp, .float signOk hdigits hu (.inl hne), hends'⟩
    · exact ⟨_, _, r, by simp, by simp, .integer signOk hdigits hne, hends,
        fun s e => hfloat ⟨s, e⟩⟩
  | string quoteOk piecesOk => exact ⟨_, _, rest, rfl, le_rfl, .string quoteOk piecesOk, trivial⟩
  | comma => exact ⟨_, _, rest, rfl, le_rfl, .comma, trivial⟩
  | openParen => exact ⟨_, _, rest, rfl, le_rfl, .openParen, trivial⟩
  | closeParen => exact ⟨_, _, rest, rfl, le_rfl, .closeParen, trivial⟩
  | openBracket => exact ⟨_, _, rest, rfl, le_rfl, .openBracket, trivial⟩
  | closeBracket => exact ⟨_, _, rest, rfl, le_rfl, .closeBracket, trivial⟩

/-- No token is found where no lexeme stands. -/
theorem scan_eq_none_iff : scan cs = none ↔ ∀ t l, Lexeme t l → ¬ l <+: cs := by
  constructor
  · rintro h t l hl ⟨r, rfl⟩
    obtain ⟨t', l', r', e, -, hl', hc⟩ := hl.exists_closed r
    rw [e, scan_of_lexeme hl' hc] at h
    cases h
  · intro h
    refine Option.eq_none_iff_forall_ne_some.2 fun ⟨t, rest⟩ hs => ?_
    obtain ⟨l, rfl, hl, -⟩ := startsWith_of_scan hs
    exact h t l hl (List.prefix_append l rest)

theorem length_le_of_closed (hl : Lexeme t l) (hc : Closed t rest) (hl' : Lexeme t' l')
    (hp : l' <+: l ++ rest) : l'.length ≤ l.length := by
  obtain ⟨r, e⟩ := hp
  obtain ⟨u, m, s, e', hle, hm, hmc⟩ := hl'.exists_closed r
  -- both the given lexeme and the one that `l'` goes on to are what is found there
  have hscan := scan_of_lexeme hl hc
  rw [← e, e', scan_of_lexeme hm hmc, Option.some.injEq, Prod.mk.injEq] at hscan
  obtain ⟨-, rfl⟩ := hscan
  have hlength := congrArg List.length (e'.symm.trans e)
  simp only [List.length_append] at hlength
  omega

/-! ## Partitions -/

/-- The text of lexemes. -/
def written (ps : List (Token × List Char)) : List Char := ps.flatMap Prod.snd

/-- The front of a text is cut into lexemes one behind another, up to a rest. -/
structure Partition (cs : List Char) (ps : List (Token × List Char)) (rest : List Char) : Prop where
  append : written ps ++ rest = cs
  lexeme : ∀ p ∈ ps, Lexeme p.1 p.2
  /-- Nothing carries a lexeme on. -/
  closed : ∀ before p after, ps = before ++ p :: after → Closed p.1 (written after ++ rest)
  /-- No lexeme of any token that stands in the same place is longer. -/
  longest : ∀ before p after, ps = before ++ p :: after →
    ∀ t l, Lexeme t l → l <+: p.2 ++ (written after ++ rest) → l.length ≤ p.2.length

variable {ps ps' : List (Token × List Char)}

theorem partition_nil (rest : List Char) : Partition rest [] rest where
  append := rfl
  lexeme := nofun
  closed before p after e := by simp at e
  longest before p after e := by simp at e

/-- A lexeme that ends where a partition begins is the first of a longer partition. -/
theorem Partition.cons (h : Partition cs ps rest) (hl : Lexeme t l) (hc : Closed t cs) :
    Partition (l ++ cs) ((t, l) :: ps) rest where
  append := by
    rw [← h.append, written, List.flatMap_cons, List.append_assoc]
    rfl
  lexeme := List.forall_mem_cons.2 ⟨hl, h.lexeme⟩
  closed before p after e := by
    cases before with
    | nil =>
      obtain ⟨rfl, rfl⟩ := List.cons.inj e
      rwa [h.append]
    | cons q qs => exact h.closed qs p after (List.cons.inj e).2
  longest before p after e t' l' hl' hp := by
    cases before with
    | nil =>
      obtain ⟨rfl, rfl⟩ := List.cons.inj e
      rw [h.append] at hp
      exact length_le_of_closed hl hc hl' hp
    | cons q qs => exact h.longest qs p after (List.cons.inj e).2 t' l' hl' hp

theorem Partition.exists_tail (h : Partition cs ((t, l) :: ps) rest) :
    ∃ cs', scan cs = some (t, cs') ∧ cs = l ++ cs' ∧ Partition cs' ps rest := by
  have hl : Lexeme t l := h.lexeme (t, l) (List.mem_cons_self ..)
  have hc : Closed t (written ps ++ rest) := h.closed [] (t, l) ps rfl
  have e : cs = l ++ (written ps ++ rest) := by
    rw [← h.append, written, List.flatMap_cons, List.append_assoc]
    rfl
  refine ⟨written ps ++ rest, by rw [e, scan_of_lexeme hl hc], e, rfl, ?_, ?_, ?_⟩
  · exact fun p hp => h.lexeme p (List.mem_cons_of_mem _ hp)
  · exact fun before p after e => h.closed ((t, l) :: before) p after (by rw [e]; rfl)
  · exact fun before p after e => h.longest ((t, l) :: before) p after (by rw [e]; rfl)

theorem Partition.ofChars_eq (h : Partition cs ps rest) :
    ofChars cs = (ofChars rest).map (ps.map Prod.fst ++ ·) := by
  induction ps generalizing cs with
  | nil =>
    obtain rfl : rest = cs := h.append
    cases ofChars rest <;> rfl
  | cons p ps ih =>
    obtain ⟨t, l⟩ := p
    obtain ⟨cs', hscan, -, htail⟩ := h.exists_tail
    rw [ofChars_scan hscan, ih htail]
    cases ofChars rest <;> rfl

/-- A partition that ends where no token starts begins with every other partition. -/
theorem Partition.prefix_of_scan_eq_none (h : Partition cs ps rest) (hnone : scan rest = none)
    (h' : Partition cs ps' rest') : ps' <+: ps := by
  induction ps' generalizing cs ps with
  | nil => exact List.nil_prefix
  | cons p' ps' ih =>
    obtain ⟨t', l'⟩ := p'
    obtain ⟨cs', hscan', e', htail'⟩ := h'.exists_tail
    cases ps with
    | nil =>
      obtain rfl : rest = cs := h.append
      rw [hnone] at hscan'
      cases hscan'
    | cons p ps =>
      obtain ⟨t, l⟩ := p
      obtain ⟨cs'', hscan, e, htail⟩ := h.exists_tail
      rw [hscan] at hscan'
      cases hscan'
      obtain rfl : l = l' := List.append_cancel_right (e.symm.trans e')
      exact (List.prefix_cons_inj _).2 (ih htail htail')

/-! ## Places without a token -/

/-- Something is left, but no token starts there. -/
structure Stuck (cs : List Char) : Prop where
  ne_nil : cs ≠ []
  not_prefix : ∀ t l, Lexeme t l → ¬ l <+: cs

theorem Stuck.scan_eq_none (h : Stuck cs) : scan cs = none := scan_eq_none_iff.2 h.not_prefix

/-- What is said of a place where no token starts: its first characters, eleven if there are as many. -/
def stuckError (cs : List Char) : Error :=
  .unreadable (.noToken (String.ofList (cs.take (min 11 cs.length))))

theorem take_shownLength (cs : List Char) : cs.take shownLength = cs.take (min 11 cs.length) := by
  rw [shownLength, List.take_eq_take_iff]
  omega

theorem Stuck.ofChars_eq (h : Stuck cs) : ofChars cs = .error (stuckError cs) := by
  rw [ofChars_none h.ne_nil h.scan_eq_none, take_shownLength]
  rfl

/-- Every text is cut up to its end, or up to a place where no token starts. -/
theorem exists_partition (cs : List Char) :
    ∃ ps rest, Partition cs ps rest ∧ (rest = [] ∨ Stuck rest) := by
  fun_induction ofChars cs with
  | case1 cs he => exact ⟨[], cs, partition_nil cs, .inl (List.isEmpty_iff.1 he)⟩
  | case2 cs he t rest hs ih =>
    obtain ⟨ps, rest', hp, hend⟩ := ih
    obtain ⟨l, rfl, hl, hc⟩ := startsWith_of_scan hs
    exact ⟨(t, l) :: ps, rest', hp.cons hl hc, hend⟩
  | case3 cs he hs =>
    refine ⟨[], cs, partition_nil cs, .inr ⟨fun e => he (by rw [e]; rfl), ?_⟩⟩
    exact scan_eq_none_iff.1 hs

theorem ofChars_eq_ok_iff {ts : List Token} :
    ofChars cs = .ok ts ↔ ∃ ps, Partition cs ps [] ∧ ps.map Prod.fst = ts := by
  constructor
  · intro h
    obtain ⟨ps, rest, hp, rfl | hstuck⟩ := exists_partition cs
    · rw [hp.ofChars_eq, ofChars_nil] at h
      cases h
      exact ⟨ps, hp, (List.append_nil _).symm⟩
    · rw [hp.ofChars_eq, hstuck.ofChars_eq] at h
      cases h
  · rintro ⟨ps, hp, rfl⟩
    rw [hp.ofChars_eq, ofChars_nil]
    exact congrArg Except.ok (List.append_nil _)

theorem ofChars_eq_error_iff {e : Error} :
    ofChars cs = .error e ↔ ∃ ps rest, Partition cs ps rest ∧ Stuck rest ∧ e = stuckError rest := by
  constructor
  · intro h
    obtain ⟨ps, rest, hp, rfl | hstuck⟩ := exists_partition cs
    · rw [hp.ofChars_eq, ofChars_nil] at h
      cases h
    · rw [hp.ofChars_eq, hstuck.ofChars_eq] at h
      cases h
      exact ⟨ps, rest, hp, hstuck, rfl⟩
  · rintro ⟨ps, rest, hp, hstuck, rfl⟩
    rw [hp.ofChars_eq, hstuck.ofChars_eq]
    rfl

/-! ## Offsets -/

theorem charsFrom?_append (cs rest : List Char) :
    charsFrom? (String.ofList (cs ++ rest)) (byteLength cs) = some rest := by
  have hvalid : String.Pos.Raw.IsValid (String.ofList (cs ++ rest)) ⟨byteLength cs⟩ :=
    String.Pos.Raw.isValid_iff_exists_append.2
      ⟨String.ofList cs, String.ofList rest, String.ofList_append, rfl⟩
  have hsplits : String.Pos.Splits (s := String.ofList (cs ++ rest)) ⟨⟨byteLength cs⟩, hvalid⟩
      (String.ofList cs) (String.ofList rest) := ⟨String.ofList_append, rfl⟩
  rw [charsFrom?, dif_pos hvalid, hsplits.copy_sliceFrom_eq, String.toList_ofList]

theorem byteLength_append (cs rest : List Char) :
    byteLength (cs ++ rest) = byteLength cs + byteLength rest := by
  rw [byteLength, String.ofList_append, String.utf8ByteSize_append]
  rfl

theorem byteLength_pos (h : cs ≠ []) : 0 < byteLength cs := by
  rw [byteLength, Nat.pos_iff_ne_zero, Ne, String.utf8ByteSize_eq_zero_iff]
  exact fun e => h (by rw [← String.toList_ofList (l := cs), e]; rfl)

theorem Lexeme.ne_nil (h : Lexeme t l) : l ≠ [] := by
  rintro rfl
  have hscan : scan [] = none := rfl
  exact scan_eq_none_iff.1 hscan t [] h (List.nil_prefix)

theorem consume_append (hl : Lexeme t l) (hc : Closed t rest) :
    consume (l ++ rest) = some (t, byteLength l) := by
  rw [consume, scan_of_lexeme hl hc, Option.map_some]
  simp only [byteLength_append, Nat.add_sub_cancel_right]

/-- The cursor behind the first part of a text. -/
def cursorAt (cs rest : List Char) (ts : List Token) : Cursor :=
  ⟨String.ofList (cs ++ rest), byteLength cs, ts⟩

theorem charsFrom?_cursorAt (cs rest : List Char) (ts : List Token) :
    charsFrom? (cursorAt cs rest ts).text (cursorAt cs rest ts).offset = some rest :=
  charsFrom?_append cs rest

theorem offset_cursorAt_lt (cs : List Char) (ts : List Token) (hne : rest ≠ []) :
    (cursorAt cs rest ts).offset < (cursorAt cs rest ts).text.utf8ByteSize := by
  have hsize : (cursorAt cs rest ts).text.utf8ByteSize = byteLength cs + byteLength rest :=
    byteLength_append cs rest
  rw [hsize]
  exact Nat.lt_add_of_pos_right (byteLength_pos hne)

theorem run_end (cs : List Char) (ts : List Token) : (cursorAt cs [] ts).run = some (.ok ts) := by
  rw [Cursor.run, cursorAt, List.append_nil, byteLength, if_neg (lt_irrefl _)]

theorem pass_cursorAt (cs l rest : List Char) (ts : List Token) (t : Token) :
    (cursorAt cs (l ++ rest) ts).pass t (byteLength l) = cursorAt (cs ++ l) rest (ts ++ [t]) := by
  rw [cursorAt, cursorAt, Cursor.pass, ← byteLength_append, List.append_assoc]

theorem run_lexeme (cs : List Char) (ts : List Token) (hl : Lexeme t l) (hc : Closed t rest) :
    (cursorAt cs (l ++ rest) ts).run = (cursorAt (cs ++ l) rest (ts ++ [t])).run := by
  have hmore := offset_cursorAt_lt cs ts (List.append_ne_nil_of_left_ne_nil hl.ne_nil rest)
  rw [← pass_cursorAt]
  conv_lhs => rw [Cursor.run]
  rw [if_pos hmore, charsFrom?_cursorAt, Option.bind_eq_bind, Option.bind_some,
    consume_append hl hc]
  exact if_pos (byteLength_pos hl.ne_nil)

theorem run_none (cs : List Char) (ts : List Token) (hne : rest ≠ []) (h : scan rest = none) :
    (cursorAt cs rest ts).run =
      some (.error (.unreadable (.noToken (String.ofList (rest.take shownLength))))) := by
  rw [Cursor.run, if_pos (offset_cursorAt_lt cs ts hne), charsFrom?_cursorAt, Option.bind_eq_bind,
    Option.bind_some, consume, h, Option.map_none]

/-- Behind the first part of a text the same is found by offsets as in the rest. -/
theorem run_cursorAt (cs rest : List Char) (ts : List Token) :
    (cursorAt cs rest ts).run = some ((ofChars rest).map (ts ++ ·)) := by
  fun_induction ofChars rest generalizing cs ts with
  | case1 rest he =>
    rw [List.isEmpty_iff.1 he, run_end]
    exact congrArg (some ∘ Except.ok) (List.append_nil ts).symm
  | case2 rest he t rest' hs ih =>
    obtain ⟨l, rfl, hl, hc⟩ := startsWith_of_scan hs
    rw [run_lexeme cs ts hl hc, ih]
    cases ofChars rest' with
    | ok us => exact congrArg (some ∘ Except.ok) (List.append_cons ts t us).symm
    | error e => rfl
  | case3 rest he hs => exact run_none cs ts (by simpa using he) hs

/-- By offsets the tokens of a text are found, and the end is reached without cutting a
    character. -/
theorem run_start (text : String) : (Cursor.start text).run = some (ofChars text.toList) := by
  have hstart : Cursor.start text = cursorAt [] text.toList [] := by
    rw [cursorAt, List.nil_append, String.ofList_toList]
    rfl
  rw [hstart, run_cursorAt]
  cases ofChars text.toList <;> rfl

/-- The tokens of a text are those of the one partition into lexemes that it has: each lexeme is one of
    its token and the longest in its place, and nothing carries it on.  If there are
    no tokens, the message shows the first characters of the place that the partition leads to and
    where no token starts. -/
theorem ofChars_partition (text : String) :
    (Cursor.start text).run = some (ofChars text.toList) ∧
      (∀ ts, ofChars text.toList = .ok ts ↔
        ∃ ps, Partition text.toList ps [] ∧ ps.map Prod.fst = ts) ∧
      (∀ e, ofChars text.toList = .error e ↔
        ∃ ps rest, Partition text.toList ps rest ∧ Stuck rest ∧ e = stuckError rest ∧
          e.reason = "Could not understand from here: " ++
            String.ofList (rest.take (min 11 rest.length))) ∧
      (∀ ps rest, Partition text.toList ps rest → rest = [] ∨ Stuck rest →
        ∀ ps' rest', Partition text.toList ps' rest' → ps' <+: ps) := by
  refine ⟨run_start text, fun _ => ofChars_eq_ok_iff, fun e => ?_, ?_⟩
  · constructor
    · intro h
      obtain ⟨ps, rest, hp, hstuck, rfl⟩ := ofChars_eq_error_iff.1 h
      exact ⟨ps, rest, hp, hstuck, rfl, rfl⟩
    · rintro ⟨ps, rest, hp, hstuck, he, -⟩
      exact ofChars_eq_error_iff.2 ⟨ps, rest, hp, hstuck, he⟩
  · intro ps rest h hend ps' rest' h'
    refine h.prefix_of_scan_eq_none ?_ h'
    obtain rfl | hstuck := hend
    · rfl
    · exact hstuck.scan_eq_none

end OpenMath.Token
