import SimpleLang.Proofs.Lowering.Skeleton
import SimpleLang.Proofs.Parser.Progress
import SimpleLang.Proofs.Parser.Respects

/-!
# Two parsers in lockstep

Two parsers that see the same lexemes take the same course, on whatever sources and at whatever
places the lexemes stand.

* `Lockstep S R p q`: from states that `S` relates the parsers end alike, in states that `S`
  relates, with results that `R` relates. It is respected by sequencing, whatever `S` is.
* `State.Alike`: the states of two parsers that have seen the same lexemes. The tokens and the
  errors of both are related, and one cursor may be further from its start than the other.
* `lockstep_enter`, `lockstep_program`: all of the parser runs in lockstep from such states, and the
  nodes that are built have the same skeletons.

What stood before the first token of a parser does not matter to it: the lexeme before the cursor is
asked for only behind a malformed statement, and a statement that has not moved the cursor stands
before a closing brace or the end, where no tokens are skipped anyway.
-/

namespace SimpleLang

/-- The tokens of two sources are the same but for where they stand. -/
structure Token.SameIn (source source' : String) (t t' : Token) : Prop where
  lexeme : t.lexeme = t'.lexeme
  excerpt : t.span.excerpt source = t'.span.excerpt source'

namespace Parser

/-! ## Lockstep -/

section Lockstep

variable {α β α' β' : Type} {S : State → State → Prop} {R : α → β → Prop} {R' : α' → β' → Prop}

/-- Two outcomes of one kind, with states and results that are related. -/
inductive Outcomes (S : State → State → Prop) (R : α → β → Prop) :
    EStateM.Result Stopped State α → EStateM.Result Stopped State β → Prop where
  | ok {a : α} {b : β} {s s' : State} (hresult : R a b) (hstate : S s s') :
    Outcomes S R (.ok a s) (.ok b s')
  | error {e : Stopped} {s s' : State} (hstate : S s s') : Outcomes S R (.error e s) (.error e s')

/-- An `Outcomes` as a disjunction of equations, to rewrite runs with. -/
theorem Outcomes.cases {r : EStateM.Result Stopped State α} {r' : EStateM.Result Stopped State β}
    (h : Outcomes S R r r') :
    (∃ a b s s', r = .ok a s ∧ r' = .ok b s' ∧ R a b ∧ S s s') ∨
      ∃ e s s', r = .error e s ∧ r' = .error e s' ∧ S s s' := by
  cases h with
  | ok hresult hstate => exact .inl ⟨_, _, _, _, rfl, rfl, hresult, hstate⟩
  | error hstate => exact .inr ⟨_, _, _, rfl, rfl, hstate⟩

/-- From related states the parsers have related outcomes. `S` is not `Eq`: the tokens may stand at
other places, and one parser may have started further on. -/
def Lockstep (S : State → State → Prop) (R : α → β → Prop) (p : Parser α) (q : Parser β) : Prop :=
  ∀ s s', S s s' → Outcomes S R (p s) (q s')

theorem Lockstep.pure {a : α} {b : β} (h : R a b) :
    Lockstep S R (Pure.pure a) (Pure.pure b) := fun _ _ hs => .ok h hs

theorem Lockstep.get : Lockstep S S get get := fun _ _ hs => .ok hs hs

/-- What follows two outcomes of one kind. The continuation may use that the first parser ended in
`t`, which is more than `Lockstep.bind` gives it. -/
theorem Outcomes.bind {p : Parser α} {q : Parser β} {f : α → Parser α'} {g : β → Parser β'}
    {s s' : State} (h : Outcomes S R (p s) (q s'))
    (hf : ∀ a b t t', p s = .ok a t → R a b → S t t' → Outcomes S R' (f a t) (g b t')) :
    Outcomes S R' ((p >>= f) s) ((q >>= g) s') := by
  show Outcomes S R' (EStateM.bind p f s) (EStateM.bind q g s')
  rw [EStateM.bind, EStateM.bind]
  rcases h.cases with ⟨a, b, t, t', hp, hq, hresult, ht⟩ | ⟨e, t, t', hp, hq, ht⟩
  · rw [hp, hq]
    exact hf a b t t' hp hresult ht
  · rw [hp, hq]
    exact .error ht

/-- `Lockstep` is kept by sequencing, whatever `S` is. -/
theorem Lockstep.bind {p : Parser α} {q : Parser β} {f : α → Parser α'} {g : β → Parser β'}
    (h : Lockstep S R p q) (hf : ∀ a b, R a b → Lockstep S R' (f a) (g b)) :
    Lockstep S R' (p >>= f) (q >>= g) :=
  fun s s' hs => (h s s' hs).bind fun a b t t' _ hresult ht => hf a b hresult t t' ht

/-! ### States with the same lexemes -/

/-- Related states have the same lexemes at the cursor and behind it. This is all that looking ahead
needs. -/
def SeesLexemes (S : State → State → Prop) : Prop :=
  ∀ s s', S s s' →
    s.current.lexeme = s'.current.lexeme ∧ s.ahead.map Token.lexeme = s'.ahead.map Token.lexeme

theorem SeesLexemes.length (h : SeesLexemes S) {s s' : State} (hs : S s s') :
    s.ahead.length = s'.ahead.length := by
  have hlength := congrArg List.length (h _ _ hs).2
  rwa [List.length_map, List.length_map] at hlength

/-- The lexeme at the cursor is the same, so both parsers branch in the same way. -/
theorem lockstep_peek (h : SeesLexemes S) : Lockstep S Eq peek peek :=
  Lockstep.get.bind fun _ _ hs => .pure (h _ _ hs).1

/-- The second lexeme is the head of the tokens behind the cursor, or the current one if there are
none. -/
theorem lockstep_peekSecond (h : SeesLexemes S) : Lockstep S Eq peekSecond peekSecond := by
  refine Lockstep.get.bind fun s s' hs => .pure ?_
  obtain ⟨hcurrent, hahead⟩ := h _ _ hs
  cases hs : s.ahead with
  | nil =>
    rw [hs] at hahead
    rw [List.map_eq_nil_iff.mp hahead.symm]
    exact hcurrent
  | cons t ts =>
    rw [hs] at hahead
    obtain ⟨t', ts', hs', ht, -⟩ := List.map_eq_cons_iff.mp hahead.symm
    rw [hs']
    exact ht.symm

/-- `opensLambda` sees lexemes only (`opensLambda_congr`), so both parsers choose the same
branch. -/
theorem lockstep_lambda (h : SeesLexemes S) {p q : Parser α} {p' q' : Parser β}
    (hp : Lockstep S R p p') (hq : Lockstep S R q q') :
    Lockstep S R (do if opensLambda (← MonadState.get).ahead then p else q)
      (do if opensLambda (← MonadState.get).ahead then p' else q') := by
  refine Lockstep.get.bind fun s s' hs => ?_
  rw [opensLambda_congr (h _ _ hs).2]
  split
  · exact hp
  · exact hq

variable {N : Node → Node → Prop}

/-- `rounds` by induction on the bound. The bounds need not be the same, only of one length, since
their tokens are not looked at. -/
theorem lockstep_rounds (h : SeesLexemes S) {more : Lexeme → Bool}
    {round round' : Parser (List Node)} (hround : Lockstep S (List.Forall₂ N) round round')
    {bound bound' : List Token} (hbound : bound.length = bound'.length) :
    Lockstep S (List.Forall₂ N) (rounds more round bound) (rounds more round' bound') := by
  induction bound generalizing bound' with
  | nil =>
    obtain rfl := List.eq_nil_of_length_eq_zero hbound.symm
    exact .pure .nil
  | cons t bound ih =>
    obtain ⟨t', bound', rfl⟩ := List.exists_cons_of_length_eq_add_one hbound.symm
    refine (lockstep_peek h).bind ?_
    rintro l _ rfl
    split
    · refine hround.bind fun first first' hfirst => ?_
      refine (ih (Nat.succ.inj hbound)).bind fun others others' hothers => .pure ?_
      exact List.rel_append hfirst hothers
    · exact .pure .nil

/-- The tokens ahead are as many on both sides (`SeesLexemes.length`), so the bounds are of one
length. -/
theorem lockstep_repeatWhile (h : SeesLexemes S) {more : Lexeme → Bool}
    {round round' : Parser (List Node)} (hround : Lockstep S (List.Forall₂ N) round round') :
    Lockstep S (List.Forall₂ N) (repeatWhile more round) (repeatWhile more round') :=
  Lockstep.get.bind fun _ _ hs => lockstep_rounds h hround (h.length hs)

/-- As `lockstep_rounds`, for the loop of the recovery. -/
theorem lockstep_skip (h : SeesLexemes S) (hadvance : Lockstep S Eq advance advance)
    {bound bound' : List Token} (hbound : bound.length = bound'.length) :
    Lockstep S Eq (skip bound) (skip bound') := by
  induction bound generalizing bound' with
  | nil =>
    obtain rfl := List.eq_nil_of_length_eq_zero hbound.symm
    exact .pure rfl
  | cons t bound ih =>
    obtain ⟨t', bound', rfl⟩ := List.exists_cons_of_length_eq_add_one hbound.symm
    refine (lockstep_peek h).bind ?_
    rintro l _ rfl
    split
    · exact .pure rfl
    · exact .pure rfl
    · exact hadvance
    · exact hadvance.bind fun _ _ _ => ih (Nat.succ.inj hbound)

end Lockstep

/-- Before a closing brace or the end a statement can start again at once. So it does not matter
there what the token before the cursor is. -/
theorem synchronize_still {s : State}
    (h : s.current.lexeme = .eof ∨ s.current.lexeme = .symbol .rightBrace) :
    synchronize s = .ok () s := by
  have hskip (ts : List Token) : skip ts s = .ok () s := by
    obtain ⟨_, ⟨lexeme, _⟩, _⟩ := s
    obtain rfl | rfl := h
    · cases ts <;> rfl
    · cases ts <;> rfl
  show (if _ then _ else _ : Parser Unit) s = _
  split
  · rfl
  · exact hskip s.ahead

/-! ## Two sources with the same lexemes -/

/-- How the tokens of two sources and what is reported about them correspond. `T` keeps the lexeme
and the text, and every report at such tokens is related by `D`. -/
structure Corresponds (source source' : String) (T : Token → Token → Prop)
    (D : Diagnostic → Diagnostic → Prop) : Prop where
  sameIn {t t' : Token} : T t t' → t.SameIn source source' t'
  diagnostic {t t' : Token} (e : SyntaxError) :
    T t t' → D (e.diagnostic t.span) (e.diagnostic t'.span)

/-- The states of two parsers that have seen the same lexemes, the second of which has come `lead`
tokens further. Before the first one has moved, the lexeme before its cursor is left open then: the
second one has one there, and the first one has none. -/
structure State.Alike (T : Token → Token → Prop) (D : Diagnostic → Diagnostic → Prop)
    (lead : Nat) (s s' : State) : Prop where
  previous : s.previous = s'.previous ∨ 0 < lead ∧ s.position = 0
  ends : 0 < lead → EndsOnce s.stream
  current : T s.current s'.current
  ahead : List.Forall₂ T s.ahead s'.ahead
  position : s'.position = s.position + lead
  errors : List.Forall₂ D s.errors.toList s'.errors.toList

def SameSkeleton (n n' : Node) : Prop := n.skeleton = n'.skeleton

section Sources

variable {source source' : String} {T : Token → Token → Prop} {D : Diagnostic → Diagnostic → Prop}
  {lead : Nat}

/-- Both cursors move over related tokens, and from then on the lexemes before them agree. -/
theorem State.Alike.advance (h : Corresponds source source' T D) {s s' : State}
    (hs : s.Alike T D lead s') : s.advance.Alike T D lead s'.advance := by
  have hends (hlead : 0 < lead) : EndsOnce s.advance.stream :=
    (moves_advance s).endsOnce (hs.ends hlead)
  obtain ⟨previous, current, ahead, position, errors⟩ := s
  obtain ⟨previous', current', ahead', position', errors'⟩ := s'
  obtain ⟨hprevious, -, hcurrent, hahead, hposition, herrors⟩ := hs
  dsimp only at hprevious hcurrent hahead hposition herrors
  -- on the last token neither cursor moves
  cases hahead with
  | nil => exact ⟨hprevious, hends, hcurrent, .nil, hposition, herrors⟩
  | cons hnext hrest =>
    refine ⟨.inl (congrArg some (h.sameIn hcurrent).lexeme), hends, hnext, hrest, ?_, herrors⟩
    show position' + 1 = position + 1 + lead
    omega

/-- A report is made at the cursor, where the tokens are related. -/
theorem State.Alike.report (h : Corresponds source source' T D) {s s' : State}
    (hs : s.Alike T D lead s') (e : SyntaxError) :
    State.Alike T D lead { s with errors := s.errors.push (e.diagnostic s.current.span) }
      { s' with errors := s'.errors.push (e.diagnostic s'.current.span) } := by
  refine { hs with errors := ?_ }
  rw [Array.toList_push, Array.toList_push]
  exact List.rel_append hs.errors (.cons (h.diagnostic e hs.current) .nil)

/-- Whether to recover is decided by the number of errors, so it is the same on both sides. -/
theorem State.Alike.size_errors {s s' : State} (hs : s.Alike T D lead s') :
    s.errors.size = s'.errors.size := by
  rw [← Array.length_toList, hs.errors.length_eq, Array.length_toList]

theorem State.Alike.isEmpty_errors {s s' : State} (hs : s.Alike T D lead s') :
    s.errors.isEmpty = s'.errors.isEmpty := by
  rw [Array.isEmpty, Array.isEmpty, hs.size_errors]

/-- `Corresponds.sameIn` for each of the tokens ahead. -/
theorem seesLexemes_alike (h : Corresponds source source' T D) :
    SeesLexemes (State.Alike T D lead) := by
  intro s s' hs
  refine ⟨(h.sameIn hs.current).lexeme, ?_⟩
  rw [← List.forall₂_eq_eq_eq, List.forall₂_map_left_iff, List.forall₂_map_right_iff]
  exact hs.ahead.imp fun _ _ ht => (h.sameIn ht).lexeme

theorem map_skeleton_eq {ns ns' : List Node} (h : List.Forall₂ SameSkeleton ns ns') :
    ns.map Node.skeleton = ns'.map Node.skeleton := by
  rw [← List.forall₂_eq_eq_eq, List.forall₂_map_left_iff, List.forall₂_map_right_iff]
  exact h

/-- Inner nodes have the same skeleton if their children have: a skeleton keeps neither the text nor
the span of an inner node. -/
theorem sameSkeleton_covering {kind : NodeKind} (hkind : kind.isToken = false) {ns ns' : List Node}
    (h : List.Forall₂ SameSkeleton ns ns') (span span' : Span) :
    SameSkeleton (.covering source kind span ns) (.covering source' kind span' ns') := by
  rw [SameSkeleton, Node.skeleton_eq, Node.skeleton_eq]
  simp only [Node.covering, Node.plain, hkind, map_skeleton_eq h, Bool.false_eq_true, if_false]

/-- Leaves keep their text in the skeleton, which is the excerpt of the token's span. -/
theorem sameSkeleton_leaf {t t' : Token} (h : t.SameIn source source' t') :
    SameSkeleton (.ofToken source t) (.ofToken source' t') := by
  rw [SameSkeleton, Node.ofToken, Node.ofToken, h.lexeme, Node.covering, Node.covering, h.excerpt]
  rfl

theorem sameSkeleton_marked {n n' : Node} (arrow : Bool) (h : SameSkeleton n n') :
    SameSkeleton { n with arrow } { n' with arrow } := by
  rw [SameSkeleton, Node.skeleton_marked, Node.skeleton_marked, h]

/-- The steps of the parser run in lockstep on the two sources. `second` and `lambda` need no
`Consumes` or `Encloses` here, as the tokens ahead are related up to the end. -/
theorem respects_lockstep (h : Corresponds source source' T D) :
    Respects (fun _ _ => Lockstep (State.Alike T D lead)) SameSkeleton source source' where
  pure := .pure
  bind := .bind
  peek := lockstep_peek (seesLexemes_alike h)
  advance := fun _ _ hs => .ok rfl (hs.advance h)
  report _ := fun _ _ hs => .ok rfl (hs.report h _)
  bump := fun _ _ hs => .ok (sameSkeleton_leaf (h.sameIn hs.current)) (hs.advance h)
  node hkind hns := fun _ _ hs => .ok (sameSkeleton_covering hkind hns _ _) hs
  marked := sameSkeleton_marked
  second hf _ := (lockstep_peekSecond (seesLexemes_alike h)).bind fun l _ hl => hl ▸ hf l
  lambda hp hq _ _ := lockstep_lambda (seesLexemes_alike h) hp hq
  repeatWhile _ _ hround := lockstep_repeatWhile (seesLexemes_alike h) hround

/-! ### Recovery -/

/-- Recovery looks at the lexeme before the cursor. Where that is left open, `hstill` says that the
cursor is at a place where nothing is skipped. -/
theorem outcomes_synchronize (h : Corresponds source source' T D) {s s' : State}
    (hs : s.Alike T D lead s')
    (hstill : 0 < lead → s.position = 0 →
      s.current.lexeme = .eof ∨ s.current.lexeme = .symbol .rightBrace) :
    Outcomes (State.Alike T D lead) Eq (synchronize s) (synchronize s') := by
  have hsees : SeesLexemes (State.Alike T D lead) := seesLexemes_alike h
  rcases hs.previous with hprevious | ⟨hlead, hzero⟩
  · show Outcomes (State.Alike T D lead) Eq ((if s.previous = _ ∨ s.previous = _ then _ else _ :
      Parser Unit) s) ((if s'.previous = _ ∨ s'.previous = _ then _ else _ : Parser Unit) s')
    rw [hprevious]
    split
    · exact .ok rfl hs
    · exact lockstep_skip hsees (respects_lockstep h).advance (hsees.length hs) s s' hs
  -- what stands before the cursors may differ, but there is nothing to skip
  · have hcursor := hstill hlead hzero
    rw [synchronize_still hcursor, synchronize_still ((hsees _ _ hs).1 ▸ hcursor)]
    exact .ok rfl hs

/-- The step past a statement that has taken no token. Positions differ by `lead`, so both cursors
have moved or neither has. -/
theorem lockstep_settle (h : Corresponds source source' T D) {s s' : State}
    (hs : s.Alike T D lead s') {n n' : Node} (hn : SameSkeleton n n') :
    Lockstep (State.Alike T D lead) SameSkeleton
      (do if s.position = (← get).position then advance
          return n)
      (do if s'.position = (← get).position then advance
          return n') := by
  refine Lockstep.get.bind fun t t' ht => ?_
  have hmoved : s.position = t.position ↔ s'.position = t'.position := by
    rw [hs.position, ht.position]
    omega
  by_cases hposition : s.position = t.position
  · rw [if_pos hposition, if_pos (hmoved.mp hposition)]
    exact Lockstep.bind (respects_lockstep h).advance fun _ _ _ => .pure hn
  · rw [if_neg hposition, if_neg (mt hmoved.mpr hposition)]
    exact .pure hn

/-- Statements are recovered from in lockstep too. `htame` and `hprogress` are needed only for the
state in which the lexeme before the cursor is left open. -/
theorem lockstep_guardedStatement (h : Corresponds source source' T D) {level level' : Level}
    (htame : Tame (level.enter .statement))
    (hprogress : Progresses (fun l => l ≠ .eof ∧ l ≠ .symbol .rightBrace) (level.enter .statement))
    (henter : Lockstep (State.Alike T D lead) SameSkeleton (level.enter .statement)
      (level'.enter .statement)) :
    Lockstep (State.Alike T D lead) SameSkeleton (guardedStatement level)
      (guardedStatement level') := by
  intro s s' hs
  show Outcomes (State.Alike T D lead) SameSkeleton (EStateM.bind (level.enter .statement) _ s)
    (EStateM.bind (level'.enter .statement) _ s')
  refine Outcomes.bind (henter s s' hs) fun n n' t t' hrun hn ht => ?_
  -- a statement that has left the cursor where it was stands before a brace or the end
  have hstill (hlead : 0 < lead) (hzero : t.position = 0) :
      t.current.lexeme = .eof ∨ t.current.lexeme = .symbol .rightBrace := by
    have hends := hs.ends hlead
    have hmoves := htame.moves hends hrun
    have hposition : t.position = s.position := by
      have := hmoves.position_le
      omega
    have hcurrent : t.current = s.current := (List.cons.inj (hmoves.stream_eq hposition)).1
    by_contra hcursor
    rw [hcurrent] at hcursor
    have hmoved := hprogress s hends (not_or.mp hcursor) n t hrun
    omega
  have hreported : s.errors.size < t.errors.size ↔ s'.errors.size < t'.errors.size := by
    rw [hs.size_errors, ht.size_errors]
  show Outcomes (State.Alike T D lead) SameSkeleton ((if _ then _ else _ : Parser Node) t)
    ((if _ then _ else _ : Parser Node) t')
  by_cases herrors : s.errors.size < t.errors.size
  · rw [if_pos herrors, if_pos (hreported.mp herrors)]
    exact Outcomes.bind (outcomes_synchronize h ht hstill) fun _ _ u u' _ _ hu =>
      lockstep_settle h hs hn u u' hu
  · rw [if_neg herrors, if_neg (mt hreported.mpr herrors)]
    exact lockstep_settle h hs hn t t' ht

/-! ### All levels -/

/-- The induction on levels. Without one left both parsers report `tooDeep` at related tokens. -/
theorem lockstep_enter (h : Corresponds source source' T D) (limit left : Nat)
    {nested nested' : Nested} (hnested : nested.Alike SameSkeleton nested') :
    Lockstep (State.Alike T D lead) SameSkeleton (enter source limit left nested)
      (enter source' limit left nested') := by
  induction left generalizing nested nested' with
  | zero => exact fun s s' hs => .error (hs.report h (.tooDeep limit))
  | succ left ih =>
    have hlevel : Level.Respects (fun _ _ => Lockstep (State.Alike T D lead)) SameSkeleton
        { source, enter := enter source limit left }
        { source := source', enter := enter source' limit left } :=
      { respects_lockstep h with
        sound := enter_sound source limit left
        enter := ih
        guarded := lockstep_guardedStatement h (enter_sound source limit left .statement).tame
          (progresses_enter_statement source limit left) (ih .statement) }
    exact hlevel.construct hnested

/-- All statements of a program, each with all levels of the limit. -/
theorem lockstep_program (h : Corresponds source source' T D) (limit : Nat) :
    Lockstep (State.Alike T D lead) (List.Forall₂ SameSkeleton) (program source limit)
      (program source' limit) := by
  have hguarded : Lockstep (State.Alike T D lead) SameSkeleton
      (guardedStatement { source, enter := enter source limit limit })
      (guardedStatement { source := source', enter := enter source' limit limit }) :=
    lockstep_guardedStatement h (enter_sound source limit limit .statement).tame
      (progresses_enter_statement source limit limit) (lockstep_enter h limit limit .statement)
  exact lockstep_repeatWhile (seesLexemes_alike h)
    (hguarded.bind fun _ _ hn => .pure (.cons hn .nil))

end Sources

end Parser

end SimpleLang
