import SimpleLang.Proofs.Parser.Progress
import SimpleLang.Proofs.Parser.Refinement
import SimpleLang.Proofs.Parser.Respects

/-!
# Raising the nesting limit

A parser knows its nesting limit only where it exceeds it. Up to there a parser with a higher limit
takes the same course, through the same states, and what either has reported by then is the same.
There the first parser reports that the nesting is too deep and stops, while the second one goes on
and may report more.

* `Raised limit R p q`: the parser `q` does what `p` does, unless `p` stops at its limit (`CutOff`).
  In any case `q` takes back nothing that was reported before.
* `raised_enter`: the constructs of the grammar do so if the second parser has no fewer levels left
  than the first one, and `raised_program` follows.
* `parse_of_limit_le`: what becomes of the result of a parse when the limit is raised.
-/

namespace SimpleLang

/-! ## What is reported about the limit -/

/-- `SyntaxError.tooDeep` put into words. It is the beginning of the message that is compared, since
the limit itself follows. -/
def Diagnostic.tellsTooDeep (d : Diagnostic) : Bool :=
  "nesting depth exceeded".toList.isPrefixOf d.message.toList

theorem opens_append {a : String} {c : Char} (h : a.toList.head? = some c) (b : String) :
    (a ++ b).toList.head? = some c := by
  rw [String.toList_append, List.head?_append, h]
  rfl

/-- `SyntaxError.message` opens with an `n` for `tooDeep` alone, so the first letter already tells
the others from it. -/
theorem SyntaxError.head?_message {e : SyntaxError} (h : e.isTooDeep = false) :
    ∃ c, e.message.toList.head? = some c ∧ c ≠ 'n' := by
  cases e with
  | integerTooLarge digits => exact ⟨'i', opens_append (opens_append rfl _) _, by decide⟩
  | unclosedString => exact ⟨'u', rfl, by decide⟩
  | strayCharacter c =>
    refine ⟨'u', ?_, by decide⟩
    show (if c = '&' ∨ c = '|' then _ else _ : String).toList.head? = some 'u'
    split
    · exact opens_append (opens_append rfl _) _
    · exact opens_append (opens_append (opens_append (opens_append rfl _) _) _) _
  | expectedSymbol wanted found =>
    exact ⟨'e', opens_append (opens_append (opens_append rfl _) _) _, by decide⟩
  | expectedName found | expectedBody found | expectedExpression found =>
    exact ⟨'e', opens_append rfl _, by decide⟩
  | tooDeep limit => cases h

/-- `Diagnostic.tellsTooDeep` reads off the words what `SyntaxError.isTooDeep` reads off the
cause. -/
theorem SyntaxError.tellsTooDeep_diagnostic (e : SyntaxError) (span : Span) :
    (e.diagnostic span).tellsTooDeep = e.isTooDeep := by
  show "nesting depth exceeded".toList.isPrefixOf e.message.toList = e.isTooDeep
  cases htoo : e.isTooDeep with
  | true =>
    obtain ⟨limit, rfl⟩ : ∃ limit, e = .tooDeep limit := by
      cases e with
      | tooDeep limit => exact ⟨limit, rfl⟩
      | _ => cases htoo
    -- the words are cut before the limit, which may be any number
    have hwords : "nesting depth exceeded (maximum ".toList =
        "nesting depth exceeded".toList ++ " (maximum ".toList := rfl
    rw [List.isPrefixOf_iff_prefix]
    show _ <+: ("nesting depth exceeded (maximum " ++ toString limit ++ " levels)").toList
    rw [String.toList_append, String.toList_append, hwords, List.append_assoc, List.append_assoc]
    exact List.prefix_append _ _
  | false =>
    obtain ⟨c, hhead, hne⟩ := head?_message htoo
    rw [Bool.eq_false_iff]
    intro hprefix
    obtain ⟨rest, hrest⟩ := List.isPrefixOf_iff_prefix.mp hprefix
    rw [← hrest] at hhead
    exact hne (Option.some.inj hhead).symm

/-- The scanner reports `integerTooLarge`, `unclosedString` and `strayCharacter` (`Piece.error?`),
and none of them is about the nesting. -/
theorem tellsTooDeep_of_mem_scan {source : String} {d : Diagnostic}
    (h : d ∈ (scan source).errors) : d.tellsTooDeep = false := by
  rw [errors_scan] at h
  obtain ⟨⟨piece, start⟩, -, hpiece⟩ := List.mem_filterMap.mp h
  obtain ⟨e, he, rfl⟩ := Option.map_eq_some_iff.mp hpiece
  rw [SyntaxError.tellsTooDeep_diagnostic]
  -- pieces have other errors
  unfold Piece.error? at he
  split at he
  · split at he <;> cases he
    rfl
  · cases he
    rfl
  · cases he
    rfl
  all_goals cases he

namespace Parser

/-! ## Parsers with a higher limit -/

def after {α : Type} : EStateM.Result Stopped State α → State
  | .ok _ s | .error _ s => s

/-- Nothing was reported about the nesting. -/
def State.Shallow (s : State) : Prop := ∀ d ∈ s.errors.toList, d.tellsTooDeep = false

/-- The first run ended in `Stopped.tooDeep`. Its last diagnostic says so and no other one does, and
those other ones open what the second run reports, which may go on from there. -/
def CutOff {α β : Type} (limit : Nat) (r : EStateM.Result Stopped State α)
    (r' : EStateM.Result Stopped State β) : Prop :=
  ∃ t earlier span, r = .error .tooDeep t ∧
    t.errors.toList = earlier ++ [(SyntaxError.tooDeep limit).diagnostic span] ∧
    (∀ d ∈ earlier, d.tellsTooDeep = false) ∧ earlier <+: (after r').errors.toList

/-- Whatever was reported before is still reported. -/
def Adds {α : Type} (q : Parser α) : Prop :=
  ∀ s, s.errors.toList <+: (after (q s)).errors.toList

/-- The second parser, which has a higher limit, ends in the same state as the first one, unless
that is cut off. Each of its results is related to one that the first parser could have. -/
structure Raised (limit : Nat) {α β : Type} (R : α → β → Prop) (p : Parser α) (q : Parser β) :
    Prop where
  adds : Adds q
  covered : ∀ b, Returns q b → ∃ a, R a b
  run : ∀ s, s.Shallow →
    (∃ a b t, p s = .ok a t ∧ q s = .ok b t ∧ R a b ∧ t.Shallow) ∨ CutOff limit (p s) (q s)

section Steps

variable {α β α' β' : Type} {limit : Nat} {R : α → β → Prop} {R' : α' → β' → Prop}

/-- What follows a parser only adds to what that has reported. `Returns q b` limits this to the
results that `q` can have, since `Adds (g b)` need not hold for others. -/
theorem adds_bind {q : Parser β} {g : β → Parser β'} (hg : ∀ b, Returns q b → Adds (g b))
    (s : State) : (after (q s)).errors.toList <+: (after ((q >>= g) s)).errors.toList := by
  cases hq : q s with
  | ok b t =>
    rw [bind_of_ok hq]
    exact hg b ⟨s, t, hq⟩ t
  | error e t =>
    rw [bind_of_error hq]
    exact List.prefix_rfl

namespace Raised

/-- `Raised` is kept by sequencing. If `p` is cut off then so is `p >>= f`, and `adds_bind` says
that `g` takes back nothing of what `q` has reported. -/
theorem bind {p : Parser α} {q : Parser β} {f : α → Parser α'} {g : β → Parser β'}
    (h : Raised limit R p q) (hf : ∀ a b, R a b → Raised limit R' (f a) (g b)) :
    Raised limit R' (p >>= f) (q >>= g) := by
  have hadds : ∀ b, Returns q b → Adds (g b) := by
    intro b hb
    obtain ⟨a, hab⟩ := h.covered b hb
    exact (hf a b hab).adds
  refine ⟨fun s => (h.adds s).trans (adds_bind hadds s), ?_, fun s hs => ?_⟩
  · rintro c ⟨s, u, hrun⟩
    obtain ⟨b, t, hq, hg⟩ := exists_of_bind_ok hrun
    obtain ⟨a, hab⟩ := h.covered b ⟨s, t, hq⟩
    exact (hf a b hab).covered c ⟨t, u, hg⟩
  -- either both parsers are at the same state, or the first one has stopped and only the second
  -- goes on
  · rcases h.run s hs with ⟨a, b, t, hp, hq, hab, ht⟩ | ⟨t, earlier, span, hp, hlast, hearlier, hle⟩
    · rw [bind_of_ok hp, bind_of_ok hq]
      exact (hf a b hab).run t ht
    · right
      exact ⟨t, earlier, span, bind_of_error hp, hlast, hearlier, hle.trans (adds_bind hadds s)⟩

/-- A parser that always ends, as `p` and `q` do in the state `h s`, has no limit to raise. Its
reports must leave a state `Shallow`. -/
theorem of_ok {p : Parser α} {q : Parser β} (f : State → α) (g : State → β) (h : State → State)
    (hp : ∀ s, p s = .ok (f s) (h s)) (hq : ∀ s, q s = .ok (g s) (h s))
    (hresult : ∀ s, R (f s) (g s)) (hadds : ∀ s, s.errors.toList <+: (h s).errors.toList)
    (hshallow : ∀ s, s.Shallow → (h s).Shallow) : Raised limit R p q := by
  refine ⟨fun s => ?_, ?_, fun s hs => ?_⟩
  · rw [hq]
    exact hadds s
  · rintro b ⟨s, t, hrun⟩
    rw [hq] at hrun
    cases hrun
    exact ⟨f s, hresult s⟩
  · exact .inl ⟨f s, g s, h s, hp s, hq s, hresult s, hshallow s hs⟩

/-- The case of `of_ok` in which `h` reports nothing. -/
theorem of_quiet {p : Parser α} {q : Parser β} (f : State → α) (g : State → β) (h : State → State)
    (hp : ∀ s, p s = .ok (f s) (h s)) (hq : ∀ s, q s = .ok (g s) (h s))
    (hresult : ∀ s, R (f s) (g s)) (herrors : ∀ s, (h s).errors = s.errors) :
    Raised limit R p q := by
  refine of_ok f g h hp hq hresult (fun s => ?_) fun s hs => ?_
  · rw [herrors]
  · unfold State.Shallow
    rw [herrors]
    exact hs

theorem pure {a : α} {b : β} (h : R a b) : Raised limit R (Pure.pure a) (Pure.pure b) :=
  of_quiet (fun _ => a) (fun _ => b) id (fun _ => rfl) (fun _ => rfl) (fun _ => h) fun _ => rfl

theorem get : Raised limit Eq get get :=
  of_quiet id id id (fun _ => rfl) (fun _ => rfl) (fun _ => rfl) fun _ => rfl

theorem advance : Raised limit Eq advance advance :=
  of_quiet (fun _ => ()) (fun _ => ()) State.advance (fun _ => rfl) (fun _ => rfl) (fun _ => rfl)
    State.errors_advance

/-- Every report but that of the limit itself leaves a `Shallow` state. -/
theorem report {e : SyntaxError} (h : e.isTooDeep = false) :
    Raised limit Eq (report e) (report e) := by
  refine of_ok (fun _ => ()) (fun _ => ())
    (fun s => { s with errors := s.errors.push (e.diagnostic s.current.span) }) (fun _ => rfl)
    (fun _ => rfl) (fun _ => rfl) (fun s => ?_) fun s hs => ?_
  · rw [Array.toList_push]
    exact List.prefix_append _ _
  · unfold State.Shallow
    rw [Array.toList_push]
    refine List.forall_mem_append.mpr ⟨hs, List.forall_mem_singleton.mpr ?_⟩
    rw [SyntaxError.tellsTooDeep_diagnostic, h]

end Raised

/-! ### Choices and repetition -/

variable {p q : Parser α} {p' q' : Parser β}

/-- `peekSecond` only reads the tokens ahead, which both parsers have in common. -/
theorem raised_second {f : Lexeme → Parser α} {g : Lexeme → Parser β}
    (h : ∀ l, Raised limit R (f l) (g l)) :
    Raised limit R (peekSecond >>= f) (peekSecond >>= g) := by
  refine Raised.bind (R := Eq) (.bind .get fun s _ hs => ?_) fun l _ hl => hl ▸ h l
  exact .pure (by rw [hs])

/-- `opensLambda` decides by the tokens ahead, so both parsers take the same branch. -/
theorem raised_lambda (hp : Raised limit R p p') (hq : Raised limit R q q') :
    Raised limit R (do if opensLambda (← get).ahead then p else q)
      (do if opensLambda (← get).ahead then p' else q') := by
  refine .bind .get ?_
  rintro s _ rfl
  split
  · exact hp
  · exact hq

theorem raised_peek : Raised limit Eq peek peek :=
  .bind .get fun s _ hs => .pure (by rw [hs])

/-- `rounds` by induction on `bound`: the tokens that are ahead at the start bound its rounds, and
both parsers start at the same ones. -/
theorem raised_rounds {more : Lexeme → Bool} {round round' : Parser (List Node)}
    (hround : Raised limit (List.Forall₂ Eq) round round') (bound : List Token) :
    Raised limit (List.Forall₂ Eq) (rounds more round bound) (rounds more round' bound) := by
  induction bound with
  | nil => exact .pure .nil
  | cons token bound ih =>
    refine raised_peek.bind ?_
    rintro l _ rfl
    split
    · refine hround.bind fun first first' hfirst => ih.bind fun others others' hothers => ?_
      exact .pure (List.rel_append hfirst hothers)
    · exact .pure .nil

/-- `repeatWhile` is `rounds` with the tokens ahead as its bound. -/
theorem raised_repeatWhile {more : Lexeme → Bool} {round round' : Parser (List Node)}
    (hround : Raised limit (List.Forall₂ Eq) round round') :
    Raised limit (List.Forall₂ Eq) (repeatWhile more round) (repeatWhile more round') := by
  refine .bind .get ?_
  rintro s _ rfl
  exact raised_rounds hround s.ahead

end Steps

/-- The steps of a parser do not know the limit, so each of them is related to itself. With
`Level.Respects.construct` this carries `Raised` through all rules at once. -/
theorem respects_raised (limit : Nat) (source : String) :
    Respects (fun _ _ => Raised limit) Eq source source where
  pure := .pure
  bind := .bind
  peek := raised_peek
  advance := .advance
  report := .report
  bump := .of_quiet (fun s => .ofToken source s.current) (fun s => .ofToken source s.current)
    State.advance (fun _ => rfl) (fun _ => rfl) (fun _ => rfl) State.errors_advance
  node {ns ns' kind} _ hns := by
    rw [List.forall₂_eq_eq_eq] at hns
    subst hns
    exact .of_quiet _ _ id (fun _ => rfl) (fun _ => rfl) (fun _ => rfl) fun _ => rfl
  marked _ h := by rw [h]
  second h _ := raised_second h
  lambda hp hq _ _ := raised_lambda hp hq
  repeatWhile _ _ hround := raised_repeatWhile hround

/-! ## Recovery -/

/-- Recovery skips the same tokens under both limits. The cases are those of `skip`: the end, a `}`
and a `;` stop it. -/
theorem raised_skip (limit : Nat) (bound : List Token) :
    Raised limit Eq (skip bound) (skip bound) := by
  induction bound with
  | nil => exact .pure rfl
  | cons token bound ih =>
    refine raised_peek.bind ?_
    rintro l _ rfl
    split
    · exact .pure rfl
    · exact .pure rfl
    · exact .advance
    · exact Raised.advance.bind fun _ _ _ => ih

/-- `synchronize` looks at the token before the cursor, which belongs to the state that both parsers
share. -/
theorem raised_synchronize (limit : Nat) : Raised limit Eq synchronize synchronize := by
  refine .bind .get ?_
  rintro s _ rfl
  split
  · exact .pure rfl
  · exact raised_skip limit s.ahead

/-- A statement with its recovery. Whether to recover is decided by the number of errors, on which
the two parsers agree as long as the first one runs. -/
theorem raised_guardedStatement {limit : Nat} {level level' : Level}
    (h : Raised limit Eq (level.enter .statement) (level'.enter .statement)) :
    Raised limit Eq (guardedStatement level) (guardedStatement level') := by
  -- the step past a statement that took no token, which both parsers make or none does
  have hsettle (s : State) (n : Node) : Raised limit Eq
      (do if s.position = (← get).position then advance
          return n)
      (do if s.position = (← get).position then advance
          return n) := by
    refine .bind .get ?_
    rintro t _ rfl
    split
    · exact Raised.advance.bind fun _ _ _ => .pure rfl
    · exact .pure rfl
  refine .bind .get ?_
  rintro s _ rfl
  refine h.bind ?_
  rintro n _ rfl
  refine .bind .get ?_
  rintro t _ rfl
  split
  · exact (raised_synchronize limit).bind fun _ _ _ => hsettle s n
  · exact hsettle s n

/-! ## All levels -/

/-- Without a level left `enter` reports `tooDeep` and stops. That is `CutOff` against any parser
`q` that takes back nothing. -/
theorem raised_tooDeep (source : String) (limit : Nat) (nested : Nested) {q : Parser Node}
    (h : Adds q) : Raised limit Eq (enter source limit 0 nested) q := by
  refine ⟨h, fun n _ => ⟨n, rfl⟩, fun s hs => .inr ?_⟩
  refine ⟨_, s.errors.toList, s.current.span, rfl, ?_, hs, h s⟩
  rw [Array.toList_push]

/-- `enter` with `left` levels against `enter` with at least as many. The induction is on the levels
of the second parser: it may have some left where the first one has none, and then `raised_tooDeep`
applies. -/
theorem raised_enter (source : String) (limit limit' : Nat) {left left' : Nat} (hle : left ≤ left')
    {nested nested' : Nested} (hnested : nested.Alike Eq nested') :
    Raised limit Eq (enter source limit left nested) (enter source limit' left' nested') := by
  induction left' generalizing left nested nested' with
  | zero =>
    obtain rfl : left = 0 := by omega
    refine raised_tooDeep source limit nested fun s => ?_
    show s.errors.toList <+: (s.errors.push _).toList
    rw [Array.toList_push]
    exact List.prefix_append _ _
  | succ left' ih =>
    -- inside a construct both parsers have one level less, so the hypothesis is that of `left'`
    have hconstruct {left : Nat} (hle : left ≤ left') : Raised limit Eq
        (construct { source, enter := enter source limit left } nested)
        (enter source limit' (left' + 1) nested') := by
      have hlevel : Level.Respects (fun _ _ => Raised limit) Eq
          { source, enter := enter source limit left }
          { source, enter := enter source limit' left' } :=
        { respects_raised limit source with
          sound := enter_sound source limit left
          enter := ih hle
          guarded := raised_guardedStatement (ih hle .statement) }
      exact hlevel.construct hnested
    cases left with
    | zero => exact raised_tooDeep source limit nested (hconstruct (Nat.zero_le _)).adds
    | succ left => exact hconstruct (by omega)

/-- The statements of a program, each parsed by `enter` with all levels of its limit. -/
theorem raised_program (source : String) {limit limit' : Nat} (hle : limit ≤ limit') :
    Raised limit (List.Forall₂ Eq) (program source limit) (program source limit') := by
  have henter := raised_enter source limit limit' hle .statement
  refine raised_repeatWhile ((raised_guardedStatement henter).bind ?_)
  exact fun _ _ hn => .pure (.cons hn .nil)

end Parser

/-! ## Trees -/

/-- The diagnostics that parsing a text reports; a text with a tree has none. -/
def Node.reported : Except (List Diagnostic) Node → List Diagnostic
  | .ok _ => []
  | .error errors => errors

namespace Parser

open SimpleLang.Node (reported)

/-- What `ofTokens` reports is what the last state of `program` holds, since a tree is built only if
that is nothing. -/
theorem reported_ofTokens (source : String) (tokens : List Token) (limit : Nat) :
    reported (ofTokens source tokens limit)
      = (after (program source limit (.start tokens))).errors.toList := by
  unfold ofTokens
  cases program source limit (.start tokens) with
  | error e s => rfl
  | ok ns s =>
    show reported (if s.errors.isEmpty then _ else _) = s.errors.toList
    split
    next hempty =>
      rw [Array.isEmpty_iff.mp hempty]
      rfl
    next => rfl

/-- With a higher limit `ofTokens` gives the same, unless the lower one was exceeded. The first case
is that of `Raised.run` in which both runs end, the second one is `CutOff`. -/
theorem ofTokens_of_limit_le (source : String) (tokens : List Token) {limit limit' : Nat}
    (hle : limit ≤ limit') :
    (ofTokens source tokens limit' = ofTokens source tokens limit ∧
      ∀ d ∈ reported (ofTokens source tokens limit), d.tellsTooDeep = false) ∨
    ∃ earlier span,
      ofTokens source tokens limit
        = .error (earlier ++ [(SyntaxError.tooDeep limit).diagnostic span]) ∧
      (∀ d ∈ earlier, d.tellsTooDeep = false) ∧
      earlier <+: reported (ofTokens source tokens limit') := by
  have hstart : (State.start tokens).Shallow := by
    cases tokens <;> exact List.forall_mem_nil _
  rcases (raised_program source hle).run _ hstart with
    ⟨ns, ns', s, hrun, hrun', hns, hs⟩ | ⟨s, earlier, span, hrun, hlast, hearlier, hprefix⟩
  -- no level is refused, so both limits give the same run
  · rw [List.forall₂_eq_eq_eq] at hns
    subst hns
    left
    refine ⟨?_, ?_⟩
    · rw [ofTokens, ofTokens, hrun, hrun']
    · rw [reported_ofTokens, hrun]
      exact hs
  · right
    -- the smaller limit refuses a level, and reports nothing behind it
    refine ⟨earlier, span, ?_, hearlier, ?_⟩
    · rw [ofTokens, hrun, ← hlast]
    · rw [reported_ofTokens]
      exact hprefix

end Parser

/-- Raising the nesting limit changes nothing that the lower limit has not cut off. A tree stays the
same, and so do errors none of which is about the nesting. Otherwise one error is about it, the last
one, and those before it open what is reported with the higher limit. -/
theorem parse_of_limit_le (source : String) {limit limit' : Nat} (hle : limit ≤ limit') :
    (∀ tree, Node.parse source limit = .ok tree → Node.parse source limit' = .ok tree) ∧
    (∀ errors, Node.parse source limit = .error errors →
      (∀ d ∈ errors, d.tellsTooDeep = false) → Node.parse source limit' = .error errors) ∧
    ∀ errors, Node.parse source limit = .error errors → (∃ d ∈ errors, d.tellsTooDeep) →
      ∃ earlier last, errors = earlier ++ [last] ∧
        last.message = "nesting depth exceeded (maximum " ++ toString limit ++ " levels)" ∧
        last.tellsTooDeep ∧ (∀ d ∈ earlier, d.tellsTooDeep = false) ∧
        earlier <+: Node.reported (Node.parse source limit') := by
  by_cases hscan : (scan source).errors = []
  · rw [Node.parse_eq_ofTokens hscan, Node.parse_eq_ofTokens hscan]
    rcases Parser.ofTokens_of_limit_le source (scan source).tokens hle with
      ⟨hsame, hshallow⟩ | ⟨earlier, span, herror, hearlier, hprefix⟩
    · rw [hsame]
      refine ⟨fun _ h => h, fun _ h _ => h, ?_⟩
      rintro errors herrors ⟨d, hd, htells⟩
      rw [herrors] at hshallow
      exact absurd htells (by simp [hshallow d hd])
    · have htells := SyntaxError.tellsTooDeep_diagnostic (.tooDeep limit) span
      rw [herror]
      refine ⟨fun tree h => (by cases h), fun errors h hshallow => ?_, fun errors h _ => ?_⟩
      -- the last error is about the nesting, which `hshallow` excludes
      · obtain rfl := Except.error.inj h
        have hlast := hshallow _ (List.mem_append_right _ List.mem_cons_self)
        rw [htells] at hlast
        cases hlast
      · obtain rfl := Except.error.inj h
        exact ⟨earlier, _, rfl, rfl, htells, hearlier, hprefix⟩
  · -- a text that is not even cut into tokens meets no limit
    have hparse (limit : Nat) : Node.parse source limit = .error (scan source).errors := by
      simp [Node.parse, hscan]
    rw [hparse, hparse]
    refine ⟨fun _ h => h, fun _ h _ => h, ?_⟩
    rintro errors herrors ⟨d, hd, htells⟩
    obtain rfl := Except.error.inj herrors
    exact absurd htells (by simp [tellsTooDeep_of_mem_scan hd])

/-- One error before the nesting is too deep for three levels, and another one behind it that only
the higher limit lets come up. -/
theorem parse_of_limit_le_cut :
    (∃ d ∈ Node.reported (Node.parse "let = 1; f((2)); let = 3;" 3), d.tellsTooDeep) ∧
    (Node.reported (Node.parse "let = 1; f((2)); let = 3;" 9)).length = 2 ∧
    ∃ errors, Node.parse "let = 1; f((2)); let = 3;" 3 = .error errors ∧
      ∃ earlier last, errors = earlier ++ [last] ∧
        last.message = "nesting depth exceeded (maximum 3 levels)" ∧
        earlier <+: Node.reported (Node.parse "let = 1; f((2)); let = 3;" 9) := by
  have hcut : ∃ d ∈ Node.reported (Node.parse "let = 1; f((2)); let = 3;" 3),
      d.tellsTooDeep := by decide +kernel
  refine ⟨hcut, by decide +kernel, ?_⟩
  cases hparse : Node.parse "let = 1; f((2)); let = 3;" 3 with
  | ok tree =>
    rw [hparse] at hcut
    obtain ⟨d, hd, _⟩ := hcut
    cases hd
  | error errors =>
    rw [hparse] at hcut
    obtain ⟨earlier, last, herrors, hmessage, -, -, hprefix⟩ :=
      (parse_of_limit_le _ (show 3 ≤ 9 by decide)).2.2 errors hparse hcut
    exact ⟨errors, rfl, earlier, last, herrors, hmessage, hprefix⟩

end SimpleLang
