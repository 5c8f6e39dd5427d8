import SimpleLang.Proofs.Parser.Bookkeeping

/-!
# Runs of the parser in step with the parser by levels

`Refines limit left r p`: from states that match (`Matches`), with `left` levels left of `limit`,
the routine `r` ends as the rule `p` of the parser by levels does, or `p` stopped and `r` reported
nothing after that (`Follows`).

As long as no level is refused the two go in step, and the levels that the second has left are those
between `State.depth` and its limit. A level that is refused stops the second. The first goes on,
but its flag is up and it reports nothing more (`State.Leads.silent`), so what it does from there
need not be followed.

The parser by levels asks for the precedence of an operator where the other one asks for its binding
powers: `bindingPower_eq` says how they agree.
-/

namespace SimpleLang

namespace Routine

open SimpleLang.Parser (EndsOnce Stopped)

/-! ## Scales of operators -/

/-- `bindingPower` is `Operation.precedence` on the doubled scale: an operator of precedence `p` has
the powers `2 * p - 1` and `2 * p`. The two tables are written down apart, so this goes through all
symbols. -/
theorem bindingPower_eq (l : Lexeme) :
    bindingPower l = l.binary?.map fun op => (2 * op.precedence - 1, 2 * op.precedence) := by
  cases l with
  | symbol s => cases s <;> rfl
  | keyword | integer | float | string | ident | eof => rfl

/-- The same operators are admitted by a least left binding power and by a least precedence. -/
def SameMinimum (power precedence : Nat) : Prop :=
  ∀ op : Operation, power ≤ 2 * op.precedence - 1 ↔ precedence ≤ op.precedence

theorem sameMinimum_zero : SameMinimum 0 0 := fun op => by simp

/-- The right operand of an operator takes those that bind more tightly. No operator has the
precedence zero, so `2 * p - 1` is not cut off at zero. -/
theorem sameMinimum_right (op : Operation) :
    SameMinimum (2 * op.precedence) (op.precedence + 1) := by
  intro other
  have hpos : 1 ≤ other.precedence := by cases other <;> decide
  show 2 * op.precedence ≤ 2 * other.precedence - 1 ↔ op.precedence + 1 ≤ other.precedence
  omega

/-! ## States in step -/

/-- The cursor of both states is at the same token of the same sequence, with the same errors, and
no level was refused. `Parser.State` keeps the token at the cursor, those behind it and the lexeme
before it, where the routine reads all of them from one array by their index. -/
structure Matches (limit : Nat) (s : State) (t : Parser.State) : Prop extends s.InOrder where
  current : s.tokens[s.position]? = some t.current
  ahead : t.ahead = s.tokens.toList.drop (s.position + 1)
  previous : t.previous = if s.position = 0 then none else
    s.tokens[s.position - 1]?.map Token.lexeme
  position : t.position = s.position
  errors : t.errors = s.errors
  maxDepth : s.maxDepth = limit
  flag : s.overflowed = false

namespace Matches

variable {limit : Nat} {s : State} {t : Parser.State} (h : Matches limit s t)

include h

/-- Both cursors move, or both stay on the last token. -/
theorem advance : Matches limit s.advance t.advance := by
  have hcurrent := Array.getElem?_eq_some_iff.mp h.current
  rcases s.advance_cases with heq | ⟨hlt, heq⟩
  · -- the cursor is at the last token
    have hlast : ¬ s.position < s.tokens.size - 1 := by
      intro hlt
      have := congrArg State.position heq
      rw [State.advance, if_pos hlt] at this
      exact absurd this (Nat.succ_ne_self _)
    have hahead : t.ahead = [] := by
      rw [h.ahead, List.drop_eq_nil_iff, Array.length_toList]
      omega
    rw [heq, Parser.State.advance, hahead]
    exact h
  · have hahead : t.ahead = s.tokens[s.position + 1] :: s.tokens.toList.drop (s.position + 2) := by
      rw [h.ahead]
      exact List.drop_eq_getElem_cons (by simpa using hlt)
    rw [heq, Parser.State.advance, hahead]
    exact
      { h with
        position_lt := hlt
        current := Array.getElem?_eq_getElem hlt
        ahead := rfl
        previous := by simp [h.current]
        position := by simp [h.position] }

/-- No level was refused (`flag`), so the error is added on both sides. -/
theorem report (e : SyntaxError) (span : Span) :
    Matches limit (s.report e span) { t with errors := t.errors.push (e.diagnostic span) } := by
  rw [State.report, if_neg (by simp [h.flag])]
  exact { h with errors := by simp [h.errors] }

/-- The parser by levels has no counter, so what matches does so at every depth within the limit. -/
theorem withDepth {depth : Nat} (hdepth : depth ≤ limit) :
    Matches limit { s with depth } t :=
  { h with depth_le := by rw [h.maxDepth]; exact hdepth }

end Matches

/-! ## Runs in step -/

/-- How a run that ends in `s` with the result `a` goes with one by levels: that one ends with the
same result in a matching state, and the counter is `depth`; or it stopped, and nothing was reported
since. The errors are then what both have in common. -/
inductive Follows {α : Type} (limit depth : Nat) (s : State) (a : α) :
    EStateM.Result Stopped Parser.State α → Prop where
  | ends {t : Parser.State} (hmatches : Matches limit s t) (hdepth : s.depth = depth) :
    Follows limit depth s a (.ok a t)
  | stops {e : Stopped} {t : Parser.State} (hflag : s.overflowed = true)
    (herrors : t.errors = s.errors) (hne : s.errors ≠ #[]) : Follows limit depth s a (.error e t)

/-- After a stop whatever is left of the routine changes neither the flag nor the errors
(`State.Leads.silent`). -/
theorem Follows.of_stopped {α β : Type} {limit depth : Nat} {r : Routine β} {s s' : State} {a : α}
    {b : β} {e : Stopped} {t : Parser.State} (hs : s.InOrder) (hflag : s.overflowed = true)
    (herrors : t.errors = s.errors) (hne : s.errors ≠ #[]) (hrun : r.run s = .ok (b, s')) :
    Follows limit depth s' a (.error e t) := by
  obtain ⟨hflag', herrors'⟩ := (leads_of_run r hs hrun).2.silent hflag
  exact .stops hflag' (herrors.trans herrors'.symm) (herrors' ▸ hne)

/-- From two given states the runs go together, if the routine does not fault. That it does not is
`balanced_rule`. -/
def RefinesFrom {α : Type} (limit depth : Nat) (s : State) (t : Parser.State) (r : Routine α)
    (p : Parser α) : Prop :=
  ∀ a s', r.run s = .ok (a, s') → Follows limit depth s' a (p t)

/-- From matching states with `left` levels left the runs go together. Where neither stops, the
counter is in the end what it was. -/
def Refines {α : Type} (limit left : Nat) (r : Routine α) (p : Parser α) : Prop :=
  ∀ s t, Matches limit s t → s.depth + left = limit → RefinesFrom limit s.depth s t r p

section Steps

variable {α β : Type} {limit left depth : Nat} {s : State} {t : Parser.State}

theorem RefinesFrom.pure (h : Matches limit s t) (hdepth : s.depth = depth) (a : α) :
    RefinesFrom limit depth s t (pure a) (pure a) := by
  intro b s' hrun
  cases hrun
  exact .ends h hdepth

theorem refines_pure (a : α) : Refines limit left (pure a) (pure a) :=
  fun _ _ h _ => .pure h rfl a

/-- The second part of the routine is run even if the parser by levels has stopped in the first
(`Follows.of_stopped`). -/
theorem RefinesFrom.bind {r : Routine α} {p : Parser α} {f : α → Routine β} {g : α → Parser β}
    {inner : Nat} (hs : Matches limit s t) (h : RefinesFrom limit inner s t r p)
    (hf : ∀ a s' t', Matches limit s' t' → s'.depth = inner →
      RefinesFrom limit depth s' t' (f a) (g a)) :
    RefinesFrom limit depth s t (r >>= f) (p >>= g) := by
  intro b s'' hrun
  obtain ⟨a, s', hfirst, hrest⟩ := exists_of_run_bind hrun
  have hfollows := h a s' hfirst
  cases hp : p t with
  | ok a' t' =>
    rw [hp] at hfollows
    cases hfollows with
    | ends hmatches hdepth =>
      rw [Parser.bind_of_ok hp]
      exact hf a s' t' hmatches hdepth b s'' hrest
  | error e t' =>
    rw [hp] at hfollows
    cases hfollows with
    | stops hflag herrors hne =>
      obtain ⟨horder, _⟩ := leads_of_run _ hs.toInOrder hfirst
      rw [Parser.bind_of_error hp]
      exact .of_stopped horder hflag herrors hne hrest

/-- `RefinesFrom.bind` where the first part leaves the counter as it was. -/
theorem Refines.bind {r : Routine α} {p : Parser α} {f : α → Routine β} {g : α → Parser β}
    (h : Refines limit left r p) (hf : ∀ a, Refines limit left (f a) (g a)) :
    Refines limit left (r >>= f) (p >>= g) := by
  intro s t hs hleft
  refine RefinesFrom.bind hs (h s t hs hleft) fun a s' t' hs' hdepth => ?_
  exact hdepth ▸ hf a s' t' hs' (hdepth ▸ hleft)

/-- Both look at the same lexeme, so the rest may be compared at that one. -/
theorem refines_peek_bind {f : Lexeme → Routine α} {g : Lexeme → Parser α}
    (h : ∀ s t, Matches limit s t → s.depth + left = limit →
      RefinesFrom limit s.depth s t (f t.current.lexeme) (g t.current.lexeme)) :
    Refines limit left (peek >>= f) (Parser.peek >>= g) := by
  intro s t hs hleft a s' hrun
  rw [run_bind_of_ok (run_peek hs.current)] at hrun
  exact h s t hs hleft a s' hrun

/-- A test that only the routine makes. Its answer is known, since the states match. -/
theorem RefinesFrom.isAt_bind {x : Lexeme} {f : Bool → Routine α} {p : Parser α}
    (hs : Matches limit s t) (h : RefinesFrom limit depth s t (f (t.current.lexeme == x)) p) :
    RefinesFrom limit depth s t (isAt x >>= f) p := by
  intro a s' hrun
  rw [run_bind_of_ok (run_isAt hs.current x)] at hrun
  exact h a s' hrun

theorem RefinesFrom.peek_left {f : Lexeme → Routine α} {p : Parser α}
    (hs : Matches limit s t) (h : RefinesFrom limit depth s t (f t.current.lexeme) p) :
    RefinesFrom limit depth s t (peek >>= f) p := by
  intro a s' hrun
  rw [run_bind_of_ok (run_peek hs.current)] at hrun
  exact h a s' hrun

/-- One asks for a certain lexeme where the other looks at the lexeme there is. In the second case
it is known to be another one. -/
theorem refines_isAt_bind {x : Lexeme} {f : Bool → Routine α} {g : Lexeme → Parser α}
    (htrue : Refines limit left (f true) (g x))
    (hfalse : ∀ s t, Matches limit s t → s.depth + left = limit → t.current.lexeme ≠ x →
      RefinesFrom limit s.depth s t (f false) (g t.current.lexeme)) :
    Refines limit left (isAt x >>= f) (Parser.peek >>= g) := by
  intro s t hs hleft
  refine RefinesFrom.isAt_bind hs ?_
  show RefinesFrom limit s.depth s t _ (g t.current.lexeme)
  by_cases hx : t.current.lexeme = x
  · rw [hx, beq_self_eq_true]
    exact htrue s t hs hleft
  · rw [beq_eq_false_iff_ne.mpr hx]
    exact hfalse s t hs hleft hx

/-- Below the limit a level is granted. -/
theorem perform_enter_granted (hs : Matches limit s t) (hlt : s.depth < limit) :
    Action.enter.perform s = .ok (true, { s with depth := s.depth + 1 }) := by
  have hmaxDepth := hs.maxDepth
  simp only [Action.perform]
  rw [if_neg (by simp [hs.flag]), if_neg (by omega)]
  rfl

/-- The state after a level was refused. -/
def State.refused (s : State) (limit : Nat) (span : Span) : State :=
  { s.report (.tooDeep limit) span with overflowed := true }

/-- At the limit it is refused, which is reported at the cursor (`State.refused`). -/
theorem perform_enter_refused (hs : Matches limit s t) (heq : s.depth = limit) :
    Action.enter.perform s = .ok (false, s.refused limit t.current.span) := by
  have hmaxDepth := hs.maxDepth
  simp only [Action.perform]
  rw [if_neg (by simp [hs.flag]), if_pos (by omega), State.token_of_eq_some hs.current, hmaxDepth]
  rfl

/-- Where no level is left the parser by levels stops with the error that the refusal adds. -/
theorem enter_zero (hs : Matches limit s t) (source : String) (nested : Parser.Nested) :
    ∃ t', Parser.enter source limit 0 nested t = .error .tooDeep t' ∧
      t'.errors = (s.refused limit t.current.span).errors ∧ t'.errors ≠ #[] := by
  have hreport := hs.report (.tooDeep limit) t.current.span
  exact ⟨_, rfl, hreport.errors, Array.push_ne_empty⟩

/-- A level that both have is granted, and one that neither has stops the parser by levels. In the
latter case the routine goes on in silence. -/
theorem RefinesFrom.enter_bind {f : Bool → Routine Node} {source : String} {nested : Parser.Nested}
    (hs : Matches limit s t) (hleft : s.depth + left = limit)
    (hgranted : ∀ left', left = left' + 1 → RefinesFrom limit s.depth
      { s with depth := s.depth + 1 } t (f true)
      (Parser.construct (Parser.levelAt source limit left') nested)) :
    RefinesFrom limit s.depth s t (liftM Action.enter >>= f)
      (Parser.enter source limit left nested) := by
  intro a s' hrun
  obtain ⟨granted, u, henter, hrest⟩ := exists_of_run_bind hrun
  obtain ⟨horder, _⟩ := leads_of_run _ hs.toInOrder henter
  cases left with
  | zero =>
    -- without levels left both refuse the construct
    cases (perform_enter_refused hs hleft).symm.trans henter
    obtain ⟨t', hstop, herrors, hne⟩ := enter_zero hs source nested
    rw [hstop]
    exact .of_stopped horder rfl herrors (herrors ▸ hne) hrest
  | succ left =>
    cases (perform_enter_granted hs (by omega)).symm.trans henter
    exact hgranted left rfl a s' hrest

/-- The parser by levels leaves levels by returning, so only the counter changes. -/
theorem RefinesFrom.leave_bind {levels : Nat} {f : Unit → Routine α} {p : Parser α}
    (h : RefinesFrom limit depth { s with depth := s.depth - levels } t (f ()) p) :
    RefinesFrom limit depth s t (liftM (Action.leave levels) >>= f) p := by
  intro a s' hrun
  obtain ⟨_, u, hleave, hrest⟩ := exists_of_run_bind hrun
  change (Action.leave levels).perform s = _ at hleave
  simp only [Action.perform] at hleave
  split at hleave
  · cases hleave
  · cases hleave
    exact h a s' hrest

end Steps

/-! ## Basic steps -/

section Basic

variable {limit left : Nat} (source : String)

/-- Both build the same node; without children it stands at the cursor. -/
theorem run_node {s : State} {t : Parser.State} (hs : Matches limit s t) (kind : NodeKind)
    (children : List Node) : ∃ n, (node source kind children).run s = .ok (n, s) ∧
      Parser.node source kind children t = .ok n t := by
  refine ⟨.covering source kind
    ((Span.cover? (children.map Node.span)).getD (.empty t.current.span.start)) children, ?_, rfl⟩
  cases children with
  | nil => exact run_bind_of_ok (r := liftM Action.current) (perform_current hs.current)
  | cons => rfl

theorem refines_node (kind : NodeKind) (children : List Node) :
    Refines limit left (node source kind children) (Parser.node source kind children) := by
  intro s t hs _ n s' hrun
  obtain ⟨m, hm, hm'⟩ := run_node source hs kind children
  cases hm.symm.trans hrun
  rw [hm']
  exact .ends hs rfl

/-- The routine gets the token it moves over, which the other one does not ask for. -/
theorem refines_advance_bind {α : Type} {f : Token → Routine α} {g : Unit → Parser α}
    (h : ∀ token, Refines limit left (f token) (g ())) :
    Refines limit left (liftM Action.advance >>= f) (Parser.advance >>= g) := by
  intro s t hs hleft a s' hrun
  have hadvance : (liftM Action.advance : Routine Token).run s = .ok (t.current, s.advance) :=
    perform_advance hs.current
  rw [run_bind_of_ok hadvance] at hrun
  rw [← s.depth_advance]
  exact h t.current s.advance t.advance hs.advance (s.depth_advance ▸ hleft) a s' hrun

theorem refines_bump : Refines limit left (bump source) (Parser.bump source) := by
  intro s t hs _ n s' hrun
  cases (run_bump hs.current source).symm.trans hrun
  exact .ends hs.advance s.depth_advance

theorem refines_report (e : SyntaxError) :
    Refines limit left (liftM (Action.report e)) (Parser.report e) := by
  intro s t hs _ a s' hrun
  cases (perform_report e hs.current).symm.trans hrun
  exact .ends (hs.report e t.current.span) (s.depth_report e t.current.span)

/-- The routine asks with `isAt`, and reads the lexeme only to report it. -/
theorem refines_expect (wanted : Symbol) :
    Refines limit left (expect source wanted) (Parser.expect source wanted) := by
  refine refines_isAt_bind ?_ fun s t hs hleft hne => ?_
  · rw [if_pos rfl, if_pos rfl]
    exact (refines_bump source).bind fun n => refines_pure _
  · rw [if_neg Bool.false_ne_true, if_neg hne]
    exact .peek_left hs ((refines_report _).bind (fun _ => refines_pure _) s t hs hleft)

theorem refines_expectName :
    Refines limit left (expectName source) (Parser.expectName source) := by
  refine refines_peek_bind fun s t hs hleft => ?_
  have hname : Refines limit left (do return [← bump source])
      (do return [← Parser.bump source]) := (refines_bump source).bind fun n => refines_pure _
  have hother (l : Lexeme) : Refines limit left
      (do Action.report (.expectedName l); return [])
      (do Parser.report (.expectedName l); return ([] : List Node)) :=
    (refines_report _).bind fun _ => refines_pure _
  generalize t.current.lexeme = l
  cases l with
  | ident => exact hname s t hs hleft
  | keyword | symbol | integer | float | string | eof => exact hother _ s t hs hleft

/-- The second lexeme, or the last one if there is no second. -/
theorem refines_peekAt_bind {α : Type} {f : Lexeme → Routine α} {g : Lexeme → Parser α}
    (h : ∀ l, Refines limit left (f l) (g l)) :
    Refines limit left (peekAt 1 >>= f) (Parser.peekSecond >>= g) := by
  intro s t hs hleft a s' hrun
  have hsecond : s.tokens[min (s.position + 1) (s.tokens.size - 1)]? =
      some (t.ahead.headD t.current) := by
    by_cases hlt : s.position + 1 < s.tokens.size
    · rw [Nat.min_eq_left (by omega), hs.ahead, List.headD_eq_head?_getD, List.head?_drop,
        Array.getElem?_toList, Array.getElem?_eq_getElem hlt]
      rfl
    -- the cursor is at the last token, which both fall back on
    · have hposition := hs.position_lt
      have hahead : t.ahead = [] := by
        rw [hs.ahead, List.drop_eq_nil_iff, Array.length_toList]
        omega
      rw [Nat.min_eq_right (by omega), hahead, show s.tokens.size - 1 = s.position by omega]
      exact hs.current
  rw [run_bind_of_ok (run_peekAt hsecond)] at hrun
  exact h _ s t hs hleft a s' hrun

end Basic

/-! ## Loops -/

section Loops

variable {limit left : Nat}

/-- Where no token is behind the cursor the end is at the cursor, since the tokens end with it. -/
theorem Matches.eof_of_size_le {s : State} {t : Parser.State} (hs : Matches limit s t)
    (hsize : s.tokens.size ≤ s.position + 1) : t.current.lexeme = .eof := by
  by_contra hne
  have := hs.lt_of_ne_eof hs.current hne
  omega

/-- A loop that collects nodes. The other one bounds its rounds by a list of tokens, which is long
enough where no more tokens are left than it has. The induction is on the rounds of the routine,
which ends within them by assumption. -/
theorem refinesFrom_rounds (round : List Node → Routine (ForInStep (List Node)))
    {more : Lexeme → Bool} {next : Parser (List Node)} (hend : more .eof = false)
    (hlast : ∀ nodes s t, Matches limit s t → more t.current.lexeme = false →
      (round nodes).run s = .ok (.done nodes, s))
    (hnext : ∀ nodes s t, Matches limit s t → s.depth + left = limit →
      more t.current.lexeme = true →
      RefinesFrom limit s.depth s t (round nodes) (do return .yield (nodes ++ (← next))))
    (hmoves : ∀ {nodes nodes' s s'}, s.InOrder → (round nodes).run s = .ok (.yield nodes', s') →
      s.position < s'.position) :
    ∀ n bound nodes s t, Matches limit s t → s.depth + left = limit →
      s.tokens.size ≤ s.position + bound.length + 1 →
      RefinesFrom limit s.depth s t (rounds round n nodes)
        (do return nodes ++ (← Parser.rounds more next bound)) := by
  intro n
  induction n with
  | zero =>
    intro bound nodes s t hs hleft hbound a s' hrun
    cases hrun
  | succ n ih =>
    intro bound nodes s t hs hleft hbound a s' hrun
    obtain ⟨step, u, hround, hrest⟩ := exists_of_run_bind hrun
    -- the lexeme at the cursor asks for no round, or for one more
    cases hmore : more t.current.lexeme with
    | false =>
      cases (hlast nodes s t hs hmore).symm.trans hround
      cases hrest
      have hnone : Parser.rounds more next bound t = .ok [] t := by
        cases bound with
        | nil => rfl
        | cons b bound =>
          show (if more t.current.lexeme then _ else _ : Parser (List Node)) t = _
          rw [hmore]
          rfl
      rw [Parser.bind_of_ok hnone, List.append_nil]
      exact .ends hs rfl
    | true =>
      cases bound with
      | nil =>
        rw [hs.eof_of_size_le hbound, hend] at hmore
        cases hmore
      | cons b bound =>
        have hfollows := hnext nodes s t hs hleft hmore step u hround
        have hunfold : Parser.rounds more next (b :: bound) t =
            (next >>= fun first => Parser.rounds more next bound >>= fun rest =>
              pure (first ++ rest)) t := by
          show (if more t.current.lexeme then _ else _ : Parser (List Node)) t = _
          rw [hmore]
          rfl
        -- the round ends on both sides, or the parser by levels stops in it
        cases hp : next t with
        | ok first t' =>
          rw [Parser.bind_of_ok hp] at hfollows
          cases hfollows with
          | ends hmatches hdepth =>
            have hlt := hmoves hs.toInOrder hround
            have htokens := (leads_of_run _ hs.toInOrder hround).2.tokens
            have hinner := ih bound (nodes ++ first) u t' hmatches (hdepth ▸ hleft)
              (by rw [htokens]; rw [List.length_cons] at hbound; omega) a s' hrest
            rw [Parser.bind_of_ok hp] at hunfold
            rw [hdepth] at hinner
            cases hq : Parser.rounds more next bound t' with
            | ok rest t'' =>
              rw [Parser.bind_of_ok hq] at hunfold hinner
              rw [Parser.bind_of_ok hunfold, ← List.append_assoc]
              exact hinner
            | error e t'' =>
              rw [Parser.bind_of_error hq] at hunfold hinner
              rw [Parser.bind_of_error hunfold]
              cases hinner with
              | stops hflag herrors hne => exact .stops hflag herrors hne
        | error e t' =>
          rw [Parser.bind_of_error hp] at hfollows hunfold
          rw [Parser.bind_of_error hunfold]
          cases hfollows with
          | stops hflag herrors hne =>
            obtain ⟨horder, _⟩ := leads_of_run _ hs.toInOrder hround
            exact .of_stopped horder hflag herrors hne hrest

/-- What a round of a chain gives, where the other one takes a level by recursion, from
`chain left x` to `chain left' y`. `k` counts the levels taken, which the routine has to leave
later. -/
inductive ChainStep (limit : Nat) (chain : Nat → Node → Parser Node) (left : Nat) (x : Node)
    (k : Nat) (s : State) (t : Parser.State) : ForInStep (Node × Nat) → State → Prop where
  /-- The chain is at its end. -/
  | atEnd (hchain : chain left x t = .ok x t) : ChainStep limit chain left x k s t (.done (x, k)) s
  /-- A level is taken. -/
  | taken {left' : Nat} {y : Node} {s' : State} {t' : Parser.State} (hleft : left = left' + 1)
      (hmatches : Matches limit s' t') (hdepth : s'.depth = s.depth + 1)
      (hchain : chain left x t = chain left' y t') :
      ChainStep limit chain left x k s t (.yield (y, k + 1)) s'
  /-- The recursion stops. -/
  | stopped {step : ForInStep (Node × Nat)} {s' : State} {e : Stopped} {t' : Parser.State}
      (hchain : chain left x t = .error e t') (hflag : s'.overflowed = true)
      (herrors : t'.errors = s'.errors) (hne : s'.errors ≠ #[]) :
      ChainStep limit chain left x k s t step s'

/-- Every round of a chain is a `ChainStep`. -/
def RefinesChain (limit : Nat) (round : Node × Nat → Routine (ForInStep (Node × Nat)))
    (chain : Nat → Node → Parser Node) : Prop :=
  ∀ left x k s t, Matches limit s t → s.depth + left = limit →
    ∀ step s', (round (x, k)).run s = .ok (step, s') → ChainStep limit chain left x k s t step s'

variable {round : Node × Nat → Routine (ForInStep (Node × Nat))} {chain : Nat → Node → Parser Node}

/-- The rounds of a chain, by induction on their number. As many levels as were taken are held at
the end. -/
theorem RefinesChain.follows (h : RefinesChain limit round chain) :
    ∀ n left x k s t, Matches limit s t → s.depth + left = limit →
      ∀ y k' s', (rounds round n (x, k)).run s = .ok ((y, k'), s') →
        Follows limit (s.depth + k' - k) s' y (chain left x t) := by
  intro n
  induction n with
  | zero =>
    intro left x k s t hs hleft y k' s' hrun
    cases hrun
  | succ n ih =>
    intro left x k s t hs hleft y k' s' hrun
    obtain ⟨step, u, hstep, hrest⟩ := exists_of_run_bind hrun
    obtain ⟨horder, _⟩ := leads_of_run _ hs.toInOrder hstep
    cases h left x k s t hs hleft step u hstep with
    | atEnd hchain =>
      cases hrest
      rw [hchain]
      exact .ends hs (by omega)
    | @taken left' z _ t' hnext hmatches hdepth hchain =>
      have hfollows := ih left' z (k + 1) u t' hmatches (by omega) y k' s' hrest
      rw [hchain, show s.depth + k' - k = u.depth + k' - (k + 1) by omega]
      exact hfollows
    | stopped hchain hflag herrors hne =>
      -- a refused level stops the parser by levels, and the other one goes on without reporting
      rw [hchain]
      exact .of_stopped horder hflag herrors hne hrest

/-- At its end a chain leaves the levels it took, and `more` of those before it: none for calls,
that of the expression for operators. -/
theorem RefinesChain.refinesFrom (h : RefinesChain limit round chain) {s : State}
    {t : Parser.State} (hs : Matches limit s t) (hleft : s.depth + left = limit)
    (n : Nat) (x : Node) (more : Nat) :
    RefinesFrom limit (s.depth - more) s t (do
      let (y, k) ← rounds round n (x, 0)
      Action.leave (k + more)
      return y) (chain left x) := by
  intro a s' hrun
  obtain ⟨⟨y, k⟩, u, hrounds, hrest⟩ := exists_of_run_bind hrun
  obtain ⟨horder, _⟩ := leads_of_run _ hs.toInOrder hrounds
  have hfollows := h.follows n left x 0 s t hs hleft y k u hrounds
  cases hchain : chain left x t with
  | ok z t' =>
    rw [hchain] at hfollows
    cases hfollows with
    | ends hmatches hdepth =>
      have hle := hmatches.maxDepth ▸ hmatches.depth_le
      -- the levels of the chain and `more` are left in one step
      have hleave : RefinesFrom limit (s.depth - more) u t' (do
          Action.leave (k + more)
          return y) (pure y) :=
        .leave_bind (.pure (hmatches.withDepth (by omega))
          (show u.depth - (k + more) = s.depth - more by omega) y)
      exact hleave a s' hrest
  | error e t' =>
    rw [hchain] at hfollows
    cases hfollows with
    | stops hflag herrors hne =>
      exact .of_stopped horder hflag herrors hne hrest

end Loops

/-! ## Recovery -/

section Recovery

variable {limit left : Nat}

/-- The lexeme at the cursor decides what a round of `synchronize` does. `skip_cons` has the same
cases for the other side. -/
theorem run_skipRound {s : State} {t : Parser.State} (hs : Matches limit s t) :
    (skipRound ()).run s =
      if t.current.lexeme = .eof ∨ t.current.lexeme = .symbol .rightBrace then .ok (.done (), s)
      else if t.current.lexeme = .symbol .semicolon then .ok (.done (), s.advance)
      else .ok (.yield (), s.advance) := by
  have hadvance : (liftM Action.advance : Routine Token).run s = .ok (t.current, s.advance) :=
    perform_advance hs.current
  rw [skipRound, run_bind_of_ok (run_isAt hs.current _), run_bind_of_ok (run_isAt hs.current _)]
  by_cases hend : t.current.lexeme = .eof ∨ t.current.lexeme = .symbol .rightBrace
  · rw [if_pos hend, if_pos (by simpa using hend)]
    rfl
  · rw [if_neg hend, if_neg (by simpa using hend), run_bind_of_ok (run_isAt hs.current _)]
    by_cases hsemicolon : t.current.lexeme = .symbol .semicolon
    · rw [if_pos hsemicolon, if_pos (by simpa using hsemicolon), run_bind_of_ok hadvance]
      rfl
    · rw [if_neg hsemicolon, if_neg (by simpa using hsemicolon), run_bind_of_ok hadvance]
      rfl

/-- `Parser.skip` by the cases that `run_skipRound` has. -/
theorem skip_cons (b : Token) (bound : List Token) (t : Parser.State) :
    Parser.skip (b :: bound) t =
      if t.current.lexeme = .eof ∨ t.current.lexeme = .symbol .rightBrace then .ok () t
      else if t.current.lexeme = .symbol .semicolon then .ok () t.advance
      else Parser.skip bound t.advance := by
  have hpeek : Parser.peek t = .ok t.current.lexeme t := rfl
  rw [Parser.skip, Parser.bind_of_ok hpeek]
  generalize t.current.lexeme = l
  cases l with
  | symbol x => cases x <;> rfl
  | keyword | integer | float | string | ident | eof => rfl

/-- The loop of the recovery, by induction on the rounds of the routine. As in `refinesFrom_rounds`,
the list of tokens bounds the other side and is long enough. -/
theorem refinesFrom_skip :
    ∀ n bound s t, Matches limit s t → s.tokens.size ≤ s.position + bound.length + 1 →
      RefinesFrom limit s.depth s t (rounds skipRound n ()) (Parser.skip bound) := by
  intro n
  induction n with
  | zero =>
    intro bound s t hs hbound a s' hrun
    cases hrun
  | succ n ih =>
    intro bound s t hs hbound a s' hrun
    obtain ⟨step, u, hstep, hrest⟩ := exists_of_run_bind hrun
    rw [run_skipRound hs] at hstep
    cases bound with
    | nil =>
      -- without tokens to go over the cursor is at the end
      rw [if_pos (.inl (hs.eof_of_size_le hbound))] at hstep
      cases hstep
      cases hrest
      exact .ends hs rfl
    | cons b bound =>
      rw [skip_cons]
      split at hstep
      next hend =>
        cases hstep
        cases hrest
        rw [if_pos hend]
        exact .ends hs rfl
      next hend =>
        rw [if_neg hend]
        split at hstep
        next hsemicolon =>
          cases hstep
          cases hrest
          rw [if_pos hsemicolon]
          exact .ends hs.advance s.depth_advance
        next hsemicolon =>
          cases hstep
          rw [if_neg hsemicolon, ← s.depth_advance]
          -- the cursor moves on, since it is not at the end
          have hposition := hs.position_advance hs.current fun heof => hend (.inl heof)
          have htokens := State.Step.advance (s := s) |>.leads.tokens
          rw [List.length_cons] at hbound
          refine ih bound s.advance t.advance hs.advance ?_ a s' hrest
          rw [htokens, hposition]
          omega

/-- What stands before the cursor is the same. The one reads it by its index, the other one has kept
it. -/
theorem perform_previous {s : State} {t : Parser.State} (hs : Matches limit s t) :
    ∃ token, Action.previous.perform s = .ok (token, s) ∧
      token.map Token.lexeme = t.previous := by
  rw [hs.previous]
  by_cases hfirst : s.position = 0
  · refine ⟨none, ?_, (if_pos hfirst).symm⟩
    simp only [Action.perform, if_pos hfirst]
    rfl
  · obtain ⟨token, htoken⟩ := hs.exists_token (Nat.sub_le s.position 1)
    refine ⟨some token, ?_, by rw [if_neg hfirst, htoken]⟩
    simp only [Action.perform, if_neg hfirst, State.token_of_eq_some htoken]
    rfl

/-- Behind a `;` or a `}` neither skips anything. Elsewhere both skip, and all the tokens behind the
cursor bound the rounds of the parser by levels. -/
theorem refines_synchronize (c : Context) :
    Refines limit left (synchronize c) Parser.synchronize := by
  intro s t hs hleft a s' hrun
  obtain ⟨token, hprevious, htoken⟩ := perform_previous hs
  rw [synchronize, run_bind_of_ok (r := liftM Action.previous) hprevious, htoken] at hrun
  show Follows limit s.depth s' a ((if t.previous = some (.symbol .semicolon) ∨
    t.previous = some (.symbol .rightBrace) then pure () else Parser.skip t.ahead : Parser Unit) t)
  -- the tokens that are left are at the cursor or ahead of it
  have hsize : s.tokens.size ≤ s.position + t.ahead.length + 1 := by
    rw [hs.ahead, List.length_drop, Array.length_toList]
    omega
  split at hrun
  next heq =>
    rw [if_pos (.inl heq)]
    cases hrun
    exact .ends hs rfl
  next heq =>
    rw [if_pos (.inr heq)]
    cases hrun
    exact .ends hs rfl
  next hsemicolon hbrace =>
    rw [if_neg (by simp_all)]
    exact refinesFrom_skip c.bound t.ahead s t hs hsize a s' hrun

/-- The routine also asks whether a level was refused. In states that match none was
(`Matches.flag`). -/
theorem refines_recover (c : Context) (errorCount : Nat) :
    Refines limit left (recover c errorCount) (do
      if errorCount < (← get).errors.size then Parser.synchronize) := by
  intro s t hs hleft a s' hrun
  change (if (decide (errorCount < s.errors.size) && !s.overflowed) = true then synchronize c
    else pure ()).run s = _ at hrun
  show Follows limit s.depth s' a
    ((if errorCount < t.errors.size then Parser.synchronize else pure () : Parser Unit) t)
  rw [hs.errors]
  by_cases hlt : errorCount < s.errors.size
  · rw [if_pos (by simp [hlt, hs.flag])] at hrun
    rw [if_pos hlt]
    exact refines_synchronize c s t hs hleft a s' hrun
  · rw [if_neg (by simp [hlt])] at hrun
    rw [if_neg hlt]
    cases hrun
    exact .ends hs rfl

/-- At the end the other one advances as well, but there it stays where it is. -/
theorem refines_moveOn (position : Nat) :
    Refines limit left (moveOn position) (do
      if position = (← get).position then Parser.advance) := by
  intro s t hs hleft a s' hrun
  have hposition : (liftM Action.position : Routine Nat).run s = .ok (s.position, s) := rfl
  rw [moveOn, run_bind_of_ok hposition, run_bind_of_ok (run_isAt hs.current _)] at hrun
  show Follows limit s.depth s' a
    ((if position = t.position then Parser.advance else pure () : Parser Unit) t)
  rw [hs.position]
  by_cases hsame : position = s.position
  · rw [if_pos hsame]
    by_cases heof : t.current.lexeme = .eof
    · rw [if_neg (by simp [heof])] at hrun
      cases hrun
      -- on the last token the parser by levels stays where it is
      have hadvance : Parser.advance t = .ok () t := by
        show EStateM.Result.ok () t.advance = _
        rw [Parser.State.advance, hs.ahead, (hs.endsOnce_drop hs.current).eq_singleton heof]
      rw [hadvance]
      exact .ends hs rfl
    · rw [if_pos (by simp [hsame, heof])] at hrun
      have hadvance : (liftM Action.advance : Routine Token).run s = .ok (t.current, s.advance) :=
        perform_advance hs.current
      rw [run_bind_of_ok hadvance] at hrun
      cases hrun
      exact .ends hs.advance s.depth_advance
  · rw [if_neg hsame]
    rw [if_neg (by simp [hsame])] at hrun
    cases hrun
    exact .ends hs rfl

end Recovery

end Routine

end SimpleLang
