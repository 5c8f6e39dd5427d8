import SimpleLang.Proofs.Parser.Runs

/-!
# The bookkeeping of the parser

Wherever the parser stands among its tokens and whatever these are, each of its routines comes to an
end without a `Fault`, and until then its cursor and its counter of levels are in order.

That the cursor never moves back and the counter never exceeds its limit is a matter of single steps
(`leads_of_mem_moments`). That no more levels are left than were entered, and that loops and the
recursion end within their bounds, is a matter of how each rule is written: `Holds` says that a
routine ends with as many levels held as its result says, and there is one lemma for each rule.

A loop ends because each of its rounds but the last moves the cursor (`Holds.rounds`). The recursion
ends because a level is granted each time a rule comes back to another one (`balanced_rule`).
-/

namespace SimpleLang

open SimpleLang.Parser (EndsOnce)

namespace Routine

/-! ## Levels that are held

A rule enters levels and leaves them later, the levels of a chain all at once. In between it holds
them, and the number it holds is in a counter of its own. So a part of a rule is described relative
to the level `base` that the rule was called on: it starts with `k` levels held and ends with as
many as its result says. -/

/-- The state is in order, the loops have at least as many rounds as there are tokens, and rules can
come back to others more often than there are levels left above `base`. -/
structure State.Ready (bound left base : Nat) (s : State) : Prop extends s.InOrder where
  size_le : s.tokens.size ≤ bound
  maxDepth_lt : s.maxDepth < base + left

/-- What `Ready` says about the tokens and the limit, no run changes. -/
theorem State.Leads.ready {bound left base : Nat} {s t : State} (h : s.Leads t)
    (hs : s.Ready bound left base) (ht : t.InOrder) : t.Ready bound left base where
  toInOrder := ht
  size_le := h.tokens ▸ hs.size_le
  maxDepth_lt := h.maxDepth ▸ hs.maxDepth_lt

/-- With `k` levels held the routine ends without a fault, and then `held a` levels are held. `base`
is any level, so that what is proved of a rule holds wherever it is called. -/
def Holds {α : Type} (bound left k : Nat) (r : Routine α) (held : α → Nat) : Prop :=
  ∀ (base : Nat) (s : State), s.Ready bound left base → s.depth = base + k →
    ∃ a t, r.run s = .ok (a, t) ∧ t.depth = base + held a

/-- The routine ends without a fault, and with the levels that were held before. This is what a rule
looks like from outside. -/
def Balanced {α : Type} (bound left : Nat) (r : Routine α) : Prop :=
  ∀ k, Holds bound left k r fun _ => k

section Holds

variable {α β : Type} {bound left k : Nat} {r : Routine α} {f : α → Routine β} {held : α → Nat}

/-- The levels that are held after the first part are those the second one starts with. -/
theorem Holds.bind {held' : β → Nat} (h : Holds bound left k r held)
    (hf : ∀ a, Holds bound left (held a) (f a) held') : Holds bound left k (r >>= f) held' := by
  intro base s hs hdepth
  obtain ⟨a, t, hrun, ht⟩ := h base s hs hdepth
  obtain ⟨horder, hleads⟩ := leads_of_run _ hs.toInOrder hrun
  rw [run_bind_of_ok hrun]
  exact hf a base t (hleads.ready hs horder) ht

theorem Holds.pure (a : α) (h : held a = k) : Holds bound left k (pure a) held :=
  fun _ s _ hdepth => ⟨a, s, rfl, h ▸ hdepth⟩

theorem balanced_pure (a : α) : Balanced bound left (pure a) := fun _ => .pure a rfl

theorem Balanced.bind (h : Balanced bound left r) (hf : ∀ a, Balanced bound left (f a)) :
    Balanced bound left (r >>= f) :=
  fun k => (h k).bind fun a => hf a k

/-- With fewer levels left above the base a routine still ends. -/
theorem Balanced.mono {left' : Nat} (h : Balanced bound left r) (hle : left' ≤ left) :
    Balanced bound left' r :=
  fun k base s hs => h k base s { hs with maxDepth_lt := by have := hs.maxDepth_lt; omega }

/-- What holds relative to one base holds relative to every other one: the `k` levels below are
counted to the base. -/
theorem balanced_of_holds (h : Holds bound left 0 r fun _ => 0) : Balanced bound left r := by
  intro k base s hs hdepth
  exact h (base + k) s { hs with maxDepth_lt := by have := hs.maxDepth_lt; omega } hdepth

/-- Under a level that is held one less may be left. So a rule that enters a level can come back to
rules that are balanced with one level less. -/
theorem Holds.above {left' : Nat} (h : Holds bound left k r held) (hleft : left' ≤ left + 1) :
    Holds bound left' (k + 1) r fun a => held a + 1 := by
  intro base s hs hdepth
  have hbase : s.Ready bound left (base + 1) :=
    { hs with maxDepth_lt := by have := hs.maxDepth_lt; omega }
  obtain ⟨a, t, hrun, ht⟩ := h (base + 1) s hbase (by omega)
  refine ⟨a, t, hrun, ?_⟩
  show t.depth = base + (held a + 1)
  omega

/-- The rounds of a loop end within the bound, since each one but the last moves the cursor and
there are not more tokens than rounds. -/
theorem Holds.rounds {σ : Type} {round : σ → Routine (ForInStep σ)} (held : σ → Nat)
    (h : ∀ a, Holds bound left (held a) (round a) fun step => held step.value)
    (hmoves : ∀ {a b s t}, s.InOrder → (round a).run s = .ok (.yield b, t) →
      s.position < t.position) (a : σ) :
    Holds bound left (held a) (rounds round bound a) held := by
  -- `n` rounds are enough where at most `n` tokens are left
  suffices hn : ∀ n a base (s : State), s.Ready bound left base → s.depth = base + held a →
      s.tokens.size - s.position ≤ n →
      ∃ b t, (Routine.rounds round n a).run s = .ok (b, t) ∧ t.depth = base + held b from
    fun base s hs hdepth => hn bound a base s hs hdepth (by have := hs.size_le; omega)
  intro n
  induction n with
  | zero =>
    intro a base s hs hdepth hleft
    have := hs.position_lt
    omega
  | succ n ih =>
    intro a base s hs hdepth hleft
    obtain ⟨step, t, hrun, ht⟩ := h a base s hs hdepth
    obtain ⟨horder, hleads⟩ := leads_of_run _ hs.toInOrder hrun
    rw [Routine.rounds, run_bind_of_ok hrun]
    cases step with
    | done b => exact ⟨b, t, rfl, ht⟩
    | yield b =>
      have hlt := hmoves hs.toInOrder hrun
      have htokens := hleads.tokens
      exact ih b base t (hleads.ready hs horder) ht (by rw [htokens]; omega)

theorem Balanced.rounds {σ : Type} {round : σ → Routine (ForInStep σ)}
    (h : ∀ a, Balanced bound left (round a))
    (hmoves : ∀ {a b s t}, s.InOrder → (round a).run s = .ok (.yield b, t) →
      s.position < t.position) (a : σ) : Balanced bound left (rounds round bound a) :=
  fun k => Holds.rounds (fun _ => k) (fun a => h a k) hmoves a

end Holds

/-! ## Actions -/

section Actions

variable {α β : Type} {bound left k : Nat}

/-- An action that does not touch the counter is balanced, if a state in order makes it possible. -/
theorem balanced_act {action : Action α}
    (h : ∀ s, s.InOrder → ∃ a t, action.perform s = .ok (a, t) ∧ t.depth = s.depth) :
    Balanced bound left (liftM action) := by
  intro k base s hs hdepth
  obtain ⟨a, t, hrun, ht⟩ := h s hs.toInOrder
  exact ⟨a, t, hrun, ht.trans hdepth⟩

@[simp] theorem State.depth_advance (s : State) : s.advance.depth = s.depth := by
  rcases s.advance_cases with heq | ⟨_, heq⟩ <;> rw [heq]

@[simp] theorem State.depth_report (s : State) (e : SyntaxError) (span : Span) :
    (s.report e span).depth = s.depth := by
  rcases s.report_cases e span with heq | ⟨_, heq⟩ <;> rw [heq]

theorem balanced_current : Balanced bound left (liftM Action.current) :=
  balanced_act fun s hs =>
    have ⟨t, ht⟩ := hs.exists_current
    ⟨t, s, perform_current ht, rfl⟩

theorem balanced_ahead (offset : Nat) : Balanced bound left (liftM (Action.ahead offset)) :=
  balanced_act fun s hs =>
    have ⟨t, ht⟩ := hs.exists_ahead offset
    ⟨t, s, perform_ahead ht, rfl⟩

theorem balanced_previous : Balanced bound left (liftM Action.previous) := by
  refine balanced_act fun s hs => ?_
  by_cases hfirst : s.position = 0
  · exact ⟨none, s, by simp only [Action.perform, if_pos hfirst]; rfl, rfl⟩
  · obtain ⟨t, ht⟩ := hs.exists_token (Nat.sub_le s.position 1)
    refine ⟨some t, s, ?_, rfl⟩
    simp only [Action.perform, if_neg hfirst, State.token_of_eq_some ht]
    rfl

theorem balanced_advance : Balanced bound left (liftM Action.advance) :=
  balanced_act fun s hs =>
    have ⟨t, ht⟩ := hs.exists_current
    ⟨t, s.advance, perform_advance ht, s.depth_advance⟩

theorem balanced_report (e : SyntaxError) : Balanced bound left (liftM (Action.report e)) :=
  balanced_act fun s hs =>
    have ⟨t, ht⟩ := hs.exists_current
    ⟨(), s.report e t.span, perform_report e ht, s.depth_report e t.span⟩

theorem balanced_position : Balanced bound left (liftM Action.position) :=
  balanced_act fun s _ => ⟨s.position, s, rfl, rfl⟩

theorem balanced_errorCount : Balanced bound left (liftM Action.errorCount) :=
  balanced_act fun s _ => ⟨s.errors.size, s, rfl, rfl⟩

theorem balanced_overflowed : Balanced bound left (liftM Action.overflowed) :=
  balanced_act fun s _ => ⟨s.overflowed, s, rfl, rfl⟩

/-- A level that is granted is held from then on. One that is refused is not, be it for the limit or
after an overflow. -/
theorem holds_enter : Holds bound left k (liftM Action.enter) fun granted =>
    if granted then k + 1 else k := by
  intro base s hs hdepth
  change ∃ a t, Action.enter.perform s = .ok (a, t) ∧ _
  simp only [Action.perform]
  split
  · exact ⟨false, s, rfl, hdepth⟩
  · split
    · obtain ⟨t, ht⟩ := hs.exists_current
      rw [State.token_of_eq_some ht]
      exact ⟨false, _, rfl, (s.depth_report _ _).trans hdepth⟩
    · exact ⟨true, _, rfl, by rw [hdepth]; exact Nat.add_assoc base k 1⟩

/-- The two ways on from `Action.enter`. -/
theorem Holds.enter_bind {f : Bool → Routine β} {held : β → Nat}
    (hgranted : Holds bound left (k + 1) (f true) held)
    (hrefused : Holds bound left k (f false) held) :
    Holds bound left k (liftM Action.enter >>= f) held := by
  refine holds_enter.bind fun granted => ?_
  cases granted with
  | true => exact hgranted
  | false => exact hrefused

/-- All the levels that are held can be left, so this is no `Fault.underflow`. -/
theorem holds_leave (levels : Nat) :
    Holds bound left levels (liftM (Action.leave levels)) fun _ => 0 := by
  intro base s hs hdepth
  change ∃ a t, (Action.leave levels).perform s = .ok (a, t) ∧ _
  simp only [Action.perform]
  rw [if_neg (by omega)]
  exact ⟨(), _, rfl, by show s.depth - levels = _; omega⟩

end Actions

/-! ## Basic steps -/

section Basic

variable {bound left : Nat} (source : String)

theorem balanced_peek : Balanced bound left peek := balanced_current.bind fun _ => balanced_pure _

theorem balanced_peekAt (offset : Nat) : Balanced bound left (peekAt offset) :=
  (balanced_ahead offset).bind fun _ => balanced_pure _

theorem balanced_isAt (l : Lexeme) : Balanced bound left (isAt l) :=
  balanced_peek.bind fun _ => balanced_pure _

theorem balanced_missing (kind : NodeKind) : Balanced bound left (missing source kind) :=
  balanced_current.bind fun _ => balanced_pure _

theorem balanced_node (kind : NodeKind) (children : List Node) :
    Balanced bound left (node source kind children) := by
  unfold node
  split
  · exact balanced_pure _
  · exact balanced_missing source kind

theorem balanced_bump : Balanced bound left (bump source) :=
  balanced_advance.bind fun _ => balanced_pure _

theorem balanced_expect (wanted : Symbol) : Balanced bound left (expect source wanted) := by
  refine (balanced_isAt _).bind fun found => ?_
  split
  · exact (balanced_bump source).bind fun _ => balanced_pure _
  · exact balanced_peek.bind fun _ => (balanced_report _).bind fun _ => balanced_pure _

theorem balanced_expectName : Balanced bound left (expectName source) := by
  refine balanced_peek.bind fun found => ?_
  split
  · exact (balanced_bump source).bind fun _ => balanced_pure _
  · exact (balanced_report _).bind fun _ => balanced_pure _

end Basic

/-! ## Loops -/

/-- What begins by taking a token other than the end moves the cursor, since no run moves it
back. -/
theorem position_lt_of_advance {α : Type} {f : Token → Routine α} {s u : State} {t : Token} {a : α}
    (hs : s.InOrder) (ht : s.tokens[s.position]? = some t) (hne : t.lexeme ≠ .eof)
    (h : (liftM Action.advance >>= f).run s = .ok (a, u)) : s.position < u.position := by
  have hadvance : (liftM Action.advance : Routine Token).run s = .ok (t, s.advance) :=
    perform_advance ht
  rw [run_bind_of_ok hadvance] at h
  obtain ⟨horder, _⟩ := leads_of_run (liftM Action.advance : Routine Token) hs hadvance
  have hle := (leads_of_run _ horder h).2.position_le
  rw [hs.position_advance ht hne] at hle
  exact hle

theorem position_lt_of_bump {α : Type} {source : String} {f : Node → Routine α} {s u : State}
    {t : Token} {a : α} (hs : s.InOrder) (ht : s.tokens[s.position]? = some t)
    (hne : t.lexeme ≠ .eof) (h : (bump source >>= f).run s = .ok (a, u)) :
    s.position < u.position := by
  obtain ⟨n, v, hbump, hrest⟩ := exists_of_run_bind h
  obtain ⟨horder, _⟩ := leads_of_run _ hs hbump
  exact Nat.lt_of_lt_of_le (position_lt_of_advance hs ht hne hbump)
    (leads_of_run _ horder hrest).2.position_le

/-- So does what first enters a level, if it goes on at all. A level that is refused ends the
loop. -/
theorem position_lt_of_enter {σ : Type} {source : String} {f : Node → Routine Node}
    {g : Node → σ} {a b : σ} {s u : State} {t : Token} (hs : s.InOrder)
    (ht : s.tokens[s.position]? = some t) (hne : t.lexeme ≠ .eof)
    (h : (liftM Action.enter >>= fun granted =>
      if granted = true then (bump source >>= f) >>= fun n => pure (ForInStep.yield (g n))
      else pure (ForInStep.done a)).run s = .ok (ForInStep.yield b, u)) :
    s.position < u.position := by
  obtain ⟨granted, v, henter, hrest⟩ := exists_of_run_bind h
  obtain ⟨hv, hsv⟩ := leads_of_run _ hs henter
  split at hrest
  · obtain ⟨n, w, hbump, hrest⟩ := exists_of_run_bind hrest
    cases hrest
    -- if entering has not moved the cursor, taking the token does
    rcases Nat.eq_or_lt_of_le hsv.position_le with heq | hlt
    · rw [heq] at ht ⊢
      exact position_lt_of_bump hv (hsv.tokens ▸ ht) hne hbump
    · exact Nat.lt_of_lt_of_le hlt (leads_of_run _ hv hbump).2.position_le
  · cases hrest

/-! ## Looking ahead -/

/-- Names and commas are not the end, so the look-ahead stops before the tokens are used up. It
changes nothing in the state. -/
theorem exists_run_lambdaFrom {s : State} (hs : s.InOrder) :
    ∀ bound offset, 0 < bound → s.tokens.size ≤ s.position + offset + bound →
      ∃ answer, (lambdaFrom bound offset).run s = .ok (answer, s) := by
  intro bound
  induction bound with
  | zero => exact fun _ h => absurd h (Nat.lt_irrefl 0)
  | succ bound ih =>
    intro offset _ hsize
    obtain ⟨t, ht⟩ := hs.exists_ahead offset
    -- behind a token that is not the end there is another one to look at
    have hnext (hne : t.lexeme ≠ .eof) :
        ∃ answer, (lambdaFrom bound (offset + 1)).run s = .ok (answer, s) := by
      have hlt := hs.lt_of_ne_eof ht hne
      exact ih (offset + 1) (by omega) (by omega)
    rw [lambdaFrom, run_bind_of_ok (run_peekAt ht)]
    split
    next heq => exact hnext (by simp [heq])
    next heq => exact hnext (by simp [heq])
    · obtain ⟨u, hu⟩ := hs.exists_ahead (offset + 1)
      rw [run_bind_of_ok (run_peekAt hu)]
      exact ⟨_, rfl⟩
    · exact ⟨false, rfl⟩

/-! ## The rules -/

section Rules

variable {c : Context} {left : Nat} (hc : ∀ r, Balanced c.bound left (c.nested r))

/-- A round of `furtherItems` that goes on has taken a comma. -/
theorem position_lt_of_itemRound {item : Routine (List Node)} {items items' : List Node}
    {s t : State} (hs : s.InOrder)
    (hrun : (itemRound c item items).run s = .ok (.yield items', t)) :
    s.position < t.position := by
  obtain ⟨u, hu⟩ := hs.exists_current
  rw [itemRound, run_bind_of_ok (run_isAt hu _)] at hrun
  split at hrun
  · exact position_lt_of_bump hs hu (by simp_all) hrun
  · cases hrun

theorem balanced_furtherItems {item : Routine (List Node)} (h : Balanced c.bound left item)
    (items : List Node) : Balanced c.bound left (furtherItems c item items) := by
  refine Balanced.rounds (fun items => ?_) position_lt_of_itemRound items
  refine (balanced_isAt _).bind fun comma => ?_
  split
  · exact (balanced_bump _).bind fun _ => h.bind fun _ => balanced_pure _
  · exact balanced_pure _

/-- A round of the recovery that goes on has taken a token that is not the end. -/
theorem balanced_synchronize : Balanced c.bound left (synchronize c) := by
  refine balanced_previous.bind fun previous => ?_
  split
  · exact balanced_pure _
  · exact balanced_pure _
  · refine Balanced.rounds (fun _ => ?_) (fun {_ _ s t} hs hrun => ?_) ()
    · refine (balanced_isAt _).bind fun eof => (balanced_isAt _).bind fun brace => ?_
      split
      · exact balanced_pure _
      · refine (balanced_isAt _).bind fun semicolon => ?_
        split
        · exact balanced_advance.bind fun _ => balanced_pure _
        · exact balanced_advance.bind fun _ => balanced_pure _
    -- a round that goes on has moved past a token
    · obtain ⟨u, hu⟩ := hs.exists_current
      rw [skipRound, run_bind_of_ok (run_isAt hu _), run_bind_of_ok (run_isAt hu _)] at hrun
      split at hrun
      · cases hrun
      · rw [run_bind_of_ok (run_isAt hu _)] at hrun
        have hne : u.lexeme ≠ .eof := by simp_all
        split at hrun
        · exact position_lt_of_advance hs hu hne hrun
        · exact position_lt_of_advance hs hu hne hrun

theorem balanced_recover (errorCount : Nat) : Balanced c.bound left (recover c errorCount) := by
  refine balanced_errorCount.bind fun now => balanced_overflowed.bind fun flag => ?_
  split
  · exact balanced_synchronize
  · exact balanced_pure _

theorem balanced_moveOn {bound : Nat} (position : Nat) : Balanced bound left (moveOn position) := by
  refine balanced_position.bind fun now => (balanced_isAt _).bind fun eof => ?_
  split
  · exact balanced_advance.bind fun _ => balanced_pure _
  · exact balanced_pure _

/-- `moveOn` moves the cursor if it is where it was. -/
theorem position_lt_of_moveOn {s t : State} {u : Token} (hs : s.InOrder)
    (hu : s.tokens[s.position]? = some u) (hne : u.lexeme ≠ .eof)
    (hrun : (moveOn s.position).run s = .ok ((), t)) : s.position < t.position := by
  have hposition : (liftM Action.position : Routine Nat).run s = .ok (s.position, s) := rfl
  rw [moveOn, run_bind_of_ok hposition, run_bind_of_ok (run_isAt hu _), if_pos (by simp [hne])]
    at hrun
  exact position_lt_of_advance hs hu hne hrun

/-- Off the end a guarded statement moves the cursor, whatever the statement does: if neither it nor
the recovery has, then `moveOn` does. -/
theorem position_lt_of_guardedStatement {s t : State} {u : Token} {n : Node} (hs : s.InOrder)
    (hu : s.tokens[s.position]? = some u) (hne : u.lexeme ≠ .eof)
    (hrun : (guardedStatement c).run s = .ok (n, t)) : s.position < t.position := by
  change (c.nested .statement >>= fun result => recover c s.errors.size >>= fun _ =>
    moveOn s.position >>= fun _ => pure result).run s = .ok (n, t) at hrun
  obtain ⟨result, v, hstatement, hrun⟩ := exists_of_run_bind hrun
  obtain ⟨⟨⟩, w, hrecover, hrun⟩ := exists_of_run_bind hrun
  obtain ⟨⟨⟩, w', hmove, hrun⟩ := exists_of_run_bind hrun
  cases hrun
  obtain ⟨hv, hsv⟩ := leads_of_run _ hs hstatement
  obtain ⟨hw, hvw⟩ := leads_of_run _ hv hrecover
  have hsw := hsv.trans hvw
  -- if neither the statement nor the recovery has moved the cursor, `moveOn` does
  rcases Nat.eq_or_lt_of_le hsw.position_le with heq | hlt
  · rw [heq] at hmove hu ⊢
    rw [← hsw.tokens] at hu
    exact position_lt_of_moveOn hw hu hne hmove
  · exact Nat.lt_of_lt_of_le hlt (leads_of_run _ hw hmove).2.position_le

/-- A test that reads only, and that says so when the end is at the cursor. -/
def EndsStatements (ends : Routine Bool) : Prop :=
  ∀ {s : State} {u : Token}, s.InOrder → s.tokens[s.position]? = some u →
    ∃ finished, ends.run s = .ok (finished, s) ∧ (finished = false → u.lexeme ≠ .eof)

theorem endsStatements_isAt : EndsStatements (isAt .eof) :=
  fun {_ u} _ hu => ⟨u.lexeme == .eof, run_isAt hu _, by simp⟩

theorem endsStatements_atBlockEnd : EndsStatements atBlockEnd := by
  intro s u hs hu
  refine ⟨u.lexeme == .symbol .rightBrace || u.lexeme == .eof, ?_, by simp⟩
  rw [atBlockEnd, run_bind_of_ok (run_isAt hu _), run_bind_of_ok (run_isAt hu _)]
  rfl

/-- A round that goes on was not told to end, so it is not at the end and parses a guarded
statement. -/
theorem position_lt_of_statementRound {ends : Routine Bool} (hends : EndsStatements ends)
    {statements statements' : List Node} {s t : State} (hs : s.InOrder)
    (hround : (statementRound c ends statements).run s = .ok (.yield statements', t)) :
    s.position < t.position := by
  obtain ⟨u, hu⟩ := hs.exists_current
  obtain ⟨finished, hfinished, hne⟩ := hends hs hu
  rw [statementRound, run_bind_of_ok hfinished] at hround
  cases finished with
  | true => cases hround
  | false =>
    obtain ⟨n, w, hstatement, hrest⟩ := exists_of_run_bind hround
    have hlt := position_lt_of_guardedStatement hs hu (hne rfl) hstatement
    have hle := (leads_of_run _ (leads_of_run _ hs hstatement).1 hrest).2.position_le
    exact Nat.lt_of_lt_of_le hlt hle

include hc

theorem balanced_expression : Balanced c.bound left (expression c) := hc _

theorem balanced_guardedStatement : Balanced c.bound left (guardedStatement c) :=
  balanced_position.bind fun _ => balanced_errorCount.bind fun _ => (hc _).bind fun _ =>
    (balanced_recover _).bind fun _ => (balanced_moveOn _).bind fun _ => balanced_pure _

/-- The loop over statements, for a block and for a program. -/
theorem balanced_guardedStatements {ends : Routine Bool} (hends : EndsStatements ends)
    (hbalanced : Balanced c.bound left ends) :
    Balanced c.bound left (guardedStatements c ends) := by
  refine Balanced.rounds (fun statements => ?_) (position_lt_of_statementRound hends) []
  refine hbalanced.bind fun finished => ?_
  split
  · exact balanced_pure _
  · refine (balanced_guardedStatement hc).bind fun next => balanced_overflowed.bind fun flag => ?_
    split
    · exact balanced_pure _
    · exact balanced_pure _

theorem balanced_program : Balanced c.bound left (guardedStatements c (isAt .eof)) :=
  balanced_guardedStatements hc endsStatements_isAt (balanced_isAt _)

theorem balanced_block : Balanced c.bound left (block c) := by
  have hbody := balanced_guardedStatements hc endsStatements_atBlockEnd
    ((balanced_isAt _).bind fun _ => (balanced_isAt _).bind fun _ => balanced_pure _)
  exact (balanced_expect _ _).bind fun _ => hbody.bind fun _ => (balanced_expect _ _).bind fun _ =>
    balanced_node _ _ _

omit hc in
theorem balanced_parameters : Balanced c.bound left (parameters c) :=
  (balanced_expectName _).bind fun _ =>
    (balanced_furtherItems (balanced_expectName _) _).bind fun _ => balanced_node _ _ _

omit hc in
theorem balanced_parametersUnlessClosed : Balanced c.bound left (parametersUnlessClosed c) := by
  refine (balanced_isAt _).bind fun closed => ?_
  split
  · exact balanced_pure _
  · exact balanced_parameters.bind fun _ => balanced_pure _

theorem balanced_expressionsUnless (closing : Symbol) :
    Balanced c.bound left (expressionsUnless c closing) := by
  refine (balanced_isAt _).bind fun closed => ?_
  split
  · exact balanced_pure _
  · exact (balanced_expression hc).bind fun _ =>
      balanced_furtherItems ((balanced_expression hc).bind fun _ => balanced_pure _) _

/-! ### Statements -/

theorem balanced_declaration : Balanced c.bound left (declaration c) := by
  refine (balanced_bump _).bind fun _ => (balanced_expectName _).bind fun _ =>
    (balanced_isAt _).bind fun assigned => ?_
  split
  · exact (balanced_bump _).bind fun _ => (balanced_expression hc).bind fun _ =>
      (balanced_pure _).bind fun _ => balanced_node _ _ _
  · exact (balanced_pure _).bind fun _ => balanced_node _ _ _

theorem balanced_assignment : Balanced c.bound left (assignment c) :=
  (balanced_bump _).bind fun _ => (balanced_bump _).bind fun _ => (balanced_expression hc).bind
    fun _ => balanced_node _ _ _

theorem balanced_functionBody : Balanced c.bound left (functionBody c) := by
  refine (balanced_isAt _).bind fun arrow => ?_
  split
  · exact (balanced_bump _).bind fun _ => (balanced_expression hc).bind fun _ =>
      (balanced_expect _ _).bind fun _ => balanced_pure _
  · refine (balanced_isAt _).bind fun brace => ?_
    split
    · exact (balanced_block hc).bind fun _ => balanced_pure _
    · exact balanced_peek.bind fun _ => (balanced_report _).bind fun _ => balanced_pure _

theorem balanced_function : Balanced c.bound left (function c) :=
  (balanced_bump _).bind fun _ => (balanced_expectName _).bind fun _ => (balanced_expect _ _).bind
    fun _ => balanced_parametersUnlessClosed.bind fun _ => (balanced_expect _ _).bind fun _ =>
      (balanced_functionBody hc).bind fun _ => (balanced_node _ _ _).bind fun _ => balanced_pure _

theorem balanced_returning : Balanced c.bound left (returning c) := by
  refine (balanced_bump _).bind fun _ => (balanced_isAt _).bind fun closed => ?_
  split
  · exact (balanced_pure _).bind fun _ => balanced_node _ _ _
  · exact (balanced_expression hc).bind fun _ => (balanced_pure _).bind fun _ =>
      balanced_node _ _ _

theorem balanced_conditionAndBody : Balanced c.bound left (conditionAndBody c) :=
  (balanced_bump _).bind fun _ => (balanced_expect _ _).bind fun _ => (balanced_expression hc).bind
    fun _ => (balanced_expect _ _).bind fun _ => (hc _).bind fun _ => balanced_pure _

theorem balanced_conditional : Balanced c.bound left (conditional c) := by
  refine (balanced_conditionAndBody hc).bind fun _ => (balanced_isAt _).bind fun otherwise => ?_
  split
  · exact (balanced_bump _).bind fun _ => (hc _).bind fun _ => (balanced_pure _).bind fun _ =>
      balanced_node _ _ _
  · exact (balanced_pure _).bind fun _ => balanced_node _ _ _

theorem balanced_loop : Balanced c.bound left (loop c) :=
  (balanced_conditionAndBody hc).bind fun _ => balanced_node _ _ _

omit hc in
theorem balanced_terminated {construct : Routine Node} (h : Balanced c.bound left construct) :
    Balanced c.bound left (terminated c construct) :=
  h.bind fun _ => (balanced_expect _ _).bind fun _ => balanced_pure _

theorem balanced_statementParts : Balanced c.bound left (statementParts c) := by
  refine balanced_peek.bind fun first => ?_
  split
  · exact balanced_terminated (balanced_declaration hc)
  · exact (balanced_function hc).bind fun _ => balanced_pure _
  · exact balanced_terminated (balanced_returning hc)
  · exact (balanced_conditional hc).bind fun _ => balanced_pure _
  · exact (balanced_loop hc).bind fun _ => balanced_pure _
  · exact (balanced_block hc).bind fun _ => balanced_pure _
  · refine (balanced_peekAt 1).bind fun second => ?_
    split
    · exact balanced_terminated (balanced_assignment hc)
    · exact balanced_terminated (balanced_expression hc)
  · exact balanced_terminated (balanced_expression hc)

/-- The level of a statement is left behind its parts. If it is refused none is held, and nothing is
left. -/
theorem balanced_statement : Balanced c.bound (left + 1) (statement c) := by
  refine balanced_of_holds (Holds.enter_bind ?_ (balanced_missing _ _ 0))
  exact ((balanced_statementParts hc 0).above (Nat.le_refl _)).bind fun _ =>
    (holds_leave 1).bind fun _ => balanced_node _ _ _ 0

/-! ### Expressions -/

omit hc in
/-- The look-ahead has at least as many rounds as there are tokens behind the cursor. -/
theorem balanced_lambdaAhead : Balanced c.bound left (lambdaAhead c) := by
  intro k base s hs hdepth
  have hsize := hs.size_le
  have hposition := hs.position_lt
  obtain ⟨answer, hrun⟩ := exists_run_lambdaFrom hs.toInOrder c.bound 1 (by omega) (by omega)
  exact ⟨answer, s, hrun, hdepth⟩

omit hc in
theorem balanced_wrapPrimary (inner : Node) : Balanced c.bound left (wrapPrimary c inner) :=
  (balanced_node _ _ _).bind fun _ => balanced_node _ _ _

theorem balanced_lambdaBody (head : List Node) : Balanced c.bound left (lambdaBody c head) := by
  have hrest (sign : List Node) (body : Node) : Balanced c.bound left (do
      let lambda ← node c.source .lambda (head ++ sign ++ [body])
      wrapPrimary c lambda) :=
    (balanced_node _ _ _).bind fun _ => balanced_wrapPrimary _
  refine (balanced_expect _ _).bind fun sign => (balanced_isAt _).bind fun brace => ?_
  split
  · exact (balanced_block hc).bind (hrest sign)
  · exact (balanced_expression hc).bind (hrest sign)

theorem balanced_parenthesizedLambda : Balanced c.bound left (parenthesizedLambda c) :=
  (balanced_bump _).bind fun _ => balanced_parametersUnlessClosed.bind fun _ =>
    (balanced_expect _ _).bind fun _ => balanced_lambdaBody hc _

theorem balanced_group : Balanced c.bound left (group c) :=
  (balanced_bump _).bind fun _ => (balanced_expression hc).bind fun _ =>
    (balanced_expect _ _).bind fun _ => balanced_node _ _ _

theorem balanced_array : Balanced c.bound left (array c) :=
  (balanced_bump _).bind fun _ => (balanced_expressionsUnless hc _).bind fun _ =>
    (balanced_expect _ _).bind fun _ => balanced_node _ _ _

omit hc in
theorem balanced_missingExpression : Balanced c.bound left (missingExpression c) := by
  refine balanced_peek.bind fun _ => (balanced_report _).bind fun _ =>
    (balanced_missing _ _).bind fun _ => balanced_peek.bind fun found => ?_
  split
  · exact balanced_advance.bind fun _ => balanced_pure _
  · exact balanced_pure _

theorem balanced_primary : Balanced c.bound left (primary c) := by
  have hleaf : Balanced c.bound left (do wrapPrimary c (← bump c.source)) :=
    (balanced_bump _).bind fun _ => balanced_wrapPrimary _
  refine balanced_peek.bind fun first => ?_
  split
  iterate 5 exact hleaf
  · refine (balanced_peekAt 1).bind fun second => ?_
    split
    · exact (balanced_bump _).bind fun _ => (balanced_node _ _ _).bind fun _ =>
        balanced_lambdaBody hc _
    · exact hleaf
  · exact (balanced_array hc).bind fun _ => balanced_wrapPrimary _
  · refine balanced_lambdaAhead.bind fun lambda => ?_
    split
    · exact balanced_parenthesizedLambda hc
    · exact balanced_group hc
  · exact balanced_missingExpression

theorem balanced_call (callee : Node) : Balanced c.bound left (call c callee) :=
  (balanced_bump _).bind fun _ => (balanced_expressionsUnless hc _).bind fun _ =>
    (balanced_node _ _ _).bind fun _ => (balanced_expect _ _).bind fun _ => balanced_node _ _ _

/-- Each call of a chain holds a level, and the chain leaves as many as it counted. The invariant of
the loop is that the second component of its result is the number of levels held. -/
theorem balanced_callChain (callee : Node) : Balanced c.bound left (callChain c callee) := by
  have hrounds (callee : Node) : Holds c.bound left 0
      (rounds (callRound c) c.bound (callee, 0)) Prod.snd := by
    refine Holds.rounds Prod.snd (fun p => ?_) (fun {p _ s t} hs hrun => ?_) (callee, 0)
    · refine (balanced_isAt _ p.2).bind fun opens => ?_
      split
      · exact Holds.enter_bind ((balanced_call hc _ _).bind fun _ => .pure _ rfl) (.pure _ rfl)
      · exact .pure _ rfl
    · obtain ⟨u, hu⟩ := hs.exists_current
      rw [callRound, run_bind_of_ok (run_isAt hu _)] at hrun
      split at hrun
      · exact position_lt_of_enter hs hu (by simp_all) hrun
      · cases hrun
  -- the levels of the chain are left at its end
  exact balanced_of_holds ((hrounds callee).bind fun p => (holds_leave p.2).bind fun _ =>
    .pure _ rfl)

theorem balanced_unary : Balanced c.bound left (unary c) := by
  refine (balanced_isAt _).bind fun negated => ?_
  split
  · exact hc _
  · exact (balanced_primary hc).bind fun _ => balanced_callChain hc _

/-- The level of a negation is left behind its operand, as that of a statement is behind its
parts. -/
theorem balanced_negation : Balanced c.bound (left + 1) (negation c) := by
  refine balanced_of_holds (Holds.enter_bind ?_ (balanced_missing _ _ 0))
  exact (balanced_bump _ 1).bind fun _ =>
    ((balanced_unary hc 0).above (Nat.le_refl _)).bind fun _ => (holds_leave 1).bind fun _ =>
      balanced_node _ _ _ 0

theorem balanced_operation (operand : Node) (rightPower : Nat) :
    Balanced c.bound left (operation c operand rightPower) :=
  (balanced_bump _).bind fun _ => (hc _).bind fun _ => balanced_node _ _ _

/-- Each operator of a chain holds a level above that of the expression. At the end all of them are
left, and with them that of the expression itself. -/
theorem balanced_expressionFrom (minimum : Nat) :
    Balanced c.bound (left + 1) (expressionFrom c minimum) := by
  have hrounds (first : Node) : Holds c.bound left 0
      (rounds (operatorRound c minimum) c.bound (first, 0)) Prod.snd := by
    refine Holds.rounds Prod.snd (fun p => ?_) (fun {p _ s t} hs hrun => ?_) (first, 0)
    · refine (balanced_peek p.2).bind fun operator => ?_
      split
      · exact .pure _ rfl
      · split
        · exact .pure _ rfl
        · exact Holds.enter_bind ((balanced_operation hc _ _ _).bind fun _ => .pure _ rfl)
            (.pure _ rfl)
    · obtain ⟨u, hu⟩ := hs.exists_current
      rw [operatorRound, run_bind_of_ok (run_peek hu)] at hrun
      split at hrun
      · cases hrun
      -- an operator is not the end, which has no binding power
      next hpower =>
        split at hrun
        · cases hrun
        · refine position_lt_of_enter hs hu (fun heof => ?_) hrun
          rw [heof] at hpower
          cases hpower
  refine balanced_of_holds (Holds.enter_bind ?_ (balanced_missing _ _ 0))
  refine ((balanced_unary hc 0).above (Nat.le_refl _)).bind fun first => ?_
  exact ((hrounds first).above (Nat.le_refl _)).bind fun p => (holds_leave (p.2 + 1)).bind fun _ =>
    .pure _ rfl

end Rules

/-- A level is entered each time a rule comes back to another one, so rules that can come back more
often than there are levels left do not run out of it. If they cannot come
back at all, no state is `Ready`: its depth would be beyond its limit. -/
theorem balanced_rule (source : String) (bound left : Nat) (r : Rule) :
    Balanced bound left (rule source bound left r) := by
  induction left generalizing r with
  | zero =>
    -- without levels left the counter would be beyond its maximum
    intro k base s hs hdepth
    have := hs.depth_le
    have := hs.maxDepth_lt
    omega
  | succ left ih =>
    have hc : ∀ r, Balanced bound left (rule source bound left r) := ih
    cases r with
    | statement => exact balanced_statement (c := ⟨source, bound, rule source bound left⟩) hc
    | expression minimum =>
      exact balanced_expressionFrom (c := ⟨source, bound, rule source bound left⟩) hc minimum
    | negation => exact balanced_negation (c := ⟨source, bound, rule source bound left⟩) hc

/-! ## The books -/

/-- The routines of the parser, each with whatever it is called with. -/
inductive IsRoutine (c : Context) : {α : Type} → Routine α → Prop where
  | nested (r : Rule) : IsRoutine c (c.nested r)
  | program : IsRoutine c (guardedStatements c (isAt .eof))
  | guardedStatement : IsRoutine c (guardedStatement c)
  | synchronize : IsRoutine c (synchronize c)
  | statement : IsRoutine c (statement c)
  | block : IsRoutine c (block c)
  | declaration : IsRoutine c (declaration c)
  | assignment : IsRoutine c (assignment c)
  | function : IsRoutine c (function c)
  | parameters : IsRoutine c (parameters c)
  | returning : IsRoutine c (returning c)
  | conditional : IsRoutine c (conditional c)
  | loop : IsRoutine c (loop c)
  | expression (minimum : Nat) : IsRoutine c (expressionFrom c minimum)
  | unary : IsRoutine c (unary c)
  | negation : IsRoutine c (negation c)
  | calls (callee : Node) : IsRoutine c (callChain c callee)
  | expressions (closing : Symbol) : IsRoutine c (expressionsUnless c closing)
  | primary : IsRoutine c (primary c)
  | array : IsRoutine c (array c)
  | lambda (head : List Node) : IsRoutine c (lambdaBody c head)
  | lambdaAhead : IsRoutine c (lambdaAhead c)
  | expect (wanted : Symbol) : IsRoutine c (expect c.source wanted)
  | expectName : IsRoutine c (expectName c.source)

/-- One case for each routine. Those that enter a level of their own are balanced with one level
more, and so with `left` too. -/
theorem IsRoutine.balanced {c : Context} {left : Nat} (hc : ∀ r, Balanced c.bound left (c.nested r))
    {α : Type} {r : Routine α} (h : IsRoutine c r) : Balanced c.bound left r := by
  cases h with
  | nested r => exact hc r
  | program => exact balanced_program hc
  | guardedStatement => exact balanced_guardedStatement hc
  | synchronize => exact balanced_synchronize
  | statement => exact (balanced_statement hc).mono (Nat.le_succ left)
  | block => exact balanced_block hc
  | declaration => exact balanced_declaration hc
  | assignment => exact balanced_assignment hc
  | function => exact balanced_function hc
  | parameters => exact balanced_parameters
  | returning => exact balanced_returning hc
  | conditional => exact balanced_conditional hc
  | loop => exact balanced_loop hc
  | expression minimum => exact (balanced_expressionFrom hc minimum).mono (Nat.le_succ left)
  | unary => exact balanced_unary hc
  | negation => exact (balanced_negation hc).mono (Nat.le_succ left)
  | calls callee => exact balanced_callChain hc callee
  | expressions closing => exact balanced_expressionsUnless hc closing
  | primary => exact balanced_primary hc
  | array => exact balanced_array hc
  | lambda head => exact balanced_lambdaBody hc head
  | lambdaAhead => exact balanced_lambdaAhead
  | expect wanted => exact balanced_expect _ wanted
  | expectName => exact balanced_expectName _

/-- From every state in order each routine ends without a fault: it reads no token outside the
sequence, leaves no level that was not entered, and neither its loops nor the recursion go beyond
their bounds. The counter is then what it was. After every action of the run the cursor is on a
token and not before where it was, and the counter is within its limit. That is so on malformed
tokens and after a level was refused as well. -/
theorem routines_keep_books (source : String) {s : State} (hs : s.InOrder) {α : Type}
    {r : Routine α} (hr : IsRoutine (.ofProgram source s.tokens.size s.maxDepth) r) :
    (∃ a t, r.run s = .ok (a, t) ∧ t.depth = s.depth) ∧
      (∀ m ∈ r.moments s, m.tokens = s.tokens ∧ m.maxDepth = s.maxDepth ∧
        m.position < s.tokens.size ∧ m.depth ≤ s.maxDepth) ∧
      (s :: r.moments s).Pairwise fun earlier later => earlier.position ≤ later.position := by
  have hready : s.Ready s.tokens.size (s.maxDepth + 1) s.depth :=
    { hs with size_le := Nat.le_refl _, maxDepth_lt := by omega }
  refine ⟨?_, fun m hm => ?_, ?_⟩
  · exact hr.balanced (balanced_rule source _ _) 0 s.depth s hready rfl
  -- what each action keeps holds at every moment
  · obtain ⟨horder, hleads, -⟩ := leads_of_mem_moments r hs hm
    exact ⟨hleads.tokens, hleads.maxDepth, hleads.tokens ▸ horder.position_lt,
      hleads.maxDepth ▸ horder.depth_le⟩
  · refine List.pairwise_cons.mpr ⟨fun m hm => ?_, ?_⟩
    · exact (leads_of_mem_moments r hs hm).2.1.position_le
    · exact (pairwise_moments r hs).imp State.Leads.position_le

/-- The tokens of `();`. -/
def emptyGroup : Array Token :=
  #[⟨.symbol .leftParen, ⟨0, 1⟩⟩, ⟨.symbol .rightParen, ⟨1, 2⟩⟩, ⟨.symbol .semicolon, ⟨2, 3⟩⟩,
    ⟨.eof, ⟨3, 3⟩⟩]

/-- The expression in the parentheses is a third level. With a limit of two it is refused, and the
run still comes to the end of the tokens and leaves the levels it entered. -/
theorem routines_keep_books_refused :
    (State.start emptyGroup 2).InOrder ∧
      ∃ a t, (program "();" emptyGroup.size 2).run (.start emptyGroup 2) = .ok (a, t) ∧
        t.depth = 0 ∧ t.position = 3 ∧ t.overflowed = true := by
  have hs : (State.start emptyGroup 2).InOrder := ⟨by simp [emptyGroup, State.start, EndsOnce],
    by decide, by decide⟩
  obtain ⟨⟨a, t, hrun, hdepth⟩, -⟩ := routines_keep_books "();" hs .program
  refine ⟨hs, a, t, hrun, hdepth, ?_⟩
  have hlast : ((program "();" emptyGroup.size 2).run (.start emptyGroup 2)).toOption.map
      (fun p => (p.2.position, p.2.overflowed)) = some (3, true) := by decide +kernel
  rw [show (program "();" emptyGroup.size 2).run (.start emptyGroup 2) = _ from hrun] at hlast
  change some (t.position, t.overflowed) = _ at hlast
  simpa using hlast

end Routine

end SimpleLang
