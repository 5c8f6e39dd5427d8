import SimpleLang.Proofs.Parser.Stream

/-!
# Runs of routines

What holds of every run of a `Routine`, however it is made up.

* `State.Step`: all that an action can do to a state, so an invariant is one case analysis of it.
  `Action.step_of_perform` says that it is all.
* `keeps_of_run`: what each step keeps a whole run keeps.
* `moments`: the states that a run passes through, one after each action.
* `leads_of_run`, `leads_of_mem_moments`, `pairwise_moments`: no run moves the cursor back or out of
  the tokens or takes the counter over its limit, at no moment; and after an overflow nothing is
  reported (`State.Leads`).
* `run_peek`, `run_isAt`, `run_bump`, `run_peekAt`: the basic steps in a state in order.
-/


namespace SimpleLang

open SimpleLang.Parser (EndsOnce)

namespace Routine

/-! ## Runs -/

section Run

variable {α β : Type} {r : Routine α} {f : α → Routine β} {s t : State}

/-- The bind of `Routine` unfolded once, so that a run is followed routine by routine. -/
theorem run_bind_of_ok {a : α} (h : r.run s = .ok (a, t)) : (r >>= f).run s = (f a).run t := by
  show (r.run s >>= fun p => (f p.1).run p.2) = _
  rw [h]
  rfl

/-- A sequence that ends has a first part that ends, in the state that the second one starts
from. -/
theorem exists_of_run_bind {b : β} (h : (r >>= f).run s = .ok (b, t)) :
    ∃ a u, r.run s = .ok (a, u) ∧ (f a).run u = .ok (b, t) := by
  change (r.run s >>= fun p => (f p.1).run p.2) = _ at h
  cases hr : r.run s with
  | ok p =>
    rw [hr] at h
    exact ⟨p.1, p.2, rfl, h⟩
  | error fault =>
    rw [hr] at h
    cases h

end Run

/-- The states that a run passes through, one after each of its actions. A run that faults has
passed through those before the fault. -/
def moments {α : Type} : Routine α → State → List State
  | done _, _ => []
  | act action, s =>
    match action.perform s with
    | .ok (_, t) => [t]
    | .error _ => []
  | andThen first next, s =>
    first.moments s ++
      match first.run s with
      | .ok (a, t) => (next a).moments t
      | .error _ => []
  | fail _, _ => []

/-! ## One step -/

/-- What an action can do to a state. Guards that later proofs need are part of it: a level is
entered only below the limit, and no more are left than were entered. -/
inductive State.Step (s : State) : State → Prop where
  | stay : Step s s
  | advance : Step s s.advance
  | report (e : SyntaxError) {here : Token} (hhere : s.tokens[s.position]? = some here) :
    Step s (s.report e here.span)
  | enter (hdepth : s.depth < s.maxDepth) : Step s { s with depth := s.depth + 1 }
  | refuse (e : SyntaxError) {here : Token} (hhere : s.tokens[s.position]? = some here)
    (hflag : s.overflowed = false) : Step s { s.report e here.span with overflowed := true }
  | leave (levels : Nat) (hle : levels ≤ s.depth) : Step s { s with depth := s.depth - levels }

theorem State.token_eq_ok {s : State} {i : Nat} {t : Token} (h : s.token i = .ok t) :
    s.tokens[i]? = some t := by
  unfold State.token at h
  split at h
  · cases h
    assumption
  · cases h

theorem State.token_of_eq_some {s : State} {i : Nat} {t : Token} (h : s.tokens[i]? = some t) :
    s.token i = .ok t := by
  rw [State.token, h]

/-- What is read by an index is found among the tokens, and reading changes nothing. -/
theorem State.exists_of_token_bind {α : Type} {s : State} {i : Nat} {g : Token → α × State}
    {p : α × State} (h : (do return g (← s.token i)) = Except.ok p) :
    ∃ t, s.tokens[i]? = some t ∧ p = g t := by
  cases ht : s.token i with
  | ok t =>
    rw [ht] at h
    cases h
    exact ⟨t, State.token_eq_ok ht, rfl⟩
  | error fault =>
    rw [ht] at h
    cases h

end Routine

/-- The cases of `State.Step` are all there are. One case for each action, with
`exists_of_token_bind` for those that read a token. -/
theorem Action.step_of_perform {α : Type} {action : Action α} {s t : Routine.State} {a : α}
    (h : action.perform s = .ok (a, t)) : s.Step t := by
  cases action with
  | current | ahead =>
    obtain ⟨_, _, heq⟩ := Routine.State.exists_of_token_bind h
    cases heq
    exact .stay
  | previous =>
    simp only [perform] at h
    split at h
    · cases h
      exact .stay
    · obtain ⟨_, _, heq⟩ := Routine.State.exists_of_token_bind h
      cases heq
      exact .stay
  | advance =>
    obtain ⟨_, _, heq⟩ := Routine.State.exists_of_token_bind h
    cases heq
    exact .advance
  | report e =>
    obtain ⟨_, hhere, heq⟩ := Routine.State.exists_of_token_bind h
    cases heq
    exact .report e hhere
  | enter =>
    simp only [perform] at h
    split at h
    · cases h
      exact .stay
    -- no level was refused before: this one is refused, or entered
    next hflag =>
      split at h
      · obtain ⟨_, hhere, heq⟩ := Routine.State.exists_of_token_bind h
        cases heq
        exact .refuse _ hhere (Bool.eq_false_iff.mpr hflag)
      · cases h
        exact .enter (by omega)
  | leave levels =>
    simp only [perform] at h
    split at h
    · cases h
    · cases h
      exact .leave levels (by omega)
  | position | errorCount | overflowed =>
    cases h
    exact .stay

namespace Routine

/-- A whole run keeps what each of its steps keeps. The induction is on how the routine is made up,
so it covers all rules and loops at once. -/
theorem keeps_of_run {P : State → Prop} (hstep : ∀ {s t : State}, s.Step t → P s → P t) {α : Type}
    (r : Routine α) : ∀ {s t : State} {a : α}, P s → r.run s = .ok (a, t) → P t := by
  induction r with
  | done a =>
    intro s t _ hs h
    cases h
    exact hs
  | act action => exact fun hs h => hstep (Action.step_of_perform h) hs
  | andThen first next ihfirst ihnext =>
    intro s t _ hs h
    obtain ⟨a, u, hfirst, hnext⟩ := exists_of_run_bind h
    exact ihnext a (ihfirst hs hfirst) hnext
  | fail fault =>
    intro s t _ hs h
    cases h

/-! ## What every run keeps -/

/-- The tokens end with the only end of the source among them, the cursor is on one of them, and no
more levels are entered than may be. This is what makes actions possible. -/
structure State.InOrder (s : State) : Prop where
  ends : EndsOnce s.tokens.toList
  position_lt : s.position < s.tokens.size
  depth_le : s.depth ≤ s.maxDepth

/-- What an earlier state has to do with a later one: the cursor has not moved back, and after an
overflow nothing is reported. Of `depth` nothing is said, as it goes up and down. -/
structure State.Leads (s t : State) : Prop where
  tokens : t.tokens = s.tokens
  maxDepth : t.maxDepth = s.maxDepth
  position_le : s.position ≤ t.position
  silent : s.overflowed = true → t.overflowed = true ∧ t.errors = s.errors

theorem State.Leads.refl (s : State) : s.Leads s := ⟨rfl, rfl, Nat.le_refl _, fun h => ⟨h, rfl⟩⟩

theorem State.Leads.trans {s t u : State} (h : s.Leads t) (h' : t.Leads u) : s.Leads u where
  tokens := h'.tokens.trans h.tokens
  maxDepth := h'.maxDepth.trans h.maxDepth
  position_le := Nat.le_trans h.position_le h'.position_le
  silent hflag :=
    have hmiddle := h.silent hflag
    have hlast := h'.silent hmiddle.1
    ⟨hlast.1, hlast.2.trans hmiddle.2⟩

/-- `State.advance` as a disjunction of equations, to rewrite with. -/
theorem State.advance_cases (s : State) :
    s.advance = s ∨
      s.position + 1 < s.tokens.size ∧ s.advance = { s with position := s.position + 1 } := by
  unfold State.advance
  split
  · exact .inr ⟨by omega, rfl⟩
  · exact .inl rfl

/-- `State.report` in the same way: after an overflow it does nothing. -/
theorem State.report_cases (s : State) (e : SyntaxError) (span : Span) :
    s.report e span = s ∨ s.overflowed = false ∧
      s.report e span = { s with errors := s.errors.push (e.diagnostic span) } := by
  unfold State.report
  split
  · exact .inl rfl
  next hflag => exact .inr ⟨Bool.eq_false_iff.mpr hflag, rfl⟩

/-- One case for each thing that an action can do. A refused level is the only one that raises the
flag, and then it was not up before. -/
theorem State.Step.leads {s t : State} (h : s.Step t) : s.Leads t := by
  cases h with
  | stay => exact .refl s
  | advance =>
    rcases s.advance_cases with heq | ⟨_, heq⟩
    · rw [heq]
      exact .refl s
    · rw [heq]
      exact ⟨rfl, rfl, Nat.le_succ _, fun h => ⟨h, rfl⟩⟩
  | report e =>
    rcases s.report_cases e _ with heq | ⟨hflag, heq⟩
    · rw [heq]
      exact .refl s
    · rw [heq]
      exact ⟨rfl, rfl, Nat.le_refl _, fun h => absurd h (by simp [hflag])⟩
  | enter => exact ⟨rfl, rfl, Nat.le_refl _, fun h => ⟨h, rfl⟩⟩
  | refuse e _ hflag =>
    rcases s.report_cases e _ with heq | ⟨_, heq⟩
    · rw [heq]
      exact ⟨rfl, rfl, Nat.le_refl _, fun h => absurd h (by simp [hflag])⟩
    · rw [heq]
      exact ⟨rfl, rfl, Nat.le_refl _, fun h => absurd h (by simp [hflag])⟩
  | leave => exact ⟨rfl, rfl, Nat.le_refl _, fun h => ⟨h, rfl⟩⟩

/-- The guards of `State.Step` are what is needed: `enter` has a level left, and `advance` a
token. -/
theorem State.Step.inOrder {s t : State} (h : s.Step t) (hs : s.InOrder) : t.InOrder := by
  cases h with
  | stay => exact hs
  | advance =>
    rcases s.advance_cases with heq | ⟨hlt, heq⟩
    · rw [heq]
      exact hs
    · rw [heq]
      exact ⟨hs.ends, hlt, hs.depth_le⟩
  | report e | refuse e =>
    rcases s.report_cases e _ with heq | ⟨_, heq⟩
    · rw [heq]
      exact { hs with }
    · rw [heq]
      exact { hs with }
  | enter hdepth => exact ⟨hs.ends, hs.position_lt, hdepth⟩
  | leave levels =>
    exact ⟨hs.ends, hs.position_lt, Nat.le_trans (Nat.sub_le _ _) hs.depth_le⟩

/-- Both properties for a run from `s`, by `keeps_of_run`. -/
theorem leads_of_run {α : Type} (r : Routine α) {s t : State} {a : α} (hs : s.InOrder)
    (h : r.run s = .ok (a, t)) : t.InOrder ∧ s.Leads t :=
  keeps_of_run (P := fun u => u.InOrder ∧ s.Leads u)
    (fun hstep hu => ⟨hstep.inOrder hu.1, hu.2.trans hstep.leads⟩) r ⟨hs, .refl s⟩ h

/-- A moment of a sequence is one of its first part, or one of its second part if the first one
ends. -/
theorem mem_moments_bind {α β : Type} {r : Routine α} {f : α → Routine β} {s m : State}
    (h : m ∈ (r >>= f).moments s) :
    m ∈ r.moments s ∨ ∃ a t, r.run s = .ok (a, t) ∧ m ∈ (f a).moments t := by
  change m ∈ (andThen r f).moments s at h
  rw [moments] at h
  rcases List.mem_append.mp h with h | h
  · exact .inl h
  · cases hr : r.run s with
    | ok p =>
      rw [hr] at h
      exact .inr ⟨p.1, p.2, rfl, h⟩
    | error fault =>
      rw [hr] at h
      cases h

/-- Every moment of a run is in order, and follows the start and precedes the end, if there is one.
The induction is that of `keeps_of_run`. -/
theorem leads_of_mem_moments {α : Type} (r : Routine α) :
    ∀ {s m : State}, s.InOrder → m ∈ r.moments s →
      m.InOrder ∧ s.Leads m ∧ ∀ {a t}, r.run s = .ok (a, t) → m.Leads t := by
  induction r with
  | done a => exact fun _ h => absurd h List.not_mem_nil
  | act action =>
    intro s m hs h
    cases hrun : action.perform s with
    | ok p =>
      simp only [moments, hrun, List.mem_singleton] at h
      subst h
      have hstep := Action.step_of_perform hrun
      refine ⟨hstep.inOrder hs, hstep.leads, fun {a t} ht => ?_⟩
      cases hrun.symm.trans ht
      exact .refl t
    | error fault =>
      simp only [moments, hrun, List.not_mem_nil] at h
  | andThen first next ihfirst ihnext =>
    intro s m hs h
    -- a moment of the first part precedes the second part, and one of the second part follows the
    -- first
    rcases mem_moments_bind h with h | ⟨a, u, hfirst, h⟩
    · obtain ⟨hm, hsm, hend⟩ := ihfirst hs h
      refine ⟨hm, hsm, fun {b t} ht => ?_⟩
      obtain ⟨a, u, hfirst, hnext⟩ := exists_of_run_bind ht
      exact (hend hfirst).trans (leads_of_run _ (leads_of_run _ hs hfirst).1 hnext).2
    · obtain ⟨hu, hsu⟩ := leads_of_run _ hs hfirst
      obtain ⟨hm, hum, hend⟩ := ihnext a hu h
      refine ⟨hm, hsu.trans hum, fun {b t} ht => ?_⟩
      obtain ⟨a', u', hfirst', hnext⟩ := exists_of_run_bind ht
      cases hfirst.symm.trans hfirst'
      exact hend hnext
  | fail fault => exact fun _ h => absurd h List.not_mem_nil

/-- Of two moments of a run the earlier one leads to the later one. -/
theorem pairwise_moments {α : Type} (r : Routine α) :
    ∀ {s : State}, s.InOrder → (r.moments s).Pairwise State.Leads := by
  induction r with
  | done a => exact fun _ => .nil
  | act action =>
    intro s hs
    simp only [moments]
    split
    · exact List.pairwise_singleton _ _
    · exact .nil
  | andThen first next ihfirst ihnext =>
    intro s hs
    simp only [moments]
    cases hfirst : first.run s with
    | ok p =>
      obtain ⟨hu, hsu⟩ := leads_of_run _ hs hfirst
      -- the moments of the first part lead to where the second one starts
      refine List.pairwise_append.mpr ⟨ihfirst hs, ihnext p.1 hu, fun m hm m' hm' => ?_⟩
      exact ((leads_of_mem_moments _ hs hm).2.2 hfirst).trans (leads_of_mem_moments _ hu hm').2.1
    | error fault => simpa using ihfirst hs
  | fail fault => exact fun _ => .nil

/-! ## Reading tokens -/

/-- Up to the cursor there are tokens, so they can be read by their index. -/
theorem State.InOrder.exists_token {s : State} (hs : s.InOrder) {i : Nat} (hi : i ≤ s.position) :
    ∃ t, s.tokens[i]? = some t :=
  have hlt := Nat.lt_of_le_of_lt hi hs.position_lt
  ⟨s.tokens[i], Array.getElem?_eq_getElem hlt⟩

theorem State.InOrder.exists_current {s : State} (hs : s.InOrder) :
    ∃ t, s.tokens[s.position]? = some t := hs.exists_token (Nat.le_refl _)

/-- From any token on the tokens end, and with the same end. -/
theorem State.InOrder.endsOnce_drop {s : State} (hs : s.InOrder) {i : Nat} {t : Token}
    (ht : s.tokens[i]? = some t) : EndsOnce (t :: s.tokens.toList.drop (i + 1)) := by
  have hrest : s.tokens.toList.drop i = t :: s.tokens.toList.drop (i + 1) := by
    rw [Array.getElem?_eq_some_iff] at ht
    obtain ⟨hlt, rfl⟩ := ht
    exact List.drop_eq_getElem_cons hlt
  exact hrest ▸ hs.ends.suffix (List.drop_suffix _ _) (by rw [hrest]; exact List.cons_ne_nil _ _)

/-- Only the last token is the end, so any other one has one behind it. -/
theorem State.InOrder.lt_of_ne_eof {s : State} (hs : s.InOrder) {i : Nat} {t : Token}
    (ht : s.tokens[i]? = some t) (hne : t.lexeme ≠ .eof) : i + 1 < s.tokens.size := by
  obtain ⟨u, us, hus⟩ := (hs.endsOnce_drop ht).exists_second hne
  have hlength := congrArg List.length hus
  rw [List.length_drop, List.length_cons, Array.length_toList] at hlength
  omega

/-- Off the end `State.advance` moves the cursor. -/
theorem State.InOrder.position_advance {s : State} (hs : s.InOrder) {t : Token}
    (ht : s.tokens[s.position]? = some t) (hne : t.lexeme ≠ .eof) :
    s.advance.position = s.position + 1 := by
  have hlt := hs.lt_of_ne_eof ht hne
  rw [State.advance, if_pos (by omega)]

/-- The index is kept within the tokens, so `Action.ahead` finds one. -/
theorem State.InOrder.exists_ahead {s : State} (hs : s.InOrder) (offset : Nat) :
    ∃ t, s.tokens[min (s.position + offset) (s.tokens.size - 1)]? = some t := by
  have hlt : min (s.position + offset) (s.tokens.size - 1) < s.tokens.size := by
    have := hs.position_lt
    omega
  exact ⟨s.tokens[min (s.position + offset) (s.tokens.size - 1)], Array.getElem?_eq_getElem hlt⟩

theorem perform_current {s : State} {t : Token} (h : s.tokens[s.position]? = some t) :
    Action.current.perform s = .ok (t, s) := by
  simp only [Action.perform, State.token_of_eq_some h]
  rfl

theorem perform_ahead {s : State} {offset : Nat} {t : Token}
    (h : s.tokens[min (s.position + offset) (s.tokens.size - 1)]? = some t) :
    (Action.ahead offset).perform s = .ok (t, s) := by
  simp only [Action.perform, State.token_of_eq_some h]
  rfl

theorem perform_advance {s : State} {t : Token} (h : s.tokens[s.position]? = some t) :
    Action.advance.perform s = .ok (t, s.advance) := by
  simp only [Action.perform, State.token_of_eq_some h]
  rfl

theorem perform_report {s : State} {t : Token} (e : SyntaxError)
    (h : s.tokens[s.position]? = some t) :
    (Action.report e).perform s = .ok ((), s.report e t.span) := by
  simp only [Action.perform, State.token_of_eq_some h]
  rfl

/-- `peek` in a state in order. These lemmas replace a basic step by its result, and
`run_bind_of_ok` goes on from there. -/
theorem run_peek {s : State} {t : Token} (h : s.tokens[s.position]? = some t) :
    peek.run s = .ok (t.lexeme, s) :=
  run_bind_of_ok (r := liftM Action.current) (perform_current h)

theorem run_isAt {s : State} {t : Token} (h : s.tokens[s.position]? = some t) (l : Lexeme) :
    (isAt l).run s = .ok (t.lexeme == l, s) :=
  run_bind_of_ok (run_peek h)

theorem run_bump {s : State} {t : Token} (h : s.tokens[s.position]? = some t) (source : String) :
    (bump source).run s =
      .ok (.covering source (.token (.ofLexeme t.lexeme)) t.span [], s.advance) :=
  run_bind_of_ok (r := liftM Action.advance) (perform_advance h)

theorem run_peekAt {s : State} {offset : Nat} {t : Token}
    (h : s.tokens[min (s.position + offset) (s.tokens.size - 1)]? = some t) :
    (peekAt offset).run s = .ok (t.lexeme, s) :=
  run_bind_of_ok (r := liftM (Action.ahead offset)) (perform_ahead h)

end Routine

end SimpleLang
