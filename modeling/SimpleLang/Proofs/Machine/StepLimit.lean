import SimpleLang.Proofs.Machine.Outcome
import SimpleLang.Proofs.Machine.Sinks

/-!
# The limit on the steps of a run

Only the counting of steps looks at the limit. A run with a limit is therefore the run without one
up to the step that exceeds it, and there it stops.

* `Machine.Grows`: steps are only counted and output is only added, whatever the sink does.
* `Run.Cuts n r r'`: the run `r` does what `r'` does, in at most `n` steps, or it stops at the limit
  of `n` steps where `r'` goes on. `Run.respects_cuts`: a run with the limit `n` and one with a
  larger limit or none are so related.
* `Run.Bounded n r`: within `n` steps `r` comes to an end. `Run.respects_bounded`: so does every run
  with this limit, because each round of a loop takes a step.
* `step_limit_exact` puts them together for whole programs.
-/

namespace SimpleLang

variable {W : Type}

/-- From the first machine to the second one steps were only counted and output was only added. -/
structure Machine.Grows (m m' : Machine W) : Prop where
  sink : m.sink.Grows m'.sink
  steps : m.steps ≤ m'.steps

theorem Machine.Grows.trans {m m' m'' : Machine W} (h : m.Grows m') (h' : m'.Grows m'') :
    m.Grows m'' :=
  ⟨h.sink.trans h'.sink, Nat.le_trans h.steps h'.steps⟩

namespace Run

variable {α β : Type}

/-! ## Runs that are cut -/

/-- The first result is the second one, reached in at most `n` steps. Or it is the stop at the limit
of `n` steps, with an output that the second run has gone on with. -/
def Cut (n : Nat) (x y : EStateM.Result Stop (Machine W) α) : Prop :=
  x = y ∧ (after y).steps ≤ n ∨
    ∃ m, x = .error (.fault (.stepLimit n)) m ∧ m.sink.Grows (after y).sink ∧ n < (after y).steps

/-- The second run only adds to the output and to the steps, and the first one is cut at `n` steps
if the second one takes more. -/
structure Cuts (n : Nat) (α : Type) (r r' : Run W α) : Prop where
  grows : ∀ m : Machine W, m.Grows (after (r' m))
  cut : ∀ m : Machine W, m.steps ≤ n → Cut n (r m) (r' m)

namespace Cuts

variable {n : Nat}

/-- A run that counts no steps is not cut. -/
theorem of_steps_eq {r : Run W α} (hgrows : ∀ m : Machine W, m.Grows (after (r m)))
    (hsteps : ∀ m, (after (r m)).steps = m.steps) : Cuts n α r r :=
  ⟨hgrows, fun m hle => .inl ⟨rfl, by rwa [hsteps m]⟩⟩

/-- It counts no steps and writes nothing. -/
theorem onStore {r : Run W α} (h : OnStore r) : Cuts n α r r := by
  refine .of_steps_eq (fun m => ?_) fun m => ?_
  · obtain ⟨store, functions, hm⟩ := h.after m
    rw [hm]
    exact ⟨.refl _, Nat.le_refl _⟩
  · obtain ⟨store, functions, hm⟩ := h.after m
    rw [hm]

/-- Where the first part is cut, the whole is cut there too, and the run that goes on only adds to
the steps and the output. -/
theorem bind {r r' : Run W α} {f f' : α → Run W β} (h : Cuts n α r r')
    (hf : ∀ a, Cuts n β (f a) (f' a)) : Cuts n β (r >>= f) (r' >>= f') := by
  -- what follows the second run only adds to what it leaves
  have hmore (m : Machine W) : (after (r' m)).Grows (after ((r' >>= f') m)) := by
    cases hm : r' m with
    | error e m₁ =>
      rw [bind_of_error hm]
      exact ⟨.refl _, Nat.le_refl _⟩
    | ok a m₁ =>
      rw [bind_of_ok hm]
      exact (hf a).grows m₁
  refine ⟨fun m => (h.grows m).trans (hmore m), fun m hle => ?_⟩
  rcases h.cut m hle with ⟨heq, hsteps⟩ | ⟨m₁, hm, hsink, hsteps⟩
  · cases hm : r' m with
    | error e m₁ =>
      rw [hm] at heq hsteps
      rw [bind_of_error hm, bind_of_error heq]
      exact .inl ⟨rfl, hsteps⟩
    | ok a m₁ =>
      rw [hm] at heq hsteps
      rw [bind_of_ok hm, bind_of_ok heq]
      exact (hf a).cut m₁ hsteps
  · rw [bind_of_error hm]
    have hrest := hmore m
    exact .inr ⟨m₁, rfl, hsink.trans hrest.sink, Nat.lt_of_lt_of_le hsteps hrest.steps⟩

/-- The one run that looks at the limit. It is cut at the step that exceeds `n`, where the other run
still counts. -/
theorem tick {settings settings' : Settings} (hlimit : settings.maxSteps = some n)
    (hlimit' : ∀ limit, settings'.maxSteps = some limit → n ≤ limit) :
    Cuts n Unit (tick settings : Run W _) (tick settings') := by
  refine ⟨fun m => ?_, fun m hle => ?_⟩
  · rw [after_tick]
    exact ⟨.refl _, Nat.le_succ _⟩
  · by_cases hlt : n < m.steps + 1
    · refine .inr ⟨_, tick_of_lt hlimit hlt, ?_, ?_⟩
      · rw [after_tick]
        exact .refl _
      · rw [after_tick]
        exact hlt
    · -- neither limit is reached yet
      have hboth (s : Settings) (h : ∀ limit, s.maxSteps = some limit → n ≤ limit) :
          Run.tick s m = .ok () { m with steps := m.steps + 1 } :=
        tick_of_le fun limit h' => Nat.le_trans (Nat.le_of_not_lt hlt) (h limit h')
      refine .inl ⟨?_, ?_⟩
      · rw [hboth settings fun limit h => Nat.le_of_eq (Option.some.inj (hlimit.symm.trans h)),
          hboth settings' hlimit']
      · rw [after_tick]
        exact Nat.le_of_not_lt hlt

/-- A request counts no steps, and the sink only adds to its output (`h`). -/
theorem ask {request : Sink W → Option String × Sink W} (h : ∀ s : Sink W, s.Grows (request s).2)
    (fault : String → Fault) : Cuts n Unit (ask request fault) (ask request fault) := by
  refine .of_steps_eq (fun m => ?_) fun m => by rw [after_ask]
  rw [after_ask]
  exact ⟨h m.sink, Nat.le_refl _⟩

/-- Calls in progress are counted apart from steps. -/
theorem counted {r r' : Run W α} (h : Cuts n α r r') : Cuts n α (counted r) (counted r') := by
  refine ⟨fun m => ?_, fun m hle => ?_⟩
  · have hgrows := h.grows (entered m)
    rw [after_counted]
    exact ⟨hgrows.sink, hgrows.steps⟩
  · rcases h.cut (entered m) hle with ⟨heq, hsteps⟩ | ⟨m₁, hm, hsink, hsteps⟩
    · refine .inl ⟨?_, by rwa [after_counted]⟩
      cases hm : r' (entered m) with
      | ok a m₁ => rw [counted_of_ok hm, counted_of_ok (heq.trans hm)]
      | error e m₁ => rw [counted_of_error hm, counted_of_error (heq.trans hm)]
    · refine .inr ⟨_, counted_of_error hm, ?_, ?_⟩
      · rw [after_counted]
        exact hsink
      · rw [after_counted]
        exact hsteps

end Cuts

/-- A run with a limit is cut where a run with a larger limit, or with none, goes on. -/
theorem respects_cuts {settings settings' : Settings} {n : Nat} (patience : Nat)
    (hlimit : settings.maxSteps = some n)
    (hlimit' : ∀ limit, settings'.maxSteps = some limit → n ≤ limit)
    (hintegers : settings'.integers = settings.integers) :
    Respects (W := W) (Cuts n) settings settings' patience patience where
  onStore h := .onStore h
  bind h hf := h.bind hf
  tick := .tick hlimit hlimit'
  writeLine _ := .ask (fun s => s.grows_writeEach _) _
  flush := .ask Sink.grows_flush _
  apply op a b := by
    rw [hintegers]
    exact .onStore (.ofExcept _)
  counted h := h.counted
  rounds hcondition hbody := by
    refine rounds_of_bind (Cuts n) (fun h hf => h.bind hf) (fun _ => .onStore (.pure _)) ?_
      (.tick hlimit hlimit') hcondition hbody patience
    exact .of_steps_eq (fun m => ⟨.refl _, Nat.le_refl _⟩) fun m => rfl

/-! ## Runs that come to an end -/

/-- Started within `n` steps, the run ends within `n` steps or stops at a fault. -/
def Bounded (n : Nat) (r : Run W α) : Prop :=
  ∀ m : Machine W, m.steps ≤ n →
    (∃ a m', r m = .ok a m' ∧ m.steps ≤ m'.steps ∧ m'.steps ≤ n) ∨
      ∃ f m', r m = .error (.fault f) m'

namespace Bounded

variable {n : Nat}

theorem onStore {r : Run W α} (h : OnStore r) : Bounded n r := by
  intro m hle
  rcases h.cases m with ⟨a, store, functions, hrun⟩ | ⟨f, store, functions, hrun⟩
  · exact .inl ⟨a, _, hrun, Nat.le_refl _, hle⟩
  · exact .inr ⟨f, _, hrun⟩

/-- The second part starts within `n` steps too. -/
theorem bind {r : Run W α} {f : α → Run W β} (h : Bounded n r) (hf : ∀ a, Bounded n (f a)) :
    Bounded n (r >>= f) := by
  intro m hle
  rcases h m hle with ⟨a, m₁, hm, hge, hle₁⟩ | ⟨e, m₁, hm⟩
  · rw [bind_of_ok hm]
    rcases hf a m₁ hle₁ with ⟨b, m₂, hm₂, hge₂, hle₂⟩ | hfault
    · exact .inl ⟨b, m₂, hm₂, Nat.le_trans hge hge₂, hle₂⟩
    · exact .inr hfault
  · exact .inr ⟨e, m₁, bind_of_error hm⟩

/-- Either the step is within the limit or it is a fault. -/
theorem tick {settings : Settings} (hlimit : settings.maxSteps = some n) :
    Bounded n (tick settings : Run W _) := by
  intro m hle
  by_cases hlt : n < m.steps + 1
  · exact .inr ⟨_, _, tick_of_lt hlimit hlt⟩
  · refine .inl ⟨(), _, tick_of_le fun limit h => ?_, Nat.le_succ _, Nat.le_of_not_lt hlt⟩
    obtain rfl : n = limit := Option.some.inj (hlimit.symm.trans h)
    omega

theorem ask (request : Sink W → Option String × Sink W) (fault : String → Fault) :
    Bounded n (ask request fault) := by
  intro m hle
  rcases ask_cases request fault m.sink with hrun | ⟨reason, hrun⟩
  · exact .inl ⟨(), _, hrun m rfl, Nat.le_refl _, hle⟩
  · exact .inr ⟨_, _, hrun m rfl⟩

theorem counted {r : Run W α} (h : Bounded n r) : Bounded n (counted r) := by
  intro m hle
  rcases h (entered m) hle with ⟨a, m₁, hm, hsteps⟩ | ⟨f, m₁, hm⟩
  · exact .inl ⟨a, _, counted_of_ok hm, hsteps⟩
  · exact .inr ⟨f, _, counted_of_error hm⟩

/-- Rounds are over before they are used up, if there are more of them than steps left: every round
that another one follows takes a step. -/
theorem rounds {settings : Settings} (hlimit : settings.maxSteps = some n)
    {condition : Run W Bool} {body : Run W Flow} (hcondition : Bounded n condition)
    (hbody : Bounded n body) (count : Nat) (m : Machine W) (hle : m.steps ≤ n)
    (hcount : n < m.steps + count) :
    (∃ a m', Run.rounds settings condition body count m = .ok a m' ∧ m.steps ≤ m'.steps ∧
      m'.steps ≤ n) ∨
    ∃ f m', Run.rounds settings condition body count m = .error (.fault f) m' := by
  induction count generalizing m with
  | zero => omega
  | succ count ih =>
    rw [Run.rounds]
    -- the condition, the body, and the step before the next round, each of which may be a fault
    rcases hcondition m hle with ⟨b, m₁, hm₁, hge₁, hle₁⟩ | ⟨f, m₁, hm₁⟩
    · rw [bind_of_ok hm₁]
      cases b with
      | false => exact .inl ⟨.next, m₁, rfl, hge₁, hle₁⟩
      | true =>
        show (∃ a m', (body >>= _) m₁ = .ok a m' ∧ _) ∨
          ∃ f m', (body >>= _) m₁ = .error (.fault f) m'
        rcases hbody m₁ hle₁ with ⟨flow, m₂, hm₂, hge₂, hle₂⟩ | ⟨f, m₂, hm₂⟩
        · rw [bind_of_ok hm₂]
          cases flow with
          | returned v => exact .inl ⟨_, m₂, rfl, Nat.le_trans hge₁ hge₂, hle₂⟩
          | next =>
            show (∃ a m', (Run.tick settings >>= _) m₂ = .ok a m' ∧ _) ∨
              ∃ f m', (Run.tick settings >>= _) m₂ = .error (.fault f) m'
            by_cases hlt : n < m₂.steps + 1
            · exact .inr ⟨_, _, bind_of_error (tick_of_lt hlimit hlt)⟩
            · have htick : Run.tick settings m₂ = .ok () { m₂ with steps := m₂.steps + 1 } :=
                tick_of_le fun limit h => by
                  obtain rfl : n = limit := Option.some.inj (hlimit.symm.trans h)
                  omega
              rw [bind_of_ok htick]
              -- one round less is left, and one step less
              have hnext : n < m₂.steps + 1 + count := by omega
              rcases ih { m₂ with steps := m₂.steps + 1 } (Nat.le_of_not_lt hlt) hnext with
                ⟨a, m₃, hm₃, hge₃, hle₃⟩ | hfault
              · refine .inl ⟨a, m₃, hm₃, ?_, hle₃⟩
                have hge₃ : m₂.steps + 1 ≤ m₃.steps := hge₃
                omega
              · exact .inr hfault
        · exact .inr ⟨f, m₂, bind_of_error hm₂⟩
    · exact .inr ⟨f, m₁, bind_of_error hm₁⟩

end Bounded

/-- With a limit on the steps and more patience than steps every run comes to an end. -/
theorem respects_bounded (settings : Settings) {n patience : Nat}
    (hlimit : settings.maxSteps = some n) (hpatience : n < patience) :
    Respects (W := W) (fun _ r _ => Bounded n r) settings settings patience patience where
  onStore h := .onStore h
  bind h hf := h.bind hf
  tick := .tick hlimit
  writeLine _ := .ask _ _
  flush := .ask _ _
  apply op a b := .onStore (.ofExcept _)
  counted h := h.counted
  rounds hcondition hbody m hle :=
    Bounded.rounds hlimit hcondition hbody patience m hle (by omega)

end Run

/-! ## Programs -/

def Settings.limited (settings : Settings) (n : Nat) : Settings :=
  { settings with maxSteps := some n }

def Settings.unlimited (settings : Settings) : Settings := { settings with maxSteps := none }

/-- With a limit on the steps every program ends. -/
theorem ended_limited (settings : Settings) (n : Nat) (p : Program) (sink : Sink W) :
    (execute (settings.limited n) (n + 1) p sink).Ended := by
  unfold execute
  -- a rejected program has ended
  cases p.check with
  | cons mistake mistakes =>
    intro h
    cases h
  | nil =>
    refine Execution.ended_ofResult fun m hm => ?_
    have hbounded := Run.respects_program
      (Run.respects_bounded (settings.limited n) rfl (Nat.lt_succ_self n)) rfl
      p.statements (.start sink) (Nat.zero_le n)
    rw [hm] at hbounded
    rcases hbounded with ⟨_, _, hok, _⟩ | ⟨_, _, herror⟩
    · cases hok
    · cases herror

/-- The same for executions: the first one is the second one and takes at most `n` steps, or it
stops at the limit of `n` steps and the second one takes more. -/
theorem execute_limited (settings settings' : Settings) {n : Nat} (patience : Nat)
    (hlimit : settings.maxSteps = some n)
    (hlimit' : ∀ limit, settings'.maxSteps = some limit → n ≤ limit)
    (hdepth : settings'.maxCallDepth = settings.maxCallDepth)
    (hintegers : settings'.integers = settings.integers) (p : Program) (sink : Sink W) :
    (execute settings patience p sink = execute settings' patience p sink ∧
      ∀ N, (execute settings' patience p sink).steps = some N → N ≤ n) ∨
    (execute settings patience p sink).failure = some (.stopped (.fault (.stepLimit n))) ∧
      (execute settings patience p sink).sink.Grows (execute settings' patience p sink).sink ∧
      ∀ N, (execute settings' patience p sink).steps = some N → n < N := by
  have hcut := (Run.respects_program (Run.respects_cuts patience hlimit hlimit' hintegers) hdepth
    p.statements).cut (.start sink) (Nat.zero_le n)
  have hafter (r : EStateM.Result Stop (Machine W) Unit) :
      (Execution.ofResult r).steps = some (Run.after r).steps ∧
        (Execution.ofResult r).sink = (Run.after r).sink := by
    cases r with
    | ok _ m => exact ⟨rfl, rfl⟩
    | error e m => exact ⟨rfl, rfl⟩
  unfold execute
  cases p.check with
  -- a program with mistakes is not run
  | cons mistake mistakes =>
    refine .inl ⟨rfl, fun N h => ?_⟩
    cases h
  | nil =>
    rcases hcut with ⟨heq, hsteps⟩ | ⟨m, hm, hgrows, hsteps⟩
    · refine .inl ⟨by rw [heq], fun N h => ?_⟩
      obtain rfl : _ = N := Option.some.inj ((hafter _).1.symm.trans h)
      exact hsteps
    · rw [hm]
      refine .inr ⟨rfl, ?_, fun N h => ?_⟩
      · show Sink.Grows m.sink (Execution.ofResult _).sink
        rw [(hafter _).2]
        exact hgrows
      · obtain rfl : _ = N := Option.some.inj ((hafter _).1.symm.trans h)
        exact hsteps

/-- The limit on the steps is exact. With a limit every program ends, in one way. Suppose that it
ends without a limit, after `N` steps. With a limit of at least `N` it then ends in the same way,
and with a smaller one at the fault that tells this limit, after output that the run without a limit
begins with. And whether the program ends without a limit or not, with a smaller limit its output is
the beginning of that with a larger one. -/
theorem step_limit_exact (settings : Settings) (p : Program) (sink : Sink W) :
    (∀ n, ∃! e, Executes (settings.limited n) p sink e) ∧
    (∀ e N, Executes settings.unlimited p sink e → e.steps = some N →
      (∀ n, N ≤ n → Executes (settings.limited n) p sink e) ∧
      ∀ n, n < N → ∃ e', Executes (settings.limited n) p sink e' ∧
        e'.failure = some (.stopped (.fault (.stepLimit n))) ∧
        e'.failure.map (fun f => f.diagnostics.map Diagnostic.message) =
          some ["step limit of " ++ toString n ++ " exceeded"] ∧
        e'.sink.Grows e.sink) ∧
    ∀ n m e e', n ≤ m → Executes (settings.limited n) p sink e →
      Executes (settings.limited m) p sink e' → e.sink.Grows e'.sink := by
  have hends (n : Nat) := executes_of_ended (ended_limited settings n p sink)
  refine ⟨fun n => ⟨_, hends n, fun e he => he.unique (hends n)⟩, ?_, ?_⟩
  · rintro e N ⟨hended, patience, rfl⟩ hsteps
    -- at the patience that suffices without a limit the two executions are compared
    have hcompare (n : Nat) := execute_limited (settings.limited n) settings.unlimited patience rfl
      (fun limit h => by cases h) rfl rfl p sink
    refine ⟨fun n hle => ?_, fun n hlt => ?_⟩
    · rcases hcompare n with ⟨heq, _⟩ | ⟨_, _, hmore⟩
      · exact ⟨hended, patience, heq⟩
      · exact absurd (hmore N hsteps) (Nat.not_lt.mpr hle)
    · rcases hcompare n with ⟨_, hfew⟩ | ⟨hfailure, hgrows, _⟩
      · exact absurd (hfew N hsteps) (Nat.not_le.mpr hlt)
      · have hended' : (execute (settings.limited n) patience p sink).Ended := by
          rw [Execution.Ended, hfailure]
          simp
        refine ⟨_, executes_of_ended hended', hfailure, ?_, hgrows⟩
        rw [hfailure]
        rfl
  · intro n m e e' hle he he'
    obtain rfl := he'.unique (hends m)
    have hended := ended_limited settings n p sink
    obtain rfl := he.unique (executes_of_ended hended)
    -- the patience that the larger limit asks for changes nothing under the smaller one
    rw [← execute_of_le (Nat.succ_le_succ hle) hended]
    have hlimit (limit : Nat) (h : (settings.limited m).maxSteps = some limit) : n ≤ limit := by
      cases h
      exact hle
    rcases execute_limited (settings.limited n) (settings.limited m) (m + 1) rfl hlimit rfl rfl p
      sink with ⟨heq, _⟩ | ⟨_, hgrows, _⟩
    · rw [heq]
      exact .refl _
    · exact hgrows

/-- Displays the numbers below two, one in each round. -/
def displayingLoop : Program :=
  ⟨[.declare "i" (some (.int 0)),
    .loop (.binary .lt (.name "i") (.int 2))
      (.block
        [.expr (.call (.name "display") [.name "i"]),
          .assign "i" (.binary .add (.name "i") (.int 1))])]⟩

/-- The second line does not fit the sink, and a limit of six steps stops the run before it. -/
theorem step_limit_exact_displayingLoop :
    ∃ e, Executes ({} : Settings).unlimited displayingLoop (.new (some 3) false) e ∧
      e.steps = some 10 ∧ e.sink.bytes = "0\n1".toUTF8 ∧
      Executes (({} : Settings).limited 10) displayingLoop (.new (some 3) false) e ∧
      ∃ e', Executes (({} : Settings).limited 6) displayingLoop (.new (some 3) false) e' ∧
        e'.failure = some (.stopped (.fault (.stepLimit 6))) ∧ e'.sink.Grows e.sink := by
  have hsteps : (execute ({} : Settings).unlimited 3 displayingLoop (.new (some 3) false)).steps
      = some 10 := by decide +kernel
  have hfault : (execute ({} : Settings).unlimited 3 displayingLoop
      (.new (some 3) false)).failure.map Failure.diagnostics
      = some [(Fault.notWritten "sink full").diagnostic] := by decide +kernel
  -- it was stopped by its sink, so the loop was not left unfinished
  have hended :
      (execute ({} : Settings).unlimited 3 displayingLoop (.new (some 3) false)).Ended := by
    intro h
    rw [h] at hfault
    cases hfault
  obtain ⟨_, hexact, _⟩ := step_limit_exact {} displayingLoop (.new (some 3) false)
  obtain ⟨hsame, hcut⟩ := hexact _ 10 (executes_of_ended hended) hsteps
  obtain ⟨e', he', hfailure, _, hgrows⟩ := hcut 6 (by decide)
  exact ⟨_, executes_of_ended hended, hsteps, by decide +kernel, hsame 10 (Nat.le_refl 10),
    e', he', hfailure, hgrows⟩

end SimpleLang
