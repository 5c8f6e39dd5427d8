import SimpleLang.Proofs.Machine.StepLimit

/-!
# A budget of steps bounds every run

Two things in a run are not bounded by the syntax of the program: the rounds of a loop and the
nesting of calls. Each round that another one follows takes a step, and so does each call. With a
limit of `n` steps a loop therefore makes at most `n + 1` rounds, and at most `n` calls are nested.
Given that much, neither the rounds that a loop may make nor the limit on nested calls has an
influence.

* `Run.SameWithin n k r r'`: on machines with at most `k` of `n` steps left the two runs are the
  same, and they come to an end.
* `Run.SameWithin.tick_bind`: what follows a step has one step less, so it is enough that it is so
  related for fewer steps. From this come `Run.SameWithin.rounds` and, by induction on `k`,
  `Run.sameWithin_call`.
-/

namespace SimpleLang

variable {W : Type}

namespace Run

variable {α β : Type}

/-- On a machine that has taken at most `n` steps and has at most `k` of them left, both runs end in
the same way: with a value, within `n` steps, or at a fault. The step that exceeds the limit is
counted as well. -/
def SameWithin (n k : Nat) (α : Type) (r r' : Run W α) : Prop :=
  ∀ m : Machine W, m.steps ≤ n → n ≤ m.steps + k →
    (∃ a m', r m = .ok a m' ∧ r' m = .ok a m' ∧ m.steps ≤ m'.steps ∧ m'.steps ≤ n) ∨
      ∃ f m', r m = .error (.fault f) m' ∧ r' m = .error (.fault f) m' ∧ m'.steps ≤ n + 1

namespace SameWithin

variable {n k : Nat}

/-- On machines with fewer steps left there is less to show. -/
theorem mono {r r' : Run W α} (h : SameWithin n k α r r') {j : Nat} (hle : j ≤ k) :
    SameWithin n j α r r' :=
  fun m hm hleft => h m hm (Nat.le_trans hleft (Nat.add_le_add_left hle _))

/-- A run is the same as itself, so what is left is that it ends (`Bounded`) and what it spends. -/
theorem of_bounded {r : Run W α} (h : Bounded n r)
    (hspent : ∀ m, m.steps ≤ n → (after (r m)).steps ≤ n + 1) : SameWithin n k α r r := by
  intro m hle _
  have hafter := hspent m hle
  rcases h m hle with ⟨a, m₁, hm, hge₁, hle₁⟩ | ⟨f, m₁, hm⟩
  · exact .inl ⟨a, m₁, hm, hm, hge₁, hle₁⟩
  · rw [hm] at hafter
    exact .inr ⟨f, m₁, hm, hm, hafter⟩

/-- A run that counts no steps. -/
theorem of_steps_eq {r : Run W α} (h : Bounded n r) (hsteps : ∀ m, (after (r m)).steps = m.steps) :
    SameWithin n k α r r := by
  refine .of_bounded h fun m hle => ?_
  rw [hsteps m]
  exact Nat.le_succ_of_le hle

/-- It counts no steps. -/
theorem onStore {r : Run W α} (h : OnStore r) : SameWithin n k α r r := by
  refine .of_steps_eq (.onStore h) fun m => ?_
  obtain ⟨store, functions, hm⟩ := h.after m
  rw [hm]

/-- The second part has no more steps left than the first one had. -/
theorem bind {r r' : Run W α} {f f' : α → Run W β} (h : SameWithin n k α r r')
    (hf : ∀ a, SameWithin n k β (f a) (f' a)) : SameWithin n k β (r >>= f) (r' >>= f') := by
  intro m hle hleft
  rcases h m hle hleft with ⟨a, m₁, hm, hm', hge₁, hle₁⟩ | ⟨e, m₁, hm, hm', hspent⟩
  · rw [bind_of_ok hm, bind_of_ok hm']
    rcases hf a m₁ hle₁ (by omega) with ⟨b, m₂, hm₂, hm₂', hge₂, hle₂⟩ | hfault
    · exact .inl ⟨b, m₂, hm₂, hm₂', Nat.le_trans hge₁ hge₂, hle₂⟩
    · exact .inr hfault
  · exact .inr ⟨e, m₁, bind_of_error hm, bind_of_error hm', hspent⟩

/-- Calls in progress are counted apart from steps. -/
theorem counted {r r' : Run W α} (h : SameWithin n k α r r') :
    SameWithin n k α (counted r) (counted r') := by
  intro m hle hleft
  rcases h (entered m) hle hleft with ⟨a, m₁, hm, hm', hsteps⟩ | ⟨e, m₁, hm, hm', hspent⟩
  · exact .inl ⟨a, _, counted_of_ok hm, counted_of_ok hm', hsteps⟩
  · exact .inr ⟨e, _, counted_of_error hm, counted_of_error hm', hspent⟩

section Limited

variable {settings settings' : Settings} (hlimit : settings.maxSteps = some n)
  (hlimit' : settings'.maxSteps = some n)

include hlimit hlimit'

/-- The limits are the same, so the step is counted alike, or is one too many for both. -/
theorem tick : SameWithin n k Unit (tick settings : Run W _) (tick settings') := by
  have heq : (Run.tick settings' : Run W Unit) = Run.tick settings := by
    unfold Run.tick
    rw [hlimit, hlimit']
  rw [heq]
  refine .of_bounded (.tick hlimit) fun m hle => ?_
  rw [after_tick]
  exact Nat.succ_le_succ hle

/-- What follows a step has fewer steps left. Where none was left it is not reached. -/
theorem tick_bind {r r' : Run W α} (h : ∀ j, k = j + 1 → SameWithin n j α r r') :
    SameWithin n k α (do Run.tick settings; r) (do Run.tick settings'; r') := by
  intro m hle hleft
  -- this step is one too many, or there are `j` left behind it
  by_cases hlt : n < m.steps + 1
  · have hspent : m.steps + 1 ≤ n + 1 := Nat.succ_le_succ hle
    exact .inr ⟨_, _, bind_of_error (tick_of_lt hlimit hlt),
      bind_of_error (tick_of_lt hlimit' hlt), hspent⟩
  · have hstep (s : Settings) (h : s.maxSteps = some n) :
        Run.tick s m = .ok () { m with steps := m.steps + 1 } := by
      refine tick_of_le fun limit hsome => ?_
      obtain rfl : n = limit := Option.some.inj (h.symm.trans hsome)
      omega
    obtain ⟨j, rfl⟩ : ∃ j, k = j + 1 := ⟨k - 1, by omega⟩
    have hrest := h j rfl { m with steps := m.steps + 1 } (Nat.le_of_not_lt hlt)
      (show n ≤ m.steps + 1 + j by omega)
    rw [bind_of_ok (hstep settings hlimit), bind_of_ok (hstep settings' hlimit')]
    rcases hrest with ⟨a, m₁, hm, hm', hge₁, hle₁⟩ | hfault
    · exact .inl ⟨a, m₁, hm, hm', Nat.le_of_succ_le hge₁, hle₁⟩
    · exact .inr hfault

/-- Rounds beyond the steps that are left are not made: a step stands between any two of them. -/
theorem rounds {condition condition' : Run W Bool} {body body' : Run W Flow}
    (hcondition : SameWithin n k Bool condition condition')
    (hbody : SameWithin n k Flow body body') {count count' : Nat} (hcount : k < count)
    (hcount' : k < count') :
    SameWithin n k Flow (rounds settings condition body count)
      (rounds settings' condition' body' count') := by
  induction count generalizing k count' with
  | zero => exact absurd hcount (Nat.not_lt_zero k)
  | succ count ih =>
    obtain ⟨count', rfl⟩ : ∃ c, count' = c + 1 := ⟨count' - 1, by omega⟩
    refine hcondition.bind fun b => ?_
    cases b with
    | false => exact .onStore (.pure _)
    | true =>
      refine hbody.bind fun flow => ?_
      cases flow with
      | returned v => exact .onStore (.pure _)
      | next =>
        refine tick_bind hlimit hlimit' fun j hj => ?_
        -- the step between two rounds is gone, so both the rounds and the steps are one less
        have hle : j ≤ k := by omega
        exact ih (hcondition.mono hle) (hbody.mono hle) (by omega) (by omega)

end Limited

end SameWithin

section Calls

variable {settings settings' : Settings} {n patience patience' : Nat}

/-- Steps and rounds are where the settings and the patience come in. All else does not look at
them. -/
theorem respects_sameWithin (hlimit : settings.maxSteps = some n)
    (hlimit' : settings'.maxSteps = some n) (hintegers : settings'.integers = settings.integers)
    (hpatience : n < patience) (hpatience' : n < patience') {k : Nat} (hk : k ≤ n) :
    Respects (W := W) (SameWithin n k) settings settings' patience patience' where
  onStore h := .onStore h
  bind h hf := h.bind hf
  tick := .tick hlimit hlimit'
  writeLine _ := .of_steps_eq (.ask _ _) fun m => by rw [writeLine, after_ask]
  flush := .of_steps_eq (.ask _ _) fun m => by rw [flush, after_ask]
  apply op a b := by
    rw [hintegers]
    exact .onStore (.ofExcept _)
  counted h := h.counted
  rounds hcondition hbody := hcondition.rounds hlimit hlimit' hbody
    (Nat.lt_of_le_of_lt hk hpatience) (Nat.lt_of_le_of_lt hk hpatience')

/-- With `k` steps left no more than `k` calls are nested, so it does not matter how many more could
be. -/
theorem sameWithin_call (hlimit : settings.maxSteps = some n)
    (hlimit' : settings'.maxSteps = some n) (hintegers : settings'.integers = settings.integers)
    (hpatience : n < patience) (hpatience' : n < patience') {k : Nat} (hk : k ≤ n)
    {room room' : Nat} (hroom : k ≤ room) (hroom' : k ≤ room') (c : Closure)
    (arguments : List Value) :
    SameWithin n k Value (do tick settings; invoke settings patience room c arguments : Run W _)
      (do tick settings'; invoke settings' patience' room' c arguments) := by
  induction k generalizing room room' c arguments with
  -- no step is left, so the call is not even begun
  | zero => exact .tick_bind hlimit hlimit' fun j hj => absurd hj (Nat.succ_ne_zero j).symm
  | succ k ih =>
    refine .tick_bind hlimit hlimit' fun j hj => ?_
    cases hj
    obtain ⟨room, rfl⟩ : ∃ r, room = r + 1 := ⟨room - 1, by omega⟩
    obtain ⟨room', rfl⟩ : ∃ r, room' = r + 1 := ⟨room' - 1, by omega⟩
    have h : Respects (W := W) (SameWithin n k) settings settings' patience patience' :=
      respects_sameWithin hlimit hlimit' hintegers hpatience hpatience' (Nat.le_of_succ_le hk)
    refine h.bind (h.onStore (.checkArity c arguments)) fun _ => ?_
    refine h.bind (h.onStore (.newScope (some c.scope))) fun frame => ?_
    refine h.bind (respects_defineAll h frame _) fun _ => h.counted (respects_body ?_ frame c.body)
    exact { h with
      call := fun c arguments => ih (Nat.le_of_succ_le hk) (Nat.le_of_succ_le_succ hroom)
        (Nat.le_of_succ_le_succ hroom') c arguments }

/-- The same for whole programs: only a limit on nested calls below the limit on the steps can
matter, and then it has to be the same. -/
theorem sameWithin_program (hlimit : settings.maxSteps = some n)
    (hlimit' : settings'.maxSteps = some n) (hintegers : settings'.integers = settings.integers)
    (hdepth : n ≤ settings.maxCallDepth) (hdepth' : n ≤ settings'.maxCallDepth)
    (hpatience : n < patience) (hpatience' : n < patience') (ss : List Stmt) :
    SameWithin n n Unit (program settings patience ss : Run W _)
      (program settings' patience' ss) := by
  have h : Respects (W := W) (SameWithin n n) settings settings' patience patience' :=
    respects_sameWithin hlimit hlimit' hintegers hpatience hpatience' (Nat.le_refl n)
  refine respects_outermost { h with call := fun c arguments => ?_ } ss
  exact sameWithin_call hlimit hlimit' hintegers hpatience hpatience' (Nat.le_refl n) hdepth hdepth'
    c arguments

end Calls

end Run

/-! ## Programs -/

/-- Executions of runs that are so related are the same, and take at most `n` steps and the one that
exceeds the limit. -/
theorem execute_of_sameWithin {settings settings' : Settings} {n patience patience' : Nat}
    {p : Program}
    (h : Run.SameWithin n n Unit (Run.program settings patience p.statements : Run W _)
      (Run.program settings' patience' p.statements)) (sink : Sink W) :
    execute settings' patience' p sink = execute settings patience p sink ∧
      ∀ N, (execute settings patience p sink).steps = some N → N ≤ n + 1 := by
  unfold execute
  cases p.check with
  -- a rejected program takes no steps
  | cons mistake mistakes =>
    refine ⟨rfl, fun N hN => ?_⟩
    cases hN
  | nil =>
    rcases h (.start sink) (Nat.zero_le n) (Nat.le_add_left n _) with
      ⟨_, m, hm, hm', _, hle⟩ | ⟨f, m, hm, hm', hle⟩
    · rw [hm, hm']
      refine ⟨rfl, fun N hN => ?_⟩
      cases hN
      exact Nat.le_succ_of_le hle
    · rw [hm, hm']
      refine ⟨rfl, fun N hN => ?_⟩
      cases hN
      exact hle

/-- A program with a limit of `n` steps has one execution, whatever loops it has and however its
functions call each other. The execution ends after at most `n + 1` steps, the last of which is the
one that exceeds the limit. It takes no more than `n + 1` rounds of any loop to get there, and more
that a loop is given change nothing. Nor does the limit on nested calls change anything from `n` on:
it is the steps that bound recursion. -/
theorem step_budget_bounds_run (settings : Settings) (n : Nat) (p : Program) (sink : Sink W) :
    ∃ e : Execution W, e.Ended ∧ (∀ N, e.steps = some N → N ≤ n + 1) ∧
      (∀ patience, n < patience → execute (settings.limited n) patience p sink = e) ∧
      (n ≤ settings.maxCallDepth → ∀ depth patience, n ≤ depth → n < patience →
        execute ((settings.nested depth).limited n) patience p sink = e) := by
  have hended := ended_limited settings n p sink
  refine ⟨execute (settings.limited n) (n + 1) p sink, hended, ?_, ?_, ?_⟩
  -- the bound on the steps is that of an execution compared with itself
  · have hself : Run.Respects (W := W) (Run.SameWithin n n) (settings.limited n)
        (settings.limited n) (n + 1) (n + 1) :=
      Run.respects_sameWithin rfl rfl rfl (Nat.lt_succ_self n) (Nat.lt_succ_self n) (Nat.le_refl n)
    exact (execute_of_sameWithin (Run.respects_program hself rfl p.statements) sink).2
  · intro patience hpatience
    exact execute_of_le hpatience hended
  · intro hdepth depth patience hdepth' hpatience
    have hroom : n ≤ (settings.limited n).maxCallDepth := hdepth
    have hroom' : n ≤ ((settings.nested depth).limited n).maxCallDepth := hdepth'
    have hprogram := Run.sameWithin_program (W := W) (by rfl) (by rfl) (by rfl) hroom hroom'
      (Nat.lt_succ_self n) hpatience p.statements
    exact (execute_of_sameWithin hprogram sink).1

end SimpleLang
