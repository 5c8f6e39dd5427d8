import SimpleLang.Proofs.Machine.Adequacy
import SimpleLang.Proofs.Machine.StepLimit

/-!
# The limit on nested calls

Of all transitions only the one that begins the call of a function looks at the limit. Under two
limits a run is therefore the same up to the first call that one of them refuses.

* `Moment.Plain`: a transition that does not depend on the limit and begins no call. All are, but
  the calls of functions.
* `Moment.AtLimit`: what a transition does under all limits at once. It is one and the same, or it
  is a call that goes through just if fewer calls are in progress than the limit says.
* `Steps.active_le`: no more calls are in progress than the limit says.
* `Steps.cut`: under another limit a run takes the same steps, or it stops at the first one that has
  too many calls in progress.
* `isGreatest_peak`: the peak that a run has counted is the largest number of calls in progress.
* `call_depth_exact` puts them together for whole programs.
-/

namespace SimpleLang

variable {W : Type}

open Run

variable {α β : Type}

/-! ## Transitions that begin no call -/

/-- From the first machine to the second one no call was begun, and output was only added. -/
structure Machine.Calm (m m' : Machine W) : Prop where
  active : m'.active ≤ m.active
  peak : m'.peak = m.peak
  grows : m.Grows m'

theorem Machine.Calm.trans {m m' m'' : Machine W} (h : m.Calm m') (h' : m'.Calm m'') :
    m.Calm m'' :=
  ⟨h'.active.trans h.active, h'.peak.trans h.peak, h.grows.trans h'.grows⟩

/-- The run is `Machine.Calm`, whether it ends or stops. -/
def Run.Quiet (r : Run W α) : Prop := ∀ m : Machine W, m.Calm (after (r m))

namespace Run.Quiet

/-- Work on the store changes neither `active` nor `peak`, and writes nothing. -/
theorem onStore {r : Run W α} (h : OnStore r) : Quiet r := by
  intro m
  obtain ⟨store, functions, hm⟩ := h.after m
  rw [hm]
  exact ⟨Nat.le_refl _, rfl, ⟨.refl _, Nat.le_refl _⟩⟩

theorem pure (a : α) : Quiet (Pure.pure a : Run W _) := .onStore (.pure a)

/-- Both parts begin no call, and `Machine.Calm` is transitive. -/
theorem bind {r : Run W α} {f : α → Run W β} (h : Quiet r) (hf : ∀ a, Quiet (f a)) :
    Quiet (r >>= f) := by
  intro m
  have hfirst := h m
  cases hm : r m with
  | error e m₁ =>
    rw [hm] at hfirst
    rw [bind_of_error hm]
    exact hfirst
  | ok a m₁ =>
    rw [hm] at hfirst
    rw [bind_of_ok hm]
    exact hfirst.trans (hf a m₁)

theorem tick (settings : Settings) : Quiet (tick settings : Run W _) := by
  intro m
  rw [after_tick]
  exact ⟨Nat.le_refl _, rfl, ⟨.refl _, Nat.le_succ _⟩⟩

theorem ask {request : Sink W → Option String × Sink W}
    (h : ∀ s : Sink W, s.Grows (request s).2) (fault : String → Fault) :
    Quiet (ask request fault) := by
  intro m
  rw [after_ask]
  exact ⟨Nat.le_refl _, rfl, h m.sink, Nat.le_refl _⟩

/-- `leave` lowers `active` and keeps `peak`. -/
theorem leave : Quiet (leave : Run W _) :=
  fun m => ⟨Nat.sub_le m.active 1, rfl, ⟨.refl _, Nat.le_refl _⟩⟩

end Run.Quiet

namespace Moment

/-- The transition is the same under all limits on calls, and it begins no call. -/
structure Plain (W : Type) (settings : Settings) (c : Moment) : Prop where
  same : ∀ depth, (c.step (settings.nested depth) : Run W _) = c.step settings
  quiet : Quiet (c.step settings : Run W _)

variable (settings : Settings)

/-- Operands are left to later transitions, so only a name and a lambda do anything yet, and that is
`OnStore`. -/
theorem plain_eval (scope : ScopeId) (e : Expr) (k : AfterValue) :
    Plain W settings (.eval scope e k) := by
  cases e with
  | name x => exact ⟨fun _ => rfl, (Quiet.onStore (.lookup scope x)).bind fun _ => .pure _⟩
  | lambda parameters body =>
    exact ⟨fun _ => rfl,
      (Quiet.onStore (.newClosure none parameters body scope)).bind fun _ => .pure _⟩
  | _ => exact ⟨fun _ => rfl, .pure _⟩

theorem plain_items (use : Purpose) (scope : ScopeId) (done : List Value) (rest : List Expr)
    (k : AfterValue) : Plain W settings (.items use scope done rest k) := by
  cases rest with
  | nil => cases use <;> exact ⟨fun _ => rfl, .pure _⟩
  | cons e rest => cases use <;> exact ⟨fun _ => rfl, .pure _⟩

/-- One case for each `AfterValue`. At most it is work on the store, or the end of a call. -/
theorem plain_value (v : Value) (k : AfterValue) : Plain W settings (.value v k) := by
  cases k with
  | rightOf op scope right k =>
    cases op with
    | and => exact ⟨fun _ => rfl, (Quiet.onStore (.logical .and v)).bind fun _ => .pure _⟩
    | or => exact ⟨fun _ => rfl, (Quiet.onStore (.logical .or v)).bind fun _ => .pure _⟩
    | _ => exact ⟨fun _ => rfl, .pure _⟩
  | apply op left k => exact ⟨fun _ => rfl, (Quiet.onStore (.ofExcept _)).bind fun _ => .pure _⟩
  | logical op k => exact ⟨fun _ => rfl, (Quiet.onStore (.logical op v)).bind fun _ => .pure _⟩
  | negate op k => exact ⟨fun _ => rfl, (Quiet.onStore (.ofExcept _)).bind fun _ => .pure _⟩
  | declare scope x k =>
    exact ⟨fun _ => rfl, (Quiet.onStore (.define scope x v)).bind fun _ => .pure _⟩
  | assign scope x k =>
    exact ⟨fun _ => rfl, (Quiet.onStore (.assign scope x v)).bind fun _ => .pure _⟩
  | branch scope yes no k =>
    cases no with
    | none => exact ⟨fun _ => rfl, (Quiet.onStore (.answer _ v)).bind fun _ => .pure _⟩
    | some no => exact ⟨fun _ => rfl, (Quiet.onStore (.answer _ v)).bind fun _ => .pure _⟩
  | test scope test body k =>
    exact ⟨fun _ => rfl, (Quiet.onStore (.answer _ v)).bind fun _ => .pure _⟩
  | leave k => exact ⟨fun _ => rfl, Quiet.leave.bind fun _ => .pure _⟩
  | arguments scope args k => exact ⟨fun _ => rfl, .pure _⟩
  | item use scope done rest k => exact ⟨fun _ => rfl, .pure _⟩
  | discard k => exact ⟨fun _ => rfl, .pure _⟩
  | ret k => exact ⟨fun _ => rfl, .pure _⟩

/-- Statements `tick`, and at most bind a name or open a scope. -/
theorem plain_exec (scope : ScopeId) (s : Stmt) (k : AfterFlow) :
    Plain W settings (.exec scope s k) := by
  cases s with
  | declare x e =>
    cases e with
    | none =>
      exact ⟨fun _ => rfl, (Quiet.tick settings).bind fun _ =>
        (Quiet.onStore (.define scope x .unit)).bind fun _ => .pure _⟩
    | some e => exact ⟨fun _ => rfl, (Quiet.tick settings).bind fun _ => .pure _⟩
  | ret e => cases e <;> exact ⟨fun _ => rfl, (Quiet.tick settings).bind fun _ => .pure _⟩
  | block statements =>
    exact ⟨fun _ => rfl, (Quiet.tick settings).bind fun _ =>
      (Quiet.onStore (.newScope (some scope))).bind fun _ => .pure _⟩
  | _ => exact ⟨fun _ => rfl, (Quiet.tick settings).bind fun _ => .pure _⟩

theorem plain_hoist (scope : ScopeId) (pending statements : List Stmt) (k : AfterFlow) :
    Plain W settings (.hoist scope pending statements k) := by
  cases pending with
  | nil => exact ⟨fun _ => rfl, .pure _⟩
  | cons s pending =>
    cases s with
    | function f parameters body =>
      exact ⟨fun _ => rfl,
        (Quiet.onStore (.newClosure (some f) parameters body scope)).bind fun v =>
          (Quiet.onStore (.define scope f v)).bind fun _ => .pure _⟩
    | _ => exact ⟨fun _ => rfl, .pure _⟩

/-- Behind the last statement the sink is flushed, behind a body its call is left, and a loop does a
`tick`. -/
theorem plain_flow (f : Flow) (k : AfterFlow) : Plain W settings (.flow f k) := by
  cases k with
  | done => exact ⟨fun _ => rfl, (Quiet.ask Sink.grows_flush _).bind fun _ => .pure _⟩
  | rest scope statements k => cases f <;> exact ⟨fun _ => rfl, .pure _⟩
  | again scope test body k =>
    cases f with
    | next => exact ⟨fun _ => rfl, (Quiet.tick settings).bind fun _ => .pure _⟩
    | returned v => exact ⟨fun _ => rfl, .pure _⟩
  | leave k => cases f <;> exact ⟨fun _ => rfl, Quiet.leave.bind fun _ => .pure _⟩

/-- The call of anything but a function. -/
theorem plain_call {callee : Value} (h : ∀ c, callee ≠ .closure c) (arguments : List Value)
    (k : AfterValue) : Plain W settings (.call callee arguments k) := by
  have hfail (f : Fault) : Quiet (fail f : Run W (Option Moment)) := .onStore (.fail f)
  cases callee with
  | closure c => exact absurd rfl (h c)
  | builtin f =>
    cases f with
    | display =>
      cases arguments with
      | nil => exact ⟨fun _ => rfl, (Quiet.tick settings).bind fun _ => hfail _⟩
      | cons v rest =>
        cases rest with
        | nil =>
          exact ⟨fun _ => rfl, (Quiet.tick settings).bind fun _ =>
            (Quiet.ask (fun s => s.grows_writeEach _) _).bind fun _ => .pure _⟩
        | cons w rest => exact ⟨fun _ => rfl, (Quiet.tick settings).bind fun _ => hfail _⟩
  | _ => exact ⟨fun _ => rfl, (Quiet.tick settings).bind fun _ => hfail _⟩

/-- One case for each kind of moment. All but the call of a closure are `Plain`. -/
theorem plain_or_call (c : Moment) :
    Plain W settings c ∨ ∃ f arguments k, c = .call (.closure f) arguments k := by
  cases c with
  | eval scope e k => exact .inl (plain_eval settings scope e k)
  | items use scope done rest k => exact .inl (plain_items settings use scope done rest k)
  | value v k => exact .inl (plain_value settings v k)
  | exec scope s k => exact .inl (plain_exec settings scope s k)
  | hoist scope pending statements k => exact .inl (plain_hoist settings scope pending statements k)
  | execAll scope statements k => cases statements <;> exact .inl ⟨fun _ => rfl, .pure _⟩
  | flow f k => exact .inl (plain_flow settings f k)
  | call callee arguments k =>
    cases callee with
    | closure f => exact .inr ⟨f, arguments, k, rfl⟩
    | _ => exact .inl (plain_call settings (fun c h => by cases h) arguments k)

end Moment

/-! ## The transition that looks at the limit -/

/-- `define` cannot fail, so binding many names succeeds. -/
theorem Run.defineAll_eq_ok (scope : ScopeId) (bs : Bindings) (m : Machine W) :
    ∃ store, defineAll scope bs m = .ok () { m with store } := by
  induction bs generalizing m with
  | nil => exact ⟨m.store, rfl⟩
  | cons b bs ih => exact ih { m with store := m.store.define scope b.1 b.2 }

/-- Before the limit is looked at, a call counts a step, and `checkArity` changes nothing. -/
theorem Run.after_checkArity (settings : Settings) (c : Closure) (arguments : List Value)
    (m : Machine W) : after ((do tick settings; checkArity c arguments : Run W Unit) m)
      = { m with steps := m.steps + 1 } := by
  rw [← after_tick settings m]
  cases htick : tick settings m with
  | error e m₁ => rw [bind_of_error htick]
  | ok _ m₁ =>
    rw [bind_of_ok htick, checkArity_apply]
    split <;> rfl

/-- What the transition at a moment does on a machine, under all limits on calls. -/
inductive Moment.AtLimit (settings : Settings) (c : Moment) (m : Machine W) : Prop where
  /-- It does the same under all of them, and begins no call. -/
  | free (r : EStateM.Result Stop (Machine W) (Option Moment))
      (hstep : ∀ depth, c.step (settings.nested depth) m = r) (hcalm : m.Calm (Run.after r))
  /-- It is a call, which goes through just if one more is allowed than are in progress. -/
  | call (callee : String) (store : Store) (next : Moment)
      (hstep : ∀ depth, c.step (settings.nested depth) m =
        if depth ≤ m.active then
          .error (.fault (.callDepth depth callee)) { m with steps := m.steps + 1 }
        else .ok (some next) (entered { m with steps := m.steps + 1, store }))

/-- A transition that is `Plain` is the first case. A call of a function is cut behind the checks
that come before the limit, so that the limit decides the rest. -/
theorem Moment.atLimit (settings : Settings) (c : Moment) (m : Machine W) :
    AtLimit settings c m := by
  rcases plain_or_call settings c with hplain | ⟨f, arguments, k, rfl⟩
  · exact .free (c.step settings m) (fun depth => congrFun (hplain.same depth) m) (hplain.quiet m)
  -- the step and the number of arguments are checked before the limit on calls
  have hcall (depth : Nat) : (Moment.call (.closure f) arguments k).step (settings.nested depth)
      = (do
        (do tick settings; checkArity f arguments)
        checkDepth (settings.nested depth) f
        let frame ← newScope (some f.scope)
        defineAll frame (f.parameters.zip arguments)
        modify entered
        return some (f.body.start frame k) : Run W _) := by
    simp only [step, enterFrame, bind_assoc, pure_bind]
    rfl
  have hafter := after_checkArity settings f arguments m
  -- where one of these two checks fails, it fails under all limits on calls
  cases hm : (do tick settings; checkArity f arguments : Run W Unit) m with
  | error e m₁ =>
    rw [hm, after_error] at hafter
    subst hafter
    refine .free (.error e { m with steps := m.steps + 1 }) (fun depth => ?_) ?_
    · rw [hcall, bind_of_error hm]
    · exact ⟨Nat.le_refl _, rfl, ⟨.refl _, Nat.le_succ _⟩⟩
  | ok _ m₁ =>
    rw [hm, after_ok] at hafter
    subst hafter
    obtain ⟨store, hdefine⟩ := defineAll_eq_ok (m.store.newScope (some f.scope)).1
      (f.parameters.zip arguments)
      { m with steps := m.steps + 1, store := (m.store.newScope (some f.scope)).2 }
    refine .call f.label store (f.body.start (m.store.newScope (some f.scope)).1 k) fun depth => ?_
    rw [hcall, bind_of_ok hm]
    by_cases hle : depth ≤ m.active
    · rw [if_pos hle, bind_of_error]
      rw [checkDepth_apply]
      exact if_pos hle
    · have hdepth : checkDepth (settings.nested depth) f { m with steps := m.steps + 1 }
          = .ok () { m with steps := m.steps + 1 } := by
        rw [checkDepth_apply]
        exact if_neg hle
      have hscope : newScope (some f.scope) { m with steps := m.steps + 1 }
          = .ok (m.store.newScope (some f.scope)).1
            { m with steps := m.steps + 1, store := (m.store.newScope (some f.scope)).2 } := rfl
      rw [if_neg hle, bind_of_ok hdepth, bind_of_ok hscope, bind_of_ok hdefine]
      rfl

/-- By `atLimit`: a transition begins no call and only adds to the output (`Machine.Calm`), or it is
a call and writes nothing. -/
theorem Moment.grows_step (settings : Settings) (c : Moment) (m : Machine W) :
    m.sink.Grows (Run.after (c.step settings m)).sink := by
  cases atLimit settings c m with
  | free r hstep hcalm =>
    rw [← hstep settings.maxCallDepth] at hcalm
    exact hcalm.grows.sink
  | call callee store next hstep =>
    rw [show c.step settings m = _ from hstep settings.maxCallDepth]
    split <;> exact .refl _

/-- A transition that goes on does so with `settings.nested depth` as well, if `depth` is not
exceeded then. Otherwise it is the transition that exceeds it. -/
theorem Moment.step_nested {settings : Settings} {c c' : Moment} {m m' : Machine W} (depth : Nat)
    (hm : m.active ≤ depth) (hstep : c.step settings m = .ok (some c') m') :
    (c.step (settings.nested depth) m = .ok (some c') m' ∧ m'.active ≤ depth) ∨
    m'.active = depth + 1 ∧ ∃ callee stopped, stopped.sink = m.sink ∧
      c.step (settings.nested depth) m = .error (.fault (.callDepth depth callee)) stopped := by
  cases atLimit settings c m with
  | free r hr hcalm =>
    obtain rfl := (hr settings.maxCallDepth).symm.trans hstep
    exact .inl ⟨hr depth, hcalm.active.trans hm⟩
  | call callee store next hcall =>
    have hnext := (hcall settings.maxCallDepth).symm.trans hstep
    split at hnext
    · cases hnext
    · cases hnext
      -- under the other limit the call is refused if that many are in progress
      by_cases hle : depth ≤ m.active
      · refine .inr ⟨congrArg (· + 1) (Nat.le_antisymm hm hle), callee, _, ?_,
          (hcall depth).trans (if_pos hle)⟩
        rfl
      · exact .inl ⟨(hcall depth).trans (if_neg hle), Nat.lt_of_not_le hle⟩

/-- A transition that goes on leaves `peak`, or begins a call that makes for a new one. -/
theorem Moment.peak_step {settings : Settings} {c c' : Moment} {m m' : Machine W}
    (hm : m.active ≤ m.peak) (hstep : c.step settings m = .ok (some c') m') :
    m.peak ≤ m'.peak ∧ m'.active ≤ m'.peak ∧ (m'.peak = m.peak ∨ m'.active = m'.peak) := by
  cases atLimit settings c m with
  | free r hr hcalm =>
    obtain rfl := (hr settings.maxCallDepth).symm.trans hstep
    exact ⟨hcalm.peak.ge, (hcalm.active.trans hm).trans hcalm.peak.ge, .inl hcalm.peak⟩
  | call callee store next hcall =>
    have hnext := (hcall settings.maxCallDepth).symm.trans hstep
    split at hnext
    · cases hnext
    · cases hnext
      exact ⟨Nat.le_max_left .., Nat.le_max_right ..,
        (max_choice m.peak (m.active + 1)).imp_right Eq.symm⟩

/-! ## Runs -/

namespace Steps

variable {settings : Settings} {n : Nat} {c d : Moment} {m w : Machine W}

/-- `Moment.grows_step` along a run. -/
theorem grows (h : Steps settings n c m d w) : m.sink.Grows w.sink := by
  induction h with
  | refl c m => exact .refl _
  | @step n c c' d m m' w hstep _ ih =>
    have hfirst := c.grows_step settings m
    rw [hstep, after_ok] at hfirst
    exact hfirst.trans ih

/-- No more calls are `active` than the limit says. -/
theorem active_le (h : Steps settings n c m d w) (hm : m.active ≤ settings.maxCallDepth) :
    w.active ≤ settings.maxCallDepth := by
  induction h with
  | refl c m => exact hm
  | @step n c c' d m m' w hstep _ ih =>
    rcases Moment.step_nested settings.maxCallDepth hm hstep with ⟨_, hle⟩ | ⟨_, _, _, _, hstop⟩
    · exact ih hle
    · -- the limit would have refused a step that the run takes
      cases hstep.symm.trans hstop

/-- Under another limit a run takes the same steps. Or it stops, where the run itself has
`depth + 1` calls in progress (`Moment.step_nested`). -/
theorem cut {depth : Nat} (h : Steps settings n c m d w) (hm : m.active ≤ depth) :
    Steps (settings.nested depth) n c m d w ∨
    (∃ i c' m', Steps settings i c m c' m' ∧ m'.active = depth + 1) ∧
      ∃ i c' m' callee stopped, Steps (settings.nested depth) i c m c' m' ∧
        Halts (settings.nested depth) c' m' (.error (.fault (.callDepth depth callee)) stopped) ∧
        stopped.sink.Grows w.sink := by
  induction h with
  | refl c m => exact .inl (.refl c m)
  | @step n c c₁ d m m₁ w hstep hrest ih =>
    have hfirst := c.grows_step settings m
    rw [hstep, after_ok] at hfirst
    rcases Moment.step_nested depth hm hstep with
      ⟨hstep', hle⟩ | ⟨hactive, callee, stopped, hsink, hstop⟩
    · -- the limit lets this step through
      rcases ih hle with hsame |
        ⟨⟨i, c', m', hi, hactive⟩, j, c'', m'', callee, stopped, hj, hhalts, hgrows⟩
      · exact .inl (.step hstep' hsame)
      · exact .inr ⟨⟨i + 1, c', m', .step hstep hi, hactive⟩,
          j + 1, c'', m'', callee, stopped, .step hstep' hj, hhalts, hgrows⟩
    · -- this step is the call that the limit refuses
      refine .inr ⟨⟨1, c₁, m₁, .step hstep (.refl c₁ m₁), hactive⟩,
        0, c, m, callee, stopped, .refl c m, congrArg Moment.ending hstop, ?_⟩
      have hgrows := hfirst.trans hrest.grows
      rwa [Sink.Grows, hsink]

/-- `peak` is the largest number of calls that were `active`, or the one before the run. -/
theorem peak_spec (h : Steps settings n c m d w) (hm : m.active ≤ m.peak) :
    m.peak ≤ w.peak ∧
    (∀ i c' m', i ≤ n → Steps settings i c m c' m' → m'.active ≤ w.peak) ∧
    (w.peak = m.peak ∨ ∃ i c' m', Steps settings i c m c' m' ∧ m'.active = w.peak) := by
  -- the invariant is `hm`, which each step keeps (`Moment.peak_step`)
  induction h with
  | refl c m =>
    refine ⟨Nat.le_refl _, fun i c' m' hi hsteps => ?_, .inl rfl⟩
    cases hsteps with
    | refl => exact hm
    | step _ _ => omega
  | @step n c c₁ d m m₁ w hstep hrest ih =>
    obtain ⟨hle, hm₁, hpeak⟩ := Moment.peak_step hm hstep
    obtain ⟨hle', hbound, hattained⟩ := ih hm₁
    refine ⟨hle.trans hle', fun i c' m' hi hsteps => ?_, ?_⟩
    · cases hsteps with
      | refl => exact hm.trans (hle.trans hle')
      | step hstep' hsteps =>
        cases hstep.symm.trans hstep'
        exact hbound _ c' m' (by omega) hsteps
    · -- the peak comes from the rest of the run, from its first step, or from before
      rcases hattained with hsame | ⟨i, c', m', hi, hactive⟩
      · rcases hpeak with hpeak | hpeak
        · exact .inl (hsame.trans hpeak)
        · exact .inr ⟨1, c₁, m₁, .step hstep (.refl c₁ m₁), hpeak.trans hsame.symm⟩
      · exact .inr ⟨i + 1, c', m', .step hstep hi, hactive⟩

/-- The peak is the one before the run, or a number of calls that were in progress (`peak_spec`). -/
theorem peak_le (h : Steps settings n c m d w) (hm : m.active ≤ m.peak)
    (hpeak : m.peak ≤ settings.maxCallDepth) : w.peak ≤ settings.maxCallDepth := by
  obtain ⟨_, _, hsame | ⟨i, c', m', hi, hactive⟩⟩ := h.peak_spec hm
  · exact hsame.trans_le hpeak
  · rw [← hactive]
    exact hi.active_le (hm.trans hpeak)

end Steps

namespace Halts

variable {settings : Settings} {c : Moment} {m : Machine W}
  {r : EStateM.Result Stop (Machine W) Unit}

/-- The machine at the end is the one that the last `step` leaves. -/
theorem after_eq (h : Halts settings c m r) : after r = after (c.step settings m) := by
  unfold Halts at h
  cases hstep : c.step settings m with
  | error e m' =>
    rw [hstep] at h
    cases h
    rfl
  | ok next m' =>
    rw [hstep] at h
    cases next <;> cases h
    rfl

/-- Where a run halts there is no next moment. -/
theorem not_goes_on (h : Halts settings c m r) (c' : Moment) (m' : Machine W) :
    c.step settings m ≠ .ok (some c') m' := by
  intro hstep
  unfold Halts at h
  rw [hstep] at h
  cases h

/-- The last transition of a run begins no call, so it leaves `peak`. -/
theorem peak_eq (h : Halts settings c m r) : (after r).peak = m.peak := by
  rw [h.after_eq]
  cases Moment.atLimit settings c m with
  | free r' hstep hcalm =>
    rw [← hstep settings.maxCallDepth] at hcalm
    exact hcalm.peak
  | call callee store next hstep =>
    have hstep := hstep settings.maxCallDepth
    split at hstep
    · rw [show c.step settings m = _ from hstep]
      rfl
    · exact absurd hstep (h.not_goes_on _ _)

/-- A run that its limit on calls does not end, ends in the same way under `depth`. -/
theorem nested (h : Halts settings c m r)
    (hfree : ∀ callee m', r ≠ .error (.fault (.callDepth settings.maxCallDepth callee)) m')
    (depth : Nat) : Halts (settings.nested depth) c m r := by
  cases Moment.atLimit settings c m with
  | free r' hstep _ =>
    have hsame : c.step (settings.nested depth) m = c.step settings m :=
      (hstep depth).trans (hstep settings.maxCallDepth).symm
    unfold Halts
    rw [hsame]
    exact h
  | call callee store next hstep =>
    have hstep := hstep settings.maxCallDepth
    split at hstep
    · have hending := congrArg Moment.ending hstep
      exact absurd (Option.some.inj (h.symm.trans hending)) (hfree callee _)
    -- a call that is granted goes on
    · exact absurd hstep (h.not_goes_on _ _)

end Halts

/-! ## Calls that are over -/

/-- Whatever happens in between, as many calls are `active` after a run as before it. -/
theorem Run.respects_active (settings : Settings) (patience : Nat) :
    Respects (W := W) (fun _ r _ => ∀ m, (after (r m)).active = m.active) settings settings patience
      patience := by
  have hstore {γ : Type} {r : Run W γ} (h : OnStore r) (m : Machine W) :
      (after (r m)).active = m.active := by
    obtain ⟨store, functions, hm⟩ := h.after m
    rw [hm]
  have hbind {γ δ : Type} {r : Run W γ} {f : γ → Run W δ} (h : ∀ m, (after (r m)).active = m.active)
      (hf : ∀ a m, (after (f a m)).active = m.active) (m : Machine W) :
      (after ((r >>= f) m)).active = m.active := by
    have hfirst := h m
    cases hm : r m with
    | error e m₁ =>
      rw [hm] at hfirst
      rw [bind_of_error hm]
      exact hfirst
    | ok a m₁ =>
      rw [hm] at hfirst
      rw [bind_of_ok hm]
      exact (hf a m₁).trans hfirst
  have htick (m : Machine W) : (after (tick settings m)).active = m.active := by rw [after_tick]
  exact {
    onStore := hstore
    bind := hbind
    tick := htick
    writeLine := fun _ m => by rw [writeLine, after_ask]
    flush := fun m => by rw [flush, after_ask]
    apply := fun _ _ _ => hstore (.ofExcept _)
    -- a counted run is entered once and left once, and in between `active` is as it was
    counted := fun {γ r _} h m => by
      rw [after_counted]
      exact congrArg (· - 1) (h (entered m))
    rounds := fun hcondition hbody =>
      rounds_of_bind_self (fun _ r => ∀ m, (after (r m)).active = m.active) hbind
        (fun _ => hstore (.pure _)) (fun _ => rfl) htick hcondition hbody patience }

/-- `respects_active` for a call: once it has returned or failed it is no longer in progress. -/
theorem Run.active_call (settings : Settings) (patience room : Nat) (callee : Value)
    (arguments : List Value) (m : Machine W) :
    (after (call ⟨settings, patience, invoke settings patience room⟩ callee arguments m)).active
      = m.active := by
  have h := respects_active (W := W) settings patience
  have hcontext : Context.Respects (fun _ r _ => ∀ m, (after (r m)).active = m.active)
      ⟨settings, patience, invoke settings patience room⟩
      ⟨settings, patience, invoke settings patience room⟩ :=
    h.context fun c arguments => respects_invoke h rfl room c arguments
  exact respects_call hcontext callee arguments m

/-! ## Programs -/

/-- At some moment of the program's run this number of calls is in progress. A program that is
rejected does not run, and calls nothing. -/
def AtOnce (settings : Settings) (p : Program) (sink : Sink W) (n : Nat) : Prop :=
  if p.check = [] then ∃ c m, Reachable settings p sink c m ∧ m.active = n else n = 0

/-- A program starts without calls. -/
theorem Run.programScope_counts {sink : Sink W} {scope : ScopeId} {m : Machine W}
    (h : programScope (.start sink) = .ok scope m) :
    m.active = 0 ∧ m.peak = 0 ∧ m.sink = sink := by
  cases h
  exact ⟨rfl, rfl, rfl⟩

/-- `Steps.active_le` from the start of a program. -/
theorem Reachable.active_le {settings : Settings} {p : Program} {sink : Sink W} {c : Moment}
    {m : Machine W} (h : Reachable settings p sink c m) : m.active ≤ settings.maxCallDepth := by
  obtain ⟨scope, m₀, n, hscope, hsteps⟩ := h
  have hactive := (programScope_counts hscope).1
  exact hsteps.active_le (by omega)

theorem atOnce_iff {settings : Settings} {p : Program} (hcheck : p.check = []) (sink : Sink W)
    (n : Nat) : AtOnce settings p sink n ↔
      ∃ c m, Reachable settings p sink c m ∧ m.active = n := by
  unfold AtOnce
  rw [if_pos hcheck]

/-- A rejected program does not run, so `AtOnce` holds of zero only. -/
theorem isGreatest_atOnce_rejected {p : Program} (hcheck : p.check ≠ []) (settings : Settings)
    (sink : Sink W) : IsGreatest {n | AtOnce settings p sink n} 0 := by
  have hatOnce (n : Nat) : AtOnce settings p sink n ↔ n = 0 := by
    unfold AtOnce
    rw [if_neg hcheck]
  exact ⟨(hatOnce 0).mpr rfl, fun n hn => ((hatOnce n).mp hn).le⟩

/-- Where the run of an accepted program ends, `peak` is the largest number of calls that were in
progress at once (`Steps.peak_spec`). -/
theorem isGreatest_of_halts {settings : Settings} {p : Program} (hcheck : p.check = [])
    {sink : Sink W} {scope : ScopeId} {m₀ m : Machine W} {n : Nat} {c : Moment}
    {r : EStateM.Result Stop (Machine W) Unit} (hscope : programScope (.start sink) = .ok scope m₀)
    (hsteps : Steps settings n (.hoist scope p.statements p.statements .done) m₀ c m)
    (hhalts : Halts settings c m r) : IsGreatest {n | AtOnce settings p sink n} m.peak := by
  obtain ⟨hactive, hpeak, _⟩ := programScope_counts hscope
  obtain ⟨_, hbound, hattained⟩ := hsteps.peak_spec (by omega)
  constructor
  · -- the peak is attained, at the start or at some moment of the run
    refine (atOnce_iff hcheck sink _).mpr ?_
    rcases hattained with hzero | ⟨i, c', m', hi, hmost⟩
    · exact ⟨_, m₀, ⟨scope, m₀, 0, hscope, .refl _ _⟩, by omega⟩
    · exact ⟨c', m', ⟨scope, m₀, i, hscope, hi⟩, hmost⟩
  · -- whatever is reached is reached before the end, so it does not exceed the peak
    intro k hk
    obtain ⟨c', m', ⟨scope', m₀', n', hscope', hsteps'⟩, rfl⟩ := (atOnce_iff hcheck sink k).mp hk
    cases hscope.symm.trans hscope'
    exact hbound n' c' m' (hsteps.le_of_halts hhalts hsteps') hsteps'

/-- `isGreatest_of_halts` for the `peak` that the run of a program leaves behind, if it has
ended. -/
theorem isGreatest_peak {settings : Settings} {patience : Nat} {p : Program} {sink : Sink W}
    (hcheck : p.check = []) (hended : (execute settings patience p sink).Ended) :
    IsGreatest {n | AtOnce settings p sink n}
      (after (program settings patience p.statements (.start sink))).peak := by
  rcases program_of_steps settings p sink patience with
    ⟨_, c, m, r, ⟨scope, m₀, n, hscope, hsteps⟩, hhalts, hends⟩ | ⟨⟨w, hrun⟩, _⟩
  · have hpeak : (after (program settings patience p.statements (.start sink))).peak = m.peak := by
      rw [← hhalts.peak_eq]
      rcases hends with heq | ⟨e, w, active, heq, rfl⟩
      · rw [heq]
      · rw [heq]
        rfl
    rw [hpeak]
    exact isGreatest_of_halts hcheck hscope hsteps hhalts
  -- a run that was left unfinished has not ended
  · refine absurd ?_ hended
    rw [execute_of_accepted hcheck, hrun]
    rfl

/-- `execute` does not use the settings where `check` rejects the program. -/
theorem Executes.of_rejected {settings : Settings} {p : Program} {sink : Sink W} {e : Execution W}
    (hcheck : p.check ≠ []) (h : Executes settings p sink e) (settings' : Settings) :
    Executes settings' p sink e := by
  obtain ⟨hended, patience, rfl⟩ := h
  refine ⟨hended, patience, ?_⟩
  unfold execute
  cases hmistakes : p.check with
  | nil => exact absurd hmistakes hcheck
  | cons mistake mistakes => rfl

/-- How an accepted program ends under another limit on calls, if it ends under a limit that does
not stop it: in the same way, or at the first call that exceeds the limit (`Steps.cut`). -/
theorem executes_nested_cases {settings : Settings} {p : Program} (hcheck : p.check = [])
    {sink : Sink W} {e : Execution W} (he : Executes settings p sink e)
    (hfree : ∀ callee, e.failure
      ≠ some (.stopped (.fault (.callDepth settings.maxCallDepth callee)))) (depth : Nat) :
    (Executes (settings.nested depth) p sink e ∧
      ∀ n, AtOnce settings p sink n → n ≤ depth) ∨
    AtOnce settings p sink (depth + 1) ∧
      ∃ e' callee, Executes (settings.nested depth) p sink e' ∧
        e'.failure = some (.stopped (.fault (.callDepth depth callee))) ∧
        e'.sink.Grows e.sink := by
  obtain ⟨c, m, r, ⟨scope, m₀, n, hscope, hsteps⟩, hhalts, rfl⟩ :=
    (executes_iff_halts hcheck sink e).mp he
  have hafter : (Execution.ofResult r).sink = (after r).sink := by cases r <;> rfl
  obtain ⟨hactive, hpeak, hstart⟩ := programScope_counts hscope
  rcases hsteps.cut (hactive.trans_le (Nat.zero_le depth)) with hsame |
    ⟨⟨i, c', m', hi, hmore⟩, j, c'', m'', callee, stopped, hj, hstop, hgrows⟩
  · -- the limit lets the whole run through
    refine .inl ⟨?_, fun k hk => ?_⟩
    · refine (executes_iff_halts hcheck sink _).mpr
        ⟨c, m, r, ⟨scope, m₀, n, hscope, hsame⟩, hhalts.nested (fun callee m' hr => ?_) depth, rfl⟩
      rw [hr] at hfree
      exact hfree callee rfl
    · have hmost : m.peak ≤ depth :=
        hsame.peak_le (by omega) (hpeak.trans_le (Nat.zero_le depth))
      exact ((isGreatest_of_halts hcheck hscope hsteps hhalts).2 hk).trans hmost
  · -- the run is cut at the call that is one too many
    have hatOnce : AtOnce settings p sink (depth + 1) :=
      (atOnce_iff hcheck sink _).mpr ⟨c', m', ⟨scope, m₀, i, hscope, hi⟩, hmore⟩
    refine .inr ⟨hatOnce, _, callee,
      (executes_iff_halts hcheck sink _).mpr ⟨c'', m'', _, ⟨scope, m₀, j, hscope, hj⟩, hstop, rfl⟩,
      rfl, ?_⟩
    -- the last transition adds to the output as well
    have hlast := c.grows_step settings m
    rw [hafter, hhalts.after_eq]
    exact hgrows.trans hlast

/-- The limit on nested calls is exact. Suppose that a program ends under a limit that does not stop
it, and let `most` be the largest number of calls that are in progress at once, which is the peak
that the run counts. Under every limit of at least `most` the program then ends in the same way, and
under a smaller one at the fault that tells this limit, after output that the other run begins with.
In no run are more calls in progress than its limit says, and each call that has returned or failed
is no longer counted. -/
theorem call_depth_exact (settings : Settings) (p : Program) (sink : Sink W) :
    (∀ e, Executes settings p sink e →
      (∀ callee, e.failure
        ≠ some (.stopped (.fault (.callDepth settings.maxCallDepth callee)))) →
      ∃ most, IsGreatest {n | AtOnce settings p sink n} most ∧
        (p.check = [] → ∀ patience, execute settings patience p sink = e →
          (after (program settings patience p.statements (.start sink))).peak = most) ∧
        (∀ depth, most ≤ depth → Executes (settings.nested depth) p sink e) ∧
        ∀ depth, depth < most → ∃ e' callee, Executes (settings.nested depth) p sink e' ∧
          e'.failure = some (.stopped (.fault (.callDepth depth callee))) ∧
          e'.failure.map (fun f => f.diagnostics.map Diagnostic.message) =
            some ["call depth limit of " ++ toString depth ++ " exceeded in '" ++ callee ++ "'"] ∧
          e'.sink.Grows e.sink) ∧
    (∀ c m, Reachable settings p sink c m → m.active ≤ settings.maxCallDepth) ∧
    ∀ patience room callee arguments (m : Machine W),
      (after (Run.call ⟨settings, patience, invoke settings patience room⟩ callee arguments
        m)).active = m.active := by
  refine ⟨fun e he hfree => ?_, fun c m hreach => hreach.active_le,
    fun patience room callee arguments m => active_call settings patience room callee arguments m⟩
  -- only an accepted program has a run
  by_cases hcheck : p.check = []
  · have ⟨hended, patience, hpatience⟩ := he
    have hmost : IsGreatest {n | AtOnce settings p sink n}
        (after (program settings patience p.statements (.start sink))).peak :=
      isGreatest_peak hcheck (hpatience ▸ hended)
    refine ⟨_, hmost, fun _ patience' hpatience' => ?_, fun depth hle => ?_, fun depth hlt => ?_⟩
    · exact (isGreatest_peak hcheck (hpatience' ▸ hended)).unique hmost
    · rcases executes_nested_cases hcheck he hfree depth with ⟨hsame, _⟩ | ⟨hmore, _⟩
      · exact hsame
      · have := hmost.2 hmore
        omega
    · rcases executes_nested_cases hcheck he hfree depth with
        ⟨_, hbound⟩ | ⟨_, e', callee, he', hfailure, hgrows⟩
      · exact absurd (hbound _ hmost.1) (Nat.not_le.mpr hlt)
      · refine ⟨e', callee, he', hfailure, ?_, hgrows⟩
        rw [hfailure]
        rfl
  · exact ⟨0, isGreatest_atOnce_rejected hcheck settings sink, fun h => absurd h hcheck,
      fun depth _ => he.of_rejected hcheck _, fun depth hlt => absurd hlt (Nat.not_lt_zero depth)⟩

/-- A function that displays a number and calls itself with the one below it, down to zero. -/
def recursiveCountdown : Program :=
  ⟨[.function "f" ["n"] (.block
      [.expr (.call (.name "display") [.name "n"]),
        .cond (.binary .gt (.name "n") (.int 0))
          (.expr (.call (.name "f") [.binary .sub (.name "n") (.int 1)])) none]),
    .expr (.call (.name "f") [.int 2])]⟩

/-- Three calls are in progress at once. With a limit of two the innermost one is refused, after two
of the three lines. -/
theorem call_depth_exact_recursiveCountdown :
    ∃ e, Executes {} recursiveCountdown (.new none false) e ∧
      e.failure = none ∧ e.sink.bytes = "2\n1\n0\n".toUTF8 ∧
      IsGreatest {n | AtOnce {} recursiveCountdown (.new none false) n} 3 ∧
      Executes (({} : Settings).nested 3) recursiveCountdown (.new none false) e ∧
      ∃ e' callee, Executes (({} : Settings).nested 2) recursiveCountdown (.new none false) e' ∧
        e'.failure = some (.stopped (.fault (.callDepth 2 callee))) ∧
        e'.sink.bytes = "2\n1\n".toUTF8 := by
  have hrun (depth : Nat) {e : Execution _} (hended : (execute (({} : Settings).nested depth) 0
      recursiveCountdown (.new none false)).failure.map Failure.diagnostics ≠ some [])
      (he : Executes (({} : Settings).nested depth) recursiveCountdown (.new none false) e) :
      e = execute (({} : Settings).nested depth) 0 recursiveCountdown (.new none false) := by
    refine he.unique (executes_of_ended fun h => hended ?_)
    rw [h]
    rfl
  have hfailure : (execute {} 0 recursiveCountdown (.new none false)).failure = none :=
    Option.isNone_iff_eq_none.mp (by decide +kernel)
  have he : Executes {} recursiveCountdown (.new none false)
      (execute {} 0 recursiveCountdown (.new none false)) :=
    executes_of_ended (by rw [Execution.Ended, hfailure]; simp)
  obtain ⟨hexact, _⟩ := call_depth_exact {} recursiveCountdown (.new none false)
  obtain ⟨most, hmost, hpeak, hsame, hcut⟩ := hexact _ he fun callee h => by
    rw [hfailure] at h
    cases h
  -- the peak is found by running the program
  obtain rfl : most = 3 := by
    rw [← hpeak (by decide +kernel) 0 rfl]
    decide +kernel
  obtain ⟨e', callee, he', hfault, _⟩ := hcut 2 (by decide)
  refine ⟨_, he, hfailure, by decide +kernel, hmost, hsame 3 (Nat.le_refl 3), e', callee,
    he', hfault, ?_⟩
  rw [hrun 2 (by decide +kernel) he']
  decide +kernel

end SimpleLang
