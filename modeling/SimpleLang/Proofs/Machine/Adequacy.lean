import SimpleLang.Proofs.Machine.Outcome
import SimpleLang.Proofs.Machine.Transitions

/-!
# The transitions are those of the interpreter

What the recursive evaluation does, the transitions do one after the other, and nothing else. So a
statement about everything that a program reaches is one about its execution.

* `Performs`: from a moment on, the transitions do what a run does. They come to the moment that the
  result of the run gives, they stop at the same fault, or they go on for as long as the rounds that
  the run was given.
* `Expr.performs_eval`, `Stmt.performs_exec`, `Run.performs_invoke`: evaluation, execution and calls
  are performed.
* `executes_iff_halts`: a program ends with an execution just if the transitions end in that way.
-/

namespace SimpleLang

variable {W : Type}

open Run

variable {α β : Type}

/-! ## Single steps -/

/-- The run has a result or stops at a fault. It starts with one number of calls in progress, and
has a result with another. -/
def Run.Immediate (level level' : Nat) (r : Run W α) : Prop :=
  ∀ m : Machine W, m.active = level →
    (∃ a m', r m = .ok a m' ∧ m'.active = level') ∨ ∃ f m', r m = .error (.fault f) m'

namespace Run.Immediate

variable {level level' level'' : Nat}

/-- What only works on the store neither enters nor leaves a call (`OnStore.cases`). -/
theorem onStore {r : Run W α} (h : OnStore r) : Immediate level level r := by
  intro m hm
  rcases h.cases m with ⟨a, store, functions, hrun⟩ | ⟨f, store, functions, hrun⟩
  · exact .inl ⟨a, _, hrun, hm⟩
  · exact .inr ⟨f, _, hrun⟩

/-- A step is counted, or the limit of steps is a fault. -/
theorem tick (settings : Settings) : Immediate level level (tick settings : Run W _) := by
  intro m hm
  rcases tick_cases settings m with hrun | ⟨limit, -, hrun⟩
  · exact .inl ⟨(), _, hrun m rfl, hm⟩
  · exact .inr ⟨_, _, hrun m rfl⟩

/-- The line is written, or the sink is a fault. -/
theorem writeLine (pieces : List String) :
    Immediate level level (writeLine pieces : Run W _) := by
  intro m hm
  rcases ask_cases (·.writeEach (pieces ++ ["\n"])) .notWritten m.sink with hrun | ⟨reason, hrun⟩
  · exact .inl ⟨(), _, hrun m rfl, hm⟩
  · exact .inr ⟨_, _, hrun m rfl⟩

/-- The number of calls in progress after the first part is the one before the second. -/
theorem bind {r : Run W α} {f : α → Run W β} (h : Immediate level level' r)
    (hf : ∀ a, Immediate level' level'' (f a)) : Immediate level level'' (r >>= f) := by
  intro m hm
  rcases h m hm with ⟨a, m₁, hrun, hactive⟩ | ⟨e, m₁, hrun⟩
  · rw [bind_of_ok hrun]
    exact hf a m₁ hactive
  · exact .inr ⟨e, m₁, bind_of_error hrun⟩

/-- Only `leave` lowers the number of calls in progress. -/
theorem leave : Immediate (level + 1) level (leave : Run W _) := by
  intro m hm
  refine .inl ⟨(), { m with active := m.active - 1 }, rfl, ?_⟩
  show m.active - 1 = level
  omega

theorem defineAll (scope : ScopeId) (bs : Bindings) :
    Immediate level level (defineAll scope bs : Run W _) := by
  induction bs with
  | nil => exact .onStore (.pure ())
  | cons b bs ih => exact (Immediate.onStore (.define scope b.1 b.2)).bind fun _ => ih

theorem checkDepth (settings : Settings) (c : Closure) :
    Immediate level level (checkDepth settings c : Run W _) := by
  intro m hm
  rw [checkDepth_apply]
  split
  · exact .inr ⟨_, m, rfl⟩
  · exact .inl ⟨(), m, rfl, hm⟩

/-- Only `enterFrame` raises it, as the last thing, so that a fault before leaves it as it was. -/
theorem enterFrame (settings : Settings) (c : Closure) (arguments : List Value) :
    Immediate level (level + 1) (enterFrame settings c arguments : Run W _) := by
  refine (Immediate.onStore (.checkArity c arguments)).bind fun _ => ?_
  refine (Immediate.checkDepth settings c).bind fun _ => ?_
  refine (Immediate.onStore (.newScope (some c.scope))).bind fun frame => ?_
  refine (Immediate.defineAll frame _).bind fun _ => ?_
  have hentered : Immediate level (level + 1) (modify entered : Run W Unit) :=
    fun m hm => .inl ⟨(), entered m, rfl, congrArg (· + 1) hm⟩
  exact hentered.bind fun _ => .onStore (.pure frame)

end Run.Immediate

/-! ## Performing a run -/

/-- From the moment `start` on, the transitions do what the run does: with a result `a` they come to
the moment `give a`, and where the run stops at a fault they stop at it. Where it is left unfinished
they go on for at least as many steps as `least`. Of the machines at a fault the number of calls in
progress differs, since a run takes its calls back when it stops. -/
def Performs (settings : Settings) (level level' least : Nat) (start : Moment) (r : Run W α)
    (give : α → Moment) : Prop :=
  ∀ m : Machine W, m.active = level →
    (∃ a m' n, r m = .ok a m' ∧ m'.active = level' ∧ Steps settings n start m (give a) m') ∨
    (∃ f m' n c w active, r m = .error (.fault f) m' ∧ Steps settings n start m c w ∧
      c.step settings w = .error (.fault f) { m' with active }) ∨
    ∃ m' n c w, r m = .error .unfinished m' ∧ least ≤ n ∧ Steps settings n start m c w

namespace Performs

variable {settings : Settings} {level level' level'' least : Nat} {start : Moment}

/-- A bound on the steps of an unfinished run may be lowered. -/
theorem mono {least' : Nat} {r : Run W α} {give : α → Moment} (hle : least' ≤ least)
    (h : Performs settings level level' least start r give) :
    Performs settings level level' least' start r give := by
  intro m hm
  rcases h m hm with hok | hfault | ⟨m', n, c, w, hrun, hn, hsteps⟩
  · exact .inl hok
  · exact .inr (.inl hfault)
  · exact .inr (.inr ⟨m', n, c, w, hrun, Nat.le_trans hle hn, hsteps⟩)

theorem pure {a : α} {give : α → Moment} (h : give a = start) :
    Performs settings level level least start (Pure.pure a : Run W _) give := by
  intro m hm
  refine .inl ⟨a, m, 0, rfl, hm, ?_⟩
  rw [h]
  exact .refl start m

/-- The moment that the first result gives is the one from which the rest is performed. -/
theorem bind {r : Run W α} {f : α → Run W β} {give : α → Moment} {give' : β → Moment}
    (h : Performs settings level level' least start r give)
    (hf : ∀ a, Performs settings level' level'' least (give a) (f a) give') :
    Performs settings level level'' least start (r >>= f) give' := by
  intro m hm
  rcases h m hm with ⟨a, m₁, n, hrun, hactive, hsteps⟩ |
    ⟨e, m₁, n, c, w, active, hrun, hsteps, hstop⟩ | ⟨m₁, n, c, w, hrun, hn, hsteps⟩
  · rw [bind_of_ok hrun]
    rcases hf a m₁ hactive with ⟨b, m₂, k, hrun', hactive', hsteps'⟩ |
      ⟨e, m₂, k, c, w, active, hrun', hsteps', hstop⟩ | ⟨m₂, k, c, w, hrun', hk, hsteps'⟩
    · exact .inl ⟨b, m₂, n + k, hrun', hactive', hsteps.trans hsteps'⟩
    · exact .inr (.inl ⟨e, m₂, n + k, c, w, active, hrun', hsteps.trans hsteps', hstop⟩)
    · exact .inr (.inr ⟨m₂, n + k, c, w, hrun', Nat.le_add_left_of_le hk, hsteps.trans hsteps'⟩)
  · exact .inr (.inl ⟨e, m₁, n, c, w, active, bind_of_error hrun, hsteps, hstop⟩)
  · exact .inr (.inr ⟨m₁, n, c, w, bind_of_error hrun, hn, hsteps⟩)

/-- A transition does the beginning of a run, and the transitions from the next moment on do the
rest. The transition counts as a step, so the rest may be left unfinished one step earlier. -/
theorem step_bind {r : Run W α} {f : α → Run W β} {next : α → Moment} {give : β → Moment}
    (hr : Immediate level level' r)
    (hstep : start.step settings = do let a ← r; return some (next a))
    (hf : ∀ a, Performs settings level' level'' least (next a) (f a) give) :
    Performs settings level level'' (least + 1) start (r >>= f) give := by
  intro m hm
  rcases hr m hm with ⟨a, m₁, hrun, hactive⟩ | ⟨e, m₁, hrun⟩
  · have hfirst : start.step settings m = .ok (some (next a)) m₁ := by
      rw [hstep, bind_of_ok hrun]
      rfl
    rw [bind_of_ok hrun]
    rcases hf a m₁ hactive with ⟨b, m₂, k, hrun', hactive', hsteps⟩ |
      ⟨e, m₂, k, c, w, active, hrun', hsteps, hstop⟩ | ⟨m₂, k, c, w, hrun', hk, hsteps⟩
    · exact .inl ⟨b, m₂, k + 1, hrun', hactive', .step hfirst hsteps⟩
    · exact .inr (.inl ⟨e, m₂, k + 1, c, w, active, hrun', .step hfirst hsteps, hstop⟩)
    · exact .inr (.inr ⟨m₂, k + 1, c, w, hrun', Nat.succ_le_succ hk, .step hfirst hsteps⟩)
  -- the transition itself fails
  · refine .inr (.inl ⟨e, m₁, 0, start, m, m₁.active, bind_of_error hrun, .refl start m, ?_⟩)
    rw [hstep, bind_of_error hrun]

/-- A transition does a run. -/
theorem step {r : Run W α} {give : α → Moment} (hr : Immediate level level' r)
    (hstep : start.step settings = do let a ← r; return some (give a)) :
    Performs settings level level' least start r give := by
  have h : Performs settings level level' (least + 1) start (r >>= Pure.pure) give :=
    step_bind hr hstep fun _ => .pure rfl
  rw [bind_pure] at h
  exact h.mono (Nat.le_succ least)

/-- A transition that only leads on. -/
theorem skip {next : Moment} {r : Run W α} {give : α → Moment}
    (hstep : start.step settings = (Pure.pure (some next) : Run W _))
    (h : Performs settings level level' least next r give) :
    Performs settings level level' least start r give := by
  have hbind : Performs settings level level' (least + 1) start
      ((Pure.pure () : Run W Unit) >>= fun _ => r) give :=
    step_bind (.onStore (.pure ())) (hstep.trans (pure_bind () fun _ => _).symm) fun _ => h
  rw [pure_bind] at hbind
  exact hbind.mono (Nat.le_succ least)

/-- The first transition stops at the fault that the run stops at. -/
theorem stop {r : Run W α} {give : α → Moment}
    (h : ∀ m : Machine W, m.active = level → ∃ f m', r m = .error (.fault f) m' ∧
      start.step settings m = .error (.fault f) m') :
    Performs settings level level' least start r give := by
  intro m hm
  obtain ⟨f, m', hrun, hstep⟩ := h m hm
  exact .inr (.inl ⟨f, m', 0, start, m, m'.active, hrun, .refl start m, hstep⟩)

end Performs

/-! ## Calls in progress -/

/-- Both end alike, except for the number of calls in progress where they stop. -/
def Run.EndsLike (r r' : EStateM.Result Stop (Machine W) α) : Prop :=
  r = r' ∨ ∃ e m active, r = .error e m ∧ r' = .error e { m with active }

/-- Runs with a common beginning end alike if the rest does. -/
theorem Run.endsLike_bind {r : Run W α} {f g : α → Run W β} {level level' : Nat} {m : Machine W}
    (hr : Immediate level level' r) (hm : m.active = level)
    (h : ∀ a m', m'.active = level' → EndsLike (f a m') (g a m')) :
    EndsLike ((r >>= f) m) ((r >>= g) m) := by
  rcases hr m hm with ⟨a, m', hrun, hactive⟩ | ⟨e, m', hrun⟩
  · rw [bind_of_ok hrun, bind_of_ok hrun]
    exact h a m' hactive
  · rw [bind_of_error hrun, bind_of_error hrun]
    exact .inl rfl

/-- A run that is counted as a call enters it and leaves it again. -/
theorem Run.endsLike_counted (r : Run W α) (m : Machine W) :
    EndsLike (counted r m) ((do modify entered; let a ← r; leave; return a : Run W α) m) := by
  have henter : (modify entered : Run W Unit) m = .ok () (entered m) := rfl
  rw [bind_of_ok henter]
  cases hrun : r (entered m) with
  | ok a m' =>
    rw [counted_of_ok hrun, bind_of_ok hrun]
    exact .inl rfl
  | error e m' =>
    rw [counted_of_error hrun, bind_of_error hrun]
    exact .inr ⟨e, _, m'.active, rfl, rfl⟩

/-- `Performs` does not say how many calls are in progress at a fault, and leaves an unfinished
machine open. So it holds of every run that ends alike. -/
theorem Performs.congr {settings : Settings} {level level' least : Nat} {start : Moment}
    {r r' : Run W α} {give : α → Moment} (h : Performs settings level level' least start r' give)
    (hends : ∀ m : Machine W, m.active = level → EndsLike (r m) (r' m)) :
    Performs settings level level' least start r give := by
  intro m hm
  rcases hends m hm with heq | ⟨e, w, active, hrun, hrun'⟩
  · rw [heq]
    exact h m hm
  -- both stop for the same reason, and only the calls in progress may differ
  · rcases h m hm with ⟨a, m₁, n, hok, _⟩ | ⟨f, m₁, n, c, w', active', herror, hsteps, hstop⟩ |
      ⟨m₁, n, c, w', herror, hn, hsteps⟩
    · rw [hrun'] at hok
      cases hok
    · rw [hrun'] at herror
      cases herror
      exact .inr (.inl ⟨f, w, n, c, w', active', hrun, hsteps, hstop⟩)
    · rw [hrun'] at herror
      cases herror
      exact .inr (.inr ⟨w, n, c, w', hrun, hn, hsteps⟩)

/-! ## Evaluation and execution -/

/-- With `level` calls in progress, the transitions perform the calls of functions. This is what the
induction on the calls that may still be nested provides (`performs_invoke`). -/
def Context.Performs (context : Context W) (level : Nat) : Prop :=
  ∀ (c : Closure) (arguments : List Value) (k : AfterValue),
    SimpleLang.Performs context.settings level level context.patience
      (.call (.closure c) arguments k)
      (do tick context.settings; context.invoke c arguments) (.value · k)

section Syntax

variable {context : Context W} {level : Nat}

theorem Run.fail_bind (f : Fault) (g : α → Run W β) : (fail f >>= g) = fail f := rfl

/-- A builtin is called in one transition, and so is what cannot be called. A closure is left to
`Context.Performs`. -/
theorem Run.performs_call (h : context.Performs level) (callee : Value) (arguments : List Value)
    (k : AfterValue) : Performs context.settings level level context.patience
      (.call callee arguments k) (call context callee arguments) (.value · k) := by
  have hfail (f : Fault) : Immediate level level (do tick context.settings; fail f : Run W Value) :=
    (Immediate.tick _).bind fun _ => .onStore (.fail f)
  cases callee with
  | closure c => exact h c arguments k
  | builtin f =>
    cases f with
    | display =>
      cases arguments with
      | nil => exact .step (hfail _) (by simp only [Moment.step, call, bind_assoc, fail_bind])
      | cons v rest =>
        cases rest with
        | nil =>
          refine .step ((Immediate.tick _).bind fun _ => (Immediate.writeLine v.pieces).bind
            fun _ => .onStore (.pure Value.unit)) ?_
          simp only [Moment.step, call, bind_assoc, pure_bind]
        | cons w rest =>
          exact .step (hfail _) (by simp only [Moment.step, call, bind_assoc, fail_bind])
  | _ => exact .step (hfail _) (by simp only [Moment.step, call, bind_assoc, fail_bind])

/-- By induction on the statements that are left, one transition for each. -/
theorem Run.performs_hoist (scope : ScopeId) (statements : List Stmt) (k : AfterFlow)
    (settings : Settings) (least : Nat) : (pending : List Stmt) →
    Performs settings level level least (.hoist scope pending statements k)
      (hoist scope pending : Run W _) fun _ => .execAll scope statements k
  | [] => .step (.onStore (.pure ())) rfl
  | .function f parameters body :: rest => by
    -- creating the function and binding it are one transition
    have hdefine : Immediate level level
        (newClosure (some f) parameters body scope >>= fun v => define scope f v : Run W _) :=
      (Immediate.onStore (.newClosure (some f) parameters body scope)).bind fun v =>
        .onStore (.define scope f v)
    have hstep : (Moment.hoist scope (.function f parameters body :: rest) statements k).step
        settings = (do
          let _ ← newClosure (some f) parameters body scope >>= fun v => define scope f v
          return some (.hoist scope rest statements k) : Run W _) := by
      simp only [Moment.step, bind_assoc]
    have hall := Performs.step_bind hdefine hstep fun _ =>
      Run.performs_hoist scope statements k settings least rest
    rw [bind_assoc] at hall
    exact hall.mono (Nat.le_succ least)
  | .declare _ _ :: rest | .assign _ _ :: rest | .expr _ :: rest | .ret _ :: rest
  | .cond _ _ _ :: rest | .loop _ _ :: rest | .block _ :: rest =>
    .skip rfl (Run.performs_hoist scope statements k settings least rest)

mutual
/-- By induction on the expression. Each part is evaluated with a continuation that says what its
value is for, and the lemma for the part gives the moment at which the value has come there. -/
theorem Expr.performs_eval (h : context.Performs level) (scope : ScopeId) (k : AfterValue) :
    (e : Expr) → Performs context.settings level level context.patience (.eval scope e k)
      (e.eval context scope) (.value · k)
  | .int _ | .float _ | .string _ | .bool _ => .step (.onStore (.pure _)) rfl
  | .name x => .step (.onStore (.lookup scope x)) rfl
  | .binary op l r => by
    have hl (k : AfterValue) := Expr.performs_eval h scope k l
    have hr (k : AfterValue) := Expr.performs_eval h scope k r
    have hlogical (op : Operation) : Performs context.settings level level context.patience
        (.eval scope r (.logical op k))
        (do return Value.bool (← logical op (← r.eval context scope))) (.value · k) := by
      refine (hr _).bind fun v => .step ((Immediate.onStore (.logical op v)).bind fun b =>
        .onStore (.pure (Value.bool b))) ?_
      simp only [Moment.step, bind_assoc, pure_bind]
    cases op with
    | and =>
      refine .skip rfl ((hl _).bind fun v => ?_)
      refine (Performs.step_bind (.onStore (.logical .and v)) rfl fun b => ?_).mono
        (Nat.le_succ _)
      -- the second operand is evaluated only if the first does not decide
      cases b with
      | true => exact hlogical .and
      | false => exact .pure rfl
    | or =>
      refine .skip rfl ((hl _).bind fun v => ?_)
      refine (Performs.step_bind (.onStore (.logical .or v)) rfl fun b => ?_).mono
        (Nat.le_succ _)
      cases b with
      | true => exact .pure rfl
      | false => exact hlogical .or
    | _ =>
      refine .skip rfl ((hl _).bind fun a => .skip rfl ((hr _).bind fun b => ?_))
      exact .step (.onStore (.ofExcept _)) rfl
  | .unary op e =>
    .skip rfl ((Expr.performs_eval h scope _ e).bind fun v =>
      .step (.onStore (.ofExcept (op.negate v))) rfl)
  | .call f args =>
    .skip rfl ((Expr.performs_eval h scope _ f).bind fun callee => .skip rfl
      ((Expr.performs_evalAll h scope (.call callee) k args []).bind fun values =>
        .skip rfl (performs_call h callee values k)))
  | .array elements =>
    .skip rfl ((Expr.performs_evalAll h scope .array k elements []).bind fun values =>
      .step (.onStore (.pure (Value.array values))) rfl)
  | .lambda parameters body => .step (.onStore (.newClosure none parameters body scope)) rfl
/-- The values that are already there are kept in the moment, so the induction is for any of
them. -/
theorem Expr.performs_evalAll (h : context.Performs level) (scope : ScopeId) (use : Purpose)
    (k : AfterValue) : (es : List Expr) → (done : List Value) →
    Performs context.settings level level context.patience (.items use scope done es k)
      (Expr.evalAll context scope es) fun vs => .items use scope (done ++ vs) [] k
  | [], done => .pure (by rw [List.append_nil])
  | e :: rest, done => by
    have hstep : (Moment.items use scope done (e :: rest) k).step context.settings
        = (pure (some (.eval scope e (.item use scope done rest k))) : Run W _) := by
      cases use <;> rfl
    refine .skip hstep ((Expr.performs_eval h scope _ e).bind fun v => ?_)
    refine .skip rfl ((Expr.performs_evalAll h scope use k rest (done ++ [v])).bind fun vs => ?_)
    exact .pure (by rw [List.append_assoc, List.singleton_append])
end

/-- A statement that is a sequence of its own. -/
theorem Run.performs_single {scope : ScopeId} {s : Stmt} (k : AfterFlow)
    (hexec : ∀ k, Performs context.settings level level context.patience (.exec scope s k)
      (s.exec context scope) (.flow · k)) :
    Performs context.settings level level context.patience (.hoist scope [s] [s] k)
      (do hoist scope [s]; s.exec context scope) (.flow · k) := by
  refine (performs_hoist scope [s] k context.settings context.patience [s]).bind fun _ => ?_
  have hend : Performs context.settings level level context.patience (.execAll scope [s] k)
      (s.exec context scope >>= Pure.pure) (.flow · k) := by
    refine .skip rfl ((hexec (.rest scope [] k)).bind fun flow => ?_)
    cases flow with
    | returned v => exact .skip rfl (.pure rfl)
    | next => exact .skip rfl (.skip rfl (.pure rfl))
  rw [bind_pure] at hend
  exact hend

/-- The rounds of a loop are performed if each one is. A loop that is left unfinished has taken a
step for each round that it was given. -/
theorem Run.performs_rounds {scope : ScopeId} {test : Expr} {s : Stmt} (k : AfterFlow)
    {condition : Run W Bool} {body : Run W Flow}
    (hcondition : Performs context.settings level level context.patience
      (.eval scope test (.test scope test s k)) condition fun b =>
        if b then .hoist scope [s] [s] (.again scope test s k) else .flow .next k)
    (hbody : Performs context.settings level level context.patience
      (.hoist scope [s] [s] (.again scope test s k)) body (.flow · (.again scope test s k)))
    {count : Nat} (hle : count ≤ context.patience) :
    Performs context.settings level level count (.eval scope test (.test scope test s k))
      (rounds context.settings condition body count) (.flow · k) := by
  -- without a round left the run is unfinished, and no step is asked for
  induction count with
  | zero => exact fun m _ => .inr (.inr ⟨m, 0, _, m, rfl, Nat.le_refl 0, .refl _ m⟩)
  | succ count ih =>
    refine (hcondition.mono hle).bind fun b => ?_
    cases b with
    | false => exact .pure rfl
    | true =>
      refine (hbody.mono hle).bind fun flow => ?_
      cases flow with
      | returned v => exact .skip rfl (.pure rfl)
      | next => exact .step_bind (.tick _) rfl fun _ => ih (Nat.le_of_succ_le hle)

mutual
/-- As `Expr.performs_eval`. Statements begin with a `tick`, which is part of the first
transition. -/
theorem Stmt.performs_exec (h : context.Performs level) (scope : ScopeId) (k : AfterFlow) :
    (s : Stmt) → Performs context.settings level level context.patience (.exec scope s k)
      (s.exec context scope) (.flow · k)
  | .declare x none => by
    refine .step ((Immediate.tick _).bind fun _ => (Immediate.onStore (.define scope x .unit)).bind
      fun _ => .onStore (.pure Flow.next)) ?_
    simp only [Moment.step, Stmt.exec, bind_assoc, pure_bind]
  | .declare x (some e) => by
    refine (Performs.step_bind (.tick _) rfl fun _ =>
      (Expr.performs_eval h scope _ e).bind fun v => ?_).mono (Nat.le_succ _)
    refine .step ((Immediate.onStore (.define scope x v)).bind fun _ =>
      .onStore (.pure Flow.next)) ?_
    simp only [Moment.step, bind_assoc, pure_bind]
  | .assign x e => by
    refine (Performs.step_bind (.tick _) rfl fun _ =>
      (Expr.performs_eval h scope _ e).bind fun v => ?_).mono (Nat.le_succ _)
    refine .step ((Immediate.onStore (.assign scope x v)).bind fun _ =>
      .onStore (.pure Flow.next)) ?_
    simp only [Moment.step, bind_assoc, pure_bind]
  | .expr e =>
    (Performs.step_bind (.tick _) rfl fun _ => (Expr.performs_eval h scope _ e).bind fun _ =>
      .skip rfl (.pure rfl)).mono (Nat.le_succ _)
  | .ret none =>
    (Performs.step_bind (.tick _) rfl fun _ => .pure rfl).mono (Nat.le_succ _)
  | .ret (some e) =>
    (Performs.step_bind (.tick _) rfl fun _ => (Expr.performs_eval h scope _ e).bind fun _ =>
      .skip rfl (.pure rfl)).mono (Nat.le_succ _)
  | .cond test yes none => by
    refine (Performs.step_bind (.tick _) rfl fun _ =>
      (Expr.performs_eval h scope _ test).bind fun v => ?_).mono (Nat.le_succ _)
    refine (Performs.step_bind (.onStore (.answer .conditional v)) rfl fun b => ?_).mono
      (Nat.le_succ _)
    cases b with
    | true => exact performs_single k fun k => Stmt.performs_exec h scope k yes
    | false => exact .pure rfl
  | .cond test yes (some no) => by
    refine (Performs.step_bind (.tick _) rfl fun _ =>
      (Expr.performs_eval h scope _ test).bind fun v => ?_).mono (Nat.le_succ _)
    refine (Performs.step_bind (.onStore (.answer .conditional v)) rfl fun b => ?_).mono
      (Nat.le_succ _)
    cases b with
    | true => exact performs_single k fun k => Stmt.performs_exec h scope k yes
    | false => exact performs_single k fun k => Stmt.performs_exec h scope k no
  | .loop test body => by
    refine (Performs.step_bind (.tick _) rfl fun _ => ?_).mono (Nat.le_succ _)
    refine performs_rounds k ?_ (performs_single _ fun k => Stmt.performs_exec h scope k body)
      (Nat.le_refl _)
    exact (Expr.performs_eval h scope _ test).bind fun v => .step (.onStore (.answer .loop v)) rfl
  | .block statements => by
    -- a block counts its step and opens its scope at once
    have hinner :
        Immediate level level (do tick context.settings; newScope (some scope) : Run W _) :=
      (Immediate.tick _).bind fun _ => .onStore (.newScope (some scope))
    have hstep : (Moment.exec scope (.block statements) k).step context.settings = (do
        let inner ← (do tick context.settings; newScope (some scope))
        return some (.hoist inner statements statements k) : Run W _) := by
      simp only [Moment.step, bind_assoc]
    have hall := Performs.step_bind hinner hstep fun inner =>
      (performs_hoist inner statements k context.settings context.patience statements).bind
        fun _ => Stmt.performs_execAll h inner k statements
    rw [bind_assoc] at hall
    exact hall.mono (Nat.le_succ _)
  | .function _ _ _ =>
    (Performs.step_bind (.tick _) rfl fun _ => .pure rfl).mono (Nat.le_succ _)
theorem Stmt.performs_execAll (h : context.Performs level) (scope : ScopeId) (k : AfterFlow) :
    (ss : List Stmt) → Performs context.settings level level context.patience
      (.execAll scope ss k) (Stmt.execAll context scope ss) (.flow · k)
  | [] => .skip rfl (.pure rfl)
  | s :: rest => by
    refine .skip rfl ((Stmt.performs_exec h scope _ s).bind fun flow => ?_)
    cases flow with
    | returned v => exact .skip rfl (.pure rfl)
    | next => exact .skip rfl (Stmt.performs_execAll h scope k rest)
end

/-! ## Functions and programs -/

namespace Run

/-- The functions of the statements are bound first. -/
theorem performs_sequence (h : context.Performs level) (scope : ScopeId) (k : AfterFlow)
    (ss : List Stmt) : Performs context.settings level level context.patience
      (.hoist scope ss ss k) (sequence context scope ss) (.flow · k) :=
  (performs_hoist scope ss k context.settings context.patience ss).bind fun _ =>
    Stmt.performs_execAll h scope k ss

/-- The body of a function is run, and its call is no longer in progress. -/
theorem performs_body (h : context.Performs (level + 1)) (frame : ScopeId) (k : AfterValue)
    (b : Body) : Performs context.settings (level + 1) level context.patience (b.start frame k)
      (do let v ← body context frame b; leave; return v) (.value · k) := by
  have hleave (v : Value) : Immediate (level + 1) level (do leave; return v : Run W _) :=
    Immediate.leave.bind fun _ => .onStore (.pure v)
  cases b with
  | value e =>
    refine (Expr.performs_eval h frame (.leave k) e).bind fun v => .step (hleave v) ?_
    simp only [Moment.step, bind_assoc, pure_bind]
  | block statements =>
    have hflow (flow : Flow) : Performs context.settings (level + 1) level context.patience
        (.flow flow (.leave k)) (do leave; return flow.result : Run W _) (.value · k) := by
      refine .step (hleave _) ?_
      cases flow <;> simp only [Moment.step, bind_assoc, pure_bind]
    unfold body
    rw [bind_assoc]
    refine (performs_sequence h frame (.leave k) statements).bind fun flow => ?_
    cases flow with
    | returned v => exact hflow (.returned v)
    | next => exact hflow .next

/-- The frame of a call is entered while there is room for it, and then its body is run. -/
theorem endsLike_invoke {settings : Settings} {patience room : Nat}
    (hroom : level + (room + 1) = settings.maxCallDepth) (c : Closure) (arguments : List Value)
    (m : Machine W) (hm : m.active = level) :
    EndsLike ((do tick settings; invoke settings patience (room + 1) c arguments : Run W Value) m)
      ((do
        let frame ← (do tick settings; enterFrame settings c arguments)
        let v ← body { settings, patience, invoke := invoke settings patience room } frame c.body
        leave
        return v : Run W Value) m) := by
  simp only [enterFrame, invoke, bind_assoc, pure_bind]
  refine endsLike_bind (.tick settings) hm fun _ m₁ hm₁ => ?_
  refine endsLike_bind (.onStore (.checkArity c arguments)) hm₁ fun _ m₂ hm₂ => ?_
  -- there is room, so the limit is not reached
  have hdepth : checkDepth settings c m₂ = .ok () m₂ := by
    rw [checkDepth_apply, if_neg (by omega)]
  rw [bind_of_ok hdepth]
  refine endsLike_bind (.onStore (.newScope (some c.scope))) hm₂ fun frame m₃ hm₃ => ?_
  refine endsLike_bind (.defineAll frame _) hm₃ fun _ m₄ _ => ?_
  exact endsLike_counted _ m₄

/-- Calls are performed, by induction on how many may still be nested. -/
theorem performs_invoke (settings : Settings) (patience room level : Nat)
    (hroom : level + room = settings.maxCallDepth) :
    Context.Performs (W := W) { settings, patience, invoke := invoke settings patience room }
      level := by
  -- without room the depth check fails in the transition as it does in the call
  induction room generalizing level with
  | zero =>
    intro c arguments k
    refine .stop fun m hm => ?_
    rcases Immediate.tick settings m hm with ⟨_, m₁, htick, hm₁⟩ | ⟨f, m₁, htick⟩
    · rcases Immediate.onStore (.checkArity c arguments) m₁ hm₁ with
        ⟨_, m₂, harity, hm₂⟩ | ⟨f, m₂, harity⟩
      · have hdepth : checkDepth settings c m₂
            = .error (.fault (.callDepth settings.maxCallDepth c.label)) m₂ := by
          rw [checkDepth_apply, if_pos (by omega)]
        exact ⟨_, m₂, (bind_of_ok htick).trans (bind_of_ok harity), (bind_of_ok htick).trans
          (bind_of_error ((bind_of_ok harity).trans (bind_of_error hdepth)))⟩
      · exact ⟨f, m₂, (bind_of_ok htick).trans (bind_of_error harity),
          (bind_of_ok htick).trans (bind_of_error (bind_of_error harity))⟩
    · exact ⟨f, m₁, bind_of_error htick, bind_of_error htick⟩
  | succ room ih =>
    intro c arguments k
    have henter : Immediate level (level + 1)
        (do tick settings; enterFrame settings c arguments : Run W _) :=
      (Immediate.tick settings).bind fun _ => .enterFrame settings c arguments
    have hstep : (Moment.call (.closure c) arguments k).step settings = (do
        let frame ← (do tick settings; enterFrame settings c arguments)
        return some (c.body.start frame k) : Run W _) := by
      simp only [Moment.step, bind_assoc]
    have hbody := Performs.step_bind henter hstep fun frame =>
      performs_body (ih (level + 1) (by omega)) frame k c.body
    exact (hbody.mono (Nat.le_succ _)).congr fun m hm => endsLike_invoke hroom c arguments m hm

end Run

end Syntax

/-! ## Executions -/

/-- The transitions of a program come to an end that is like the one of its run, or they go on for
as many steps as there is patience, and then the run has not ended. -/
theorem Run.program_of_steps (settings : Settings) (p : Program) (sink : Sink W) (patience : Nat) :
    ((∀ w, program settings patience p.statements (.start sink) ≠ .error .unfinished w) ∧
      ∃ c m r, Reachable settings p sink c m ∧ Halts settings c m r ∧
        EndsLike (program settings patience p.statements (.start sink)) r) ∨
    ((∃ w, program settings patience p.statements (.start sink) = .error .unfinished w) ∧
      ∃ scope m₀ n c m, programScope (.start sink) = .ok scope m₀ ∧ patience ≤ n ∧
        Steps settings n (.hoist scope p.statements p.statements .done) m₀ c m) := by
  obtain ⟨scope, m₀, hscope, hactive⟩ :
      ∃ scope m₀, programScope (.start sink) = .ok scope m₀ ∧ m₀.active = 0 := ⟨_, _, rfl, rfl⟩
  have hprogram : program settings patience p.statements (.start sink)
      = (sequence (outermost settings patience) scope p.statements >>= fun _ => flush) m₀ :=
    bind_of_ok hscope
  have hcontext : (outermost settings patience : Context W).Performs 0 :=
    performs_invoke settings patience settings.maxCallDepth 0 (Nat.zero_add _)
  rw [hprogram]
  rcases performs_sequence hcontext scope .done p.statements m₀ hactive with
    ⟨flow, m, n, hrun, _, hsteps⟩ | ⟨f, m, n, c, w, active, hrun, hsteps, hstop⟩ |
    ⟨m, n, c, w, hrun, hn, hsteps⟩
  · -- the statements have ended, and the sink is flushed
    refine .inl ?_
    rw [bind_of_ok hrun]
    have hhalts : Halts settings (.flow flow .done) m (flush m) := by
      show Moment.ending ((do flush; return none : Run W (Option Moment)) m) = _
      cases hflush : flush m with
      | ok _ m' =>
        rw [bind_of_ok hflush]
        rfl
      | error e m' =>
        rw [bind_of_error hflush]
        rfl
    refine ⟨fun m' => ?_, _, m, _, ⟨scope, m₀, n, hscope, hsteps⟩, hhalts, .inl rfl⟩
    rcases ask_cases Sink.flush .notFlushed m.sink with hflush | ⟨reason, hflush⟩
    · rw [flush, hflush m rfl]
      intro h
      cases h
    · rw [flush, hflush m rfl]
      intro h
      cases h
  -- the statements have stopped at a fault, and nothing is flushed
  · refine .inl ?_
    rw [bind_of_error hrun]
    have hhalts : Halts settings c w (.error (.fault f) { m with active }) :=
      congrArg Moment.ending hstop
    exact ⟨fun m' h => (by cases h), c, w, _, ⟨scope, m₀, n, hscope, hsteps⟩, hhalts,
      .inr ⟨_, m, active, rfl, rfl⟩⟩
  · rw [bind_of_error hrun]
    exact .inr ⟨⟨m, rfl⟩, scope, m₀, n, c, w, hscope, hn, hsteps⟩

/-- An execution does not show how many calls were in progress. -/
theorem Run.EndsLike.ofResult_eq {r r' : EStateM.Result Stop (Machine W) Unit} (h : EndsLike r r') :
    Execution.ofResult r = Execution.ofResult r' := by
  rcases h with rfl | ⟨e, m, active, rfl, rfl⟩ <;> rfl

/-- Without complaints of the checks an execution is the run of the statements. -/
theorem execute_of_accepted {p : Program} (hcheck : p.check = []) (settings : Settings)
    (patience : Nat) (sink : Sink W) : execute settings patience p sink
      = .ofResult (program settings patience p.statements (.start sink)) := by
  unfold execute
  rw [hcheck]

/-- The same for the execution of an accepted program. -/
theorem execute_of_steps {settings : Settings} {p : Program} (hcheck : p.check = [])
    (sink : Sink W) (patience : Nat) :
    ((execute settings patience p sink).Ended ∧ ∃ c m r, Reachable settings p sink c m ∧
      Halts settings c m r ∧ Execution.ofResult r = execute settings patience p sink) ∨
    (¬ (execute settings patience p sink).Ended ∧ ∃ scope m₀ n c m,
      programScope (.start sink) = .ok scope m₀ ∧ patience ≤ n ∧
        Steps settings n (.hoist scope p.statements p.statements .done) m₀ c m) := by
  rw [execute_of_accepted hcheck]
  rcases program_of_steps settings p sink patience with
    ⟨hended, c, m, r, hreach, hhalts, hends⟩ | ⟨⟨w, hrun⟩, hsteps⟩
  · exact .inl ⟨Execution.ended_ofResult hended, c, m, r, hreach, hhalts, hends.ofResult_eq.symm⟩
  · rw [hrun]
    exact .inr ⟨fun hended => hended rfl, hsteps⟩

/-- An accepted program ends with an execution just if its transitions come to an end that reads
like it. -/
theorem executes_iff_halts {settings : Settings} {p : Program} (hcheck : p.check = [])
    (sink : Sink W) (e : Execution W) :
    Executes settings p sink e ↔ ∃ c m r, Reachable settings p sink c m ∧
      Halts settings c m r ∧ Execution.ofResult r = e := by
  constructor
  · rintro ⟨hended, patience, rfl⟩
    rcases execute_of_steps hcheck sink patience with ⟨_, hhalts⟩ | ⟨hunfinished, _⟩
    · exact hhalts
    · exact absurd hended hunfinished
  · rintro ⟨c, m, r, ⟨scope, m₀, n, hscope, hsteps⟩, hhalts, rfl⟩
    -- with more patience than the run takes steps it cannot be left unfinished
    rcases execute_of_steps hcheck sink (n + 1) with
      ⟨hended, c', m', r', ⟨scope', m₀', n', hscope', hsteps'⟩, hhalts', heq⟩ |
      ⟨_, scope', m₀', n', c', m', hscope', hn, hsteps'⟩
    · rw [hscope] at hscope'
      cases hscope'
      obtain rfl := hsteps.halts_unique hhalts hsteps' hhalts'
      rw [heq]
      exact executes_of_ended hended
    · rw [hscope] at hscope'
      cases hscope'
      have := hsteps.le_of_halts hhalts hsteps'
      omega

end SimpleLang
