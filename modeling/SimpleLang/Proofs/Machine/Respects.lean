import Mathlib
import SimpleLang.Machine.Eval

/-!
# Relations that whole runs respect

The machine has few steps of its own: it counts, it writes, and apart from that it works on the
store alone. A relation between runs that these steps, their sequencing and the rounds of loops
respect holds between all runs of a program under two settings. So a statement about two runs, or
about one, asks only what the steps do, and the induction on the syntax and on the nesting of calls
is done here, once.

* `Run.OnStore`: the run works on the store alone.
* `Run.Respects Rel`: the steps of the machine respect `Rel`; `Context.Respects Rel`: calls of
  functions do as well.
* `Expr.respects_eval`, `Stmt.respects_exec`: then evaluation and execution do.
* `Run.respects_invoke`, `Run.respects_program`: and so do calls and whole programs.
-/

namespace SimpleLang

variable {W : Type}

namespace Run

variable {α β : Type}

/-- The machine that a run leaves behind, whether it ends with a value or stops. -/
def after : EStateM.Result Stop (Machine W) α → Machine W
  | .ok _ m | .error _ m => m

@[simp] theorem after_ok (a : α) (m : Machine W) : after (.ok a m) = m := rfl

@[simp] theorem after_error (e : Stop) (m : Machine W) :
    after (.error e m : EStateM.Result Stop (Machine W) α) = m := rfl

theorem bind_of_ok {r : Run W α} {f : α → Run W β} {m m₁ : Machine W} {a : α} (h : r m = .ok a m₁) :
    (r >>= f) m = f a m₁ := by
  show EStateM.bind r f m = _
  rw [EStateM.bind, h]

theorem bind_of_error {r : Run W α} {f : α → Run W β} {m m₁ : Machine W} {e : Stop}
    (h : r m = .error e m₁) : (r >>= f) m = .error e m₁ := by
  show EStateM.bind r f m = _
  rw [EStateM.bind, h]

/-- `Run.lookup` on a machine, with the monad unfolded. The other steps that may fail have such
lemmas too. -/
theorem lookup_apply (scope : ScopeId) (x : String) (m : Machine W) :
    lookup scope x m = match m.store.get? scope x with
      | some v => .ok v m
      | none => .error (.fault (.undefinedName x)) m := by
  show (match m.store.get? scope x with
    | some v => Pure.pure v
    | none => fail _ : Run W Value) m = _
  cases m.store.get? scope x <;> rfl

theorem assign_apply (scope : ScopeId) (x : String) (v : Value) (m : Machine W) :
    assign scope x v m = match m.store.resolve? scope x with
      | some owner => define owner x v m
      | none => .error (.fault (.undeclaredTarget x)) m := by
  show (match m.store.resolve? scope x with | some owner => define owner x v | none => fail _ :
    Run W Unit) m = _
  cases m.store.resolve? scope x <;> rfl

theorem checkArity_apply (c : Closure) (arguments : List Value) (m : Machine W) :
    checkArity c arguments m = if arguments.length = c.parameters.length then .ok () m
      else .error (.fault (.arity c.label c.parameters.length arguments.length)) m := by
  unfold checkArity
  split <;> rfl

/-! ## What the steps leave behind -/

/-- Without a limit the hypothesis is empty. -/
theorem tick_of_le {settings : Settings} {m : Machine W}
    (h : ∀ limit, settings.maxSteps = some limit → m.steps + 1 ≤ limit) :
    tick settings m = .ok () { m with steps := m.steps + 1 } := by
  cases hlimit : settings.maxSteps with
  | none =>
    unfold tick
    rw [hlimit]
    rfl
  | some limit =>
    have hle : ¬ limit < m.steps + 1 := by
      have := h limit hlimit
      omega
    unfold tick
    rw [hlimit]
    show (if limit < m.steps + 1 then fail _ else pure () : Run W Unit) _ = _
    rw [if_neg hle]
    rfl

theorem tick_of_none {settings : Settings} (h : settings.maxSteps = none) (m : Machine W) :
    tick settings m = .ok () { m with steps := m.steps + 1 } :=
  tick_of_le fun limit hlimit => by rw [h] at hlimit; cases hlimit

theorem tick_of_lt {settings : Settings} {m : Machine W} {limit : Nat}
    (hlimit : settings.maxSteps = some limit) (h : limit < m.steps + 1) :
    tick settings m = .error (.fault (.stepLimit limit)) { m with steps := m.steps + 1 } := by
  unfold tick
  rw [hlimit]
  show (if limit < m.steps + 1 then fail _ else pure () : Run W Unit) _ = _
  rw [if_pos h]
  rfl

/-- Whether a step is one too many depends only on how many were counted before it, so `m` and every
other machine that has counted as many go on, or all of them stop. -/
theorem tick_cases (settings : Settings) (m : Machine W) :
    (∀ m' : Machine W, m'.steps = m.steps →
      tick settings m' = .ok () { m' with steps := m.steps + 1 }) ∨
    ∃ limit, settings.maxSteps = some limit ∧ ∀ m' : Machine W, m'.steps = m.steps →
      tick settings m' = .error (.fault (.stepLimit limit)) { m' with steps := m.steps + 1 } := by
  by_cases h : ∀ limit, settings.maxSteps = some limit → m.steps + 1 ≤ limit
  · refine .inl fun m' hsteps => ?_
    rw [← hsteps] at h ⊢
    exact tick_of_le h
  · obtain ⟨limit, hlimit, hlt⟩ :
        ∃ limit, settings.maxSteps = some limit ∧ limit < m.steps + 1 := by
      simpa using h
    refine .inr ⟨limit, hlimit, fun m' hsteps => ?_⟩
    rw [← hsteps] at hlt ⊢
    exact tick_of_lt hlimit hlt

/-- A tick counts a step, whatever the limit says to it. -/
theorem after_tick (settings : Settings) (m : Machine W) :
    after (tick settings m) = { m with steps := m.steps + 1 } := by
  rcases tick_cases settings m with hrun | ⟨limit, -, hrun⟩
  · rw [hrun m rfl, after_ok]
  · rw [hrun m rfl, after_error]

/-- A request that gives no reason has succeeded. -/
theorem ask_of_none {request : Sink W → Option String × Sink W} (fault : String → Fault)
    {m : Machine W} (h : (request m.sink).1 = none) :
    ask request fault m = .ok () { m with sink := (request m.sink).2 } := by
  unfold ask
  generalize request m.sink = answer at h
  obtain ⟨reason?, sink⟩ := answer
  obtain rfl : reason? = none := h
  rfl

theorem ask_of_some {request : Sink W → Option String × Sink W} (fault : String → Fault)
    {m : Machine W} {reason : String} (h : (request m.sink).1 = some reason) :
    ask request fault m
      = .error (.fault (fault reason)) { m with sink := (request m.sink).2 } := by
  unfold ask
  generalize request m.sink = answer at h
  obtain ⟨reason?, sink⟩ := answer
  obtain rfl : reason? = some reason := h
  rfl

/-- What comes of a request depends on the sink alone: the run goes on or stops at a fault, with the
sink that the request leaves. -/
theorem ask_cases (request : Sink W → Option String × Sink W) (fault : String → Fault)
    (sink : Sink W) :
    (∀ m : Machine W, m.sink = sink →
      ask request fault m = .ok () { m with sink := (request sink).2 }) ∨
    ∃ reason, ∀ m : Machine W, m.sink = sink →
      ask request fault m = .error (.fault (fault reason)) { m with sink := (request sink).2 } := by
  cases hanswer : (request sink).1 with
  | none =>
    refine .inl fun m hm => ?_
    subst hm
    exact ask_of_none fault hanswer
  | some reason =>
    refine .inr ⟨reason, fun m hm => ?_⟩
    subst hm
    exact ask_of_some fault hanswer

/-- The sink is the one that the request leaves, whether it is refused or not. -/
theorem after_ask (request : Sink W → Option String × Sink W) (fault : String → Fault)
    (m : Machine W) : after (ask request fault m) = { m with sink := (request m.sink).2 } := by
  rcases ask_cases request fault m.sink with hrun | ⟨reason, hrun⟩
  · rw [hrun m rfl, after_ok]
  · rw [hrun m rfl, after_error]

/-- The machine on which the body of a function starts, with one more call in progress. -/
def entered (m : Machine W) : Machine W :=
  { m with active := m.active + 1, peak := max m.peak (m.active + 1) }

/-- `Run.counted` runs on the machine `entered`, and the call is over when it ends. -/
theorem counted_of_ok {r : Run W α} {m m₁ : Machine W} {a : α} (h : r (entered m) = .ok a m₁) :
    counted r m = .ok a { m₁ with active := m₁.active - 1 } := by
  unfold entered at h
  unfold counted
  rw [h]

theorem counted_of_error {r : Run W α} {m m₁ : Machine W} {e : Stop}
    (h : r (entered m) = .error e m₁) :
    counted r m = .error e { m₁ with active := m₁.active - 1 } := by
  unfold entered at h
  unfold counted
  rw [h]

/-- The same whether the call ends with a value or stops. -/
theorem after_counted (r : Run W α) (m : Machine W) :
    after (counted r m) =
      { after (r (entered m)) with active := (after (r (entered m))).active - 1 } := by
  cases hm : r (entered m) with
  | ok a m₁ => rw [counted_of_ok hm, after_ok, after_ok]
  | error e m₁ => rw [counted_of_error hm, after_error, after_error]

/-! ## Runs on the store -/

/-- A run that reads and changes the store and the number of functions, and nothing else. It has a
result or stops at a fault, and both depend on the store alone. -/
def OnStore (r : Run W α) : Prop :=
  ∀ store functions,
    (∃ a store' functions', ∀ m : Machine W, m.store = store → m.functions = functions →
      r m = .ok a { m with store := store', functions := functions' }) ∨
    ∃ f store' functions', ∀ m : Machine W, m.store = store → m.functions = functions →
      r m = .error (.fault f) { m with store := store', functions := functions' }

namespace OnStore

theorem pure (a : α) : OnStore (Pure.pure a : Run W _) := by
  intro store functions
  refine .inl ⟨a, store, functions, ?_⟩
  rintro m rfl rfl
  rfl

theorem fail (f : Fault) : OnStore (fail f : Run W α) := by
  intro store functions
  refine .inr ⟨f, store, functions, ?_⟩
  rintro m rfl rfl
  rfl

theorem ofExcept (r : Except Fault α) : OnStore (ofExcept r : Run W _) := by
  cases r with
  | ok a => exact .pure a
  | error f => exact .fail f

theorem newScope (parent : Option ScopeId) : OnStore (newScope parent : Run W _) := by
  intro store functions
  refine .inl ⟨(store.newScope parent).1, (store.newScope parent).2, functions, ?_⟩
  rintro m rfl rfl
  rfl

theorem define (scope : ScopeId) (x : String) (v : Value) :
    OnStore (define scope x v : Run W _) := by
  intro store functions
  refine .inl ⟨(), store.define scope x v, functions, ?_⟩
  rintro m rfl rfl
  rfl

theorem lookup (scope : ScopeId) (x : String) : OnStore (lookup scope x : Run W _) := by
  intro store functions
  cases hget : store.get? scope x with
  | some v =>
    refine .inl ⟨v, store, functions, ?_⟩
    rintro m rfl rfl
    rw [lookup_apply, hget]
  | none =>
    refine .inr ⟨.undefinedName x, store, functions, ?_⟩
    rintro m rfl rfl
    rw [lookup_apply, hget]

theorem assign (scope : ScopeId) (x : String) (v : Value) :
    OnStore (assign scope x v : Run W _) := by
  intro store functions
  cases hresolve : store.resolve? scope x with
  | some owner =>
    refine .inl ⟨(), store.define owner x v, functions, ?_⟩
    rintro m rfl rfl
    rw [assign_apply, hresolve]
    rfl
  | none =>
    refine .inr ⟨.undeclaredTarget x, store, functions, ?_⟩
    rintro m rfl rfl
    rw [assign_apply, hresolve]

theorem newClosure (name : Option String) (parameters : List String) (body : Body)
    (scope : ScopeId) : OnStore (newClosure name parameters body scope : Run W _) := by
  intro store functions
  refine .inl ⟨.closure { serial := functions, name, parameters, body, scope }, store,
    functions + 1, ?_⟩
  rintro m rfl rfl
  rfl

theorem answer (question : Question) (v : Value) : OnStore (answer question v : Run W _) := by
  cases v with
  | bool b => exact .pure b
  | _ => exact .fail _

theorem logical (op : Operation) (v : Value) : OnStore (logical op v : Run W _) := by
  cases v with
  | bool b => exact .pure b
  | _ => exact .fail _

theorem checkArity (c : Closure) (arguments : List Value) :
    OnStore (checkArity c arguments : Run W _) := by
  unfold Run.checkArity
  split
  · exact .pure ()
  · exact .fail _

/-- On any machine the run ends with a value, or at a fault, and only the store has changed. -/
theorem cases {r : Run W α} (h : OnStore r) (m : Machine W) :
    (∃ a store functions, r m = .ok a { m with store, functions }) ∨
      ∃ f store functions, r m = .error (.fault f) { m with store, functions } := by
  rcases h m.store m.functions with ⟨a, store, functions, hrun⟩ | ⟨f, store, functions, hrun⟩
  · exact .inl ⟨a, store, functions, hrun m rfl rfl⟩
  · exact .inr ⟨f, store, functions, hrun m rfl rfl⟩

/-- Both cases of `OnStore.cases` leave such a machine. -/
theorem after {r : Run W α} (h : OnStore r) (m : Machine W) :
    ∃ store functions, after (r m) = { m with store, functions } := by
  rcases h.cases m with ⟨a, store, functions, hrun⟩ | ⟨f, store, functions, hrun⟩
  · exact ⟨store, functions, by rw [hrun, after_ok]⟩
  · exact ⟨store, functions, by rw [hrun, after_error]⟩

end OnStore

/-! ## Relations -/

/-- The rounds of a loop, if both runs are given the same number of them, respect every relation
that sequencing respects. -/
theorem rounds_of_bind (Rel : (α : Type) → Run W α → Run W α → Prop) {settings settings' : Settings}
    (hbind : ∀ {α β : Type} {r r' : Run W α} {f f' : α → Run W β},
      Rel α r r' → (∀ a, Rel β (f a) (f' a)) → Rel β (r >>= f) (r' >>= f'))
    (hpure : ∀ flow, Rel Flow (pure flow) (pure flow))
    (hunfinished : Rel Flow (throw .unfinished) (throw .unfinished))
    (htick : Rel Unit (tick settings) (tick settings'))
    {condition condition' : Run W Bool} {body body' : Run W Flow}
    (hcondition : Rel Bool condition condition') (hbody : Rel Flow body body') (count : Nat) :
    Rel Flow (rounds settings condition body count)
      (rounds settings' condition' body' count) := by
  induction count with
  | zero => exact hunfinished
  | succ count ih =>
    refine hbind hcondition fun b => ?_
    cases b with
    | false => exact hpure .next
    | true =>
      refine hbind hbody fun flow => ?_
      cases flow with
      | returned v => exact hpure (.returned v)
      | next => exact hbind htick fun _ => ih

/-- The same for a property of single runs. -/
theorem rounds_of_bind_self (P : (α : Type) → Run W α → Prop) {settings : Settings}
    (hbind : ∀ {α β : Type} {r : Run W α} {f : α → Run W β},
      P α r → (∀ a, P β (f a)) → P β (r >>= f))
    (hpure : ∀ flow, P Flow (pure flow)) (hunfinished : P Flow (throw .unfinished))
    (htick : P Unit (tick settings)) {condition : Run W Bool} {body : Run W Flow}
    (hcondition : P Bool condition) (hbody : P Flow body) (count : Nat) :
    P Flow (rounds settings condition body count) := by
  refine (rounds_of_bind (fun α r r' => r' = r ∧ P α r) ?_ (fun flow => ⟨rfl, hpure flow⟩)
    ⟨rfl, hunfinished⟩ ⟨rfl, htick⟩ ⟨rfl, hcondition⟩ ⟨rfl, hbody⟩ count).2
  intro α β r r' f f' ⟨hr, h⟩ hf
  obtain rfl := hr
  obtain rfl : f' = f := funext fun a => (hf a).1
  exact ⟨rfl, hbind h fun a => (hf a).2⟩

/-- The steps of the machine, their sequencing and the rounds of loops respect a relation between
runs: with the first settings and patience on its left side, with the second on its right. -/
structure Respects (Rel : (α : Type) → Run W α → Run W α → Prop) (settings settings' : Settings)
    (patience patience' : Nat) : Prop where
  onStore {α : Type} {r : Run W α} : OnStore r → Rel α r r
  bind {α β : Type} {r r' : Run W α} {f f' : α → Run W β} :
    Rel α r r' → (∀ a, Rel β (f a) (f' a)) → Rel β (r >>= f) (r' >>= f')
  tick : Rel Unit (tick settings) (tick settings')
  writeLine (pieces : List String) : Rel Unit (writeLine pieces) (writeLine pieces)
  flush : Rel Unit flush flush
  apply (op : Operation) (a b : Value) : Rel Value
    (ofExcept (op.apply settings.integers a b)) (ofExcept (op.apply settings'.integers a b))
  counted {α : Type} {r r' : Run W α} : Rel α r r' → Rel α (counted r) (counted r')
  rounds {condition condition' : Run W Bool} {body body' : Run W Flow} :
    Rel Bool condition condition' → Rel Flow body body' →
      Rel Flow (rounds settings condition body patience)
        (rounds settings' condition' body' patience')

end Run

/-- Besides the steps of the machine, calls of functions respect the relation. -/
structure Context.Respects (Rel : (α : Type) → Run W α → Run W α → Prop)
    (context context' : Context W) : Prop
    extends Run.Respects Rel context.settings context'.settings context.patience
      context'.patience where
  call (c : Closure) (arguments : List Value) :
    Rel Value (do Run.tick context.settings; context.invoke c arguments)
      (do Run.tick context'.settings; context'.invoke c arguments)

/-- Each call takes a step first, so it respects the relation if the function itself does. -/
theorem Run.Respects.context {Rel : (α : Type) → Run W α → Run W α → Prop}
    {context context' : Context W}
    (h : Respects Rel context.settings context'.settings context.patience context'.patience)
    (hinvoke : ∀ c arguments,
      Rel Value (context.invoke c arguments) (context'.invoke c arguments)) :
    context.Respects Rel context' :=
  { h with call := fun c arguments => h.bind h.tick fun _ => hinvoke c arguments }

section Syntax

open Run

variable {Rel : (α : Type) → Run W α → Run W α → Prop} {context context' : Context W}

namespace Run

/-- Calls of functions respect the relation by `Context.Respects`, those of `display` because
writing does. All else is a fault. -/
theorem respects_call (h : context.Respects Rel context') (callee : Value)
    (arguments : List Value) :
    Rel Value (call context callee arguments) (call context' callee arguments) := by
  cases callee with
  | builtin f =>
    refine h.bind h.tick fun _ => ?_
    cases f with
    | display =>
      cases arguments with
      | nil => exact h.onStore (.fail _)
      | cons v rest =>
        cases rest with
        | nil => exact h.bind (h.writeLine v.pieces) fun _ => h.onStore (.pure _)
        | cons w rest => exact h.onStore (.fail _)
  | closure c => exact h.call c arguments
  | _ => exact h.bind h.tick fun _ => h.onStore (.fail _)

/-- By induction on the statements. Only definitions do something, and that on the store. -/
theorem respects_hoist (h : context.Respects Rel context') (scope : ScopeId) : (ss : List Stmt) →
    Rel Unit (hoist scope ss) (hoist scope ss)
  | [] => h.onStore (.pure ())
  | .function f parameters body :: rest => by
    refine h.bind (h.onStore (.newClosure (some f) parameters body scope)) fun v => ?_
    exact h.bind (h.onStore (.define scope f v)) fun _ => respects_hoist h scope rest
  | .declare _ _ :: rest | .assign _ _ :: rest | .expr _ :: rest | .ret _ :: rest
  | .cond _ _ _ :: rest | .loop _ _ :: rest | .block _ :: rest => respects_hoist h scope rest

end Run

mutual
/-- By induction on the expression: it is a sequence of its operands and of runs on the store, apart
from calls and `Run.Respects.apply`. -/
theorem Expr.respects_eval (h : context.Respects Rel context') (scope : ScopeId) : (e : Expr) →
    Rel Value (e.eval context scope) (e.eval context' scope)
  | .int _ | .float _ | .string _ | .bool _ => h.onStore (.pure _)
  | .name x => h.onStore (.lookup scope x)
  | .binary op l r => by
    have hl := Expr.respects_eval h scope l
    have hr := Expr.respects_eval h scope r
    -- the right operand of `and` and `or`, once it is asked for
    have hlogical (op : Operation) :
        Rel Value (do return Value.bool (← logical op (← r.eval context scope)))
          (do return Value.bool (← logical op (← r.eval context' scope))) :=
      h.bind hr fun v => h.bind (h.onStore (.logical op v)) fun b => h.onStore (.pure _)
    cases op with
    | and =>
      refine h.bind hl fun v => h.bind (h.onStore (.logical .and v)) fun b => ?_
      cases b with
      | true => exact hlogical .and
      | false => exact h.onStore (.pure _)
    | or =>
      refine h.bind hl fun v => h.bind (h.onStore (.logical .or v)) fun b => ?_
      cases b with
      | true => exact h.onStore (.pure _)
      | false => exact hlogical .or
    | _ => exact h.bind hl fun a => h.bind hr fun b => h.apply _ a b
  | .unary op e =>
    h.bind (Expr.respects_eval h scope e) fun v => h.onStore (.ofExcept (op.negate v))
  | .call f args =>
    h.bind (Expr.respects_eval h scope f) fun callee =>
      h.bind (Expr.respects_evalAll h scope args) fun values => respects_call h callee values
  | .array elements =>
    h.bind (Expr.respects_evalAll h scope elements) fun _ => h.onStore (.pure _)
  | .lambda parameters body => h.onStore (.newClosure none parameters body scope)
theorem Expr.respects_evalAll (h : context.Respects Rel context') (scope : ScopeId) :
    (es : List Expr) →
    Rel (List Value) (Expr.evalAll context scope es) (Expr.evalAll context' scope es)
  | [] => h.onStore (.pure _)
  | e :: rest =>
    h.bind (Expr.respects_eval h scope e) fun _ =>
      h.bind (Expr.respects_evalAll h scope rest) fun _ => h.onStore (.pure _)
end

mutual
/-- By induction on the statement, as for `Expr.respects_eval`. The rounds of a loop are
`Run.Respects.rounds`. -/
theorem Stmt.respects_exec (h : context.Respects Rel context') (scope : ScopeId) : (s : Stmt) →
    Rel Flow (s.exec context scope) (s.exec context' scope)
  | .declare x none =>
    h.bind h.tick fun _ => h.bind (h.onStore (.define scope x .unit)) fun _ => h.onStore (.pure _)
  | .declare x (some e) =>
    h.bind h.tick fun _ => h.bind (Expr.respects_eval h scope e) fun v =>
      h.bind (h.onStore (.define scope x v)) fun _ => h.onStore (.pure _)
  | .assign x e =>
    h.bind h.tick fun _ => h.bind (Expr.respects_eval h scope e) fun v =>
      h.bind (h.onStore (.assign scope x v)) fun _ => h.onStore (.pure _)
  | .expr e =>
    h.bind h.tick fun _ => h.bind (Expr.respects_eval h scope e) fun _ => h.onStore (.pure _)
  | .ret none => h.bind h.tick fun _ => h.onStore (.pure _)
  | .ret (some e) =>
    h.bind h.tick fun _ => h.bind (Expr.respects_eval h scope e) fun _ => h.onStore (.pure _)
  | .cond test yes none => by
    refine h.bind h.tick fun _ => h.bind (Expr.respects_eval h scope test) fun v => ?_
    refine h.bind (h.onStore (.answer .conditional v)) fun b => ?_
    cases b with
    | true => exact h.bind (respects_hoist h scope [yes]) fun _ => Stmt.respects_exec h scope yes
    | false => exact h.onStore (.pure _)
  | .cond test yes (some no) => by
    refine h.bind h.tick fun _ => h.bind (Expr.respects_eval h scope test) fun v => ?_
    refine h.bind (h.onStore (.answer .conditional v)) fun b => ?_
    cases b with
    | true => exact h.bind (respects_hoist h scope [yes]) fun _ => Stmt.respects_exec h scope yes
    | false => exact h.bind (respects_hoist h scope [no]) fun _ => Stmt.respects_exec h scope no
  | .loop test body =>
    h.bind h.tick fun _ => h.rounds
      (h.bind (Expr.respects_eval h scope test) fun v => h.onStore (.answer .loop v))
      (h.bind (respects_hoist h scope [body]) fun _ => Stmt.respects_exec h scope body)
  | .block statements =>
    h.bind h.tick fun _ => h.bind (h.onStore (.newScope (some scope))) fun inner =>
      h.bind (respects_hoist h inner statements) fun _ => Stmt.respects_execAll h inner statements
  | .function _ _ _ => h.bind h.tick fun _ => h.onStore (.pure _)
theorem Stmt.respects_execAll (h : context.Respects Rel context') (scope : ScopeId) :
    (ss : List Stmt) →
    Rel Flow (Stmt.execAll context scope ss) (Stmt.execAll context' scope ss)
  | [] => h.onStore (.pure _)
  | s :: rest => by
    refine h.bind (Stmt.respects_exec h scope s) fun flow => ?_
    cases flow with
    | returned v => exact h.onStore (.pure _)
    | next => exact Stmt.respects_execAll h scope rest
end

/-! ## Functions and programs -/

namespace Run

theorem respects_sequence (h : context.Respects Rel context') (scope : ScopeId)
    (ss : List Stmt) : Rel Flow (sequence context scope ss) (sequence context' scope ss) :=
  h.bind (respects_hoist h scope ss) fun _ => Stmt.respects_execAll h scope ss

/-- Whether the body returns a value or not, what is left is on the store. -/
theorem respects_body (h : context.Respects Rel context') (frame : ScopeId) (b : Body) :
    Rel Value (body context frame b) (body context' frame b) := by
  cases b with
  | value e => exact Expr.respects_eval h frame e
  | block statements =>
    refine h.bind (respects_sequence h frame statements) fun flow => ?_
    cases flow with
    | returned v => exact h.onStore (.pure _)
    | next => exact h.onStore (.pure _)

variable {settings settings' : Settings} {patience patience' : Nat}

theorem respects_defineAll (h : Respects Rel settings settings' patience patience')
    (scope : ScopeId) (bs : Bindings) : Rel Unit (defineAll scope bs) (defineAll scope bs) := by
  induction bs with
  | nil => exact h.onStore (.pure ())
  | cons b bs ih => exact h.bind (h.onStore (.define scope b.1 b.2)) fun _ => ih

/-- Calls of functions respect the relation, by induction on how many may still be nested. -/
theorem respects_invoke (h : Respects Rel settings settings' patience patience')
    (hdepth : settings'.maxCallDepth = settings.maxCallDepth) (room : Nat) (c : Closure)
    (arguments : List Value) :
    Rel Value (invoke settings patience room c arguments)
      (invoke settings' patience' room c arguments) := by
  induction room generalizing c arguments with
  | zero =>
    -- the fault tells the limit on calls, so the limits have to be the same
    refine h.bind (h.onStore (.checkArity c arguments)) fun _ => ?_
    rw [hdepth]
    exact h.onStore (.fail _)
  | succ room ih =>
    refine h.bind (h.onStore (.checkArity c arguments)) fun _ => ?_
    refine h.bind (h.onStore (.newScope (some c.scope))) fun frame => ?_
    refine h.bind (respects_defineAll h frame _) fun _ => h.counted ?_
    exact respects_body (h.context ih) frame c.body

/-- A program is its two scopes, its statements and the flush at the end. -/
theorem respects_outermost (h : (outermost settings patience).Respects Rel
    (outermost settings' patience')) (ss : List Stmt) :
    Rel Unit (program settings patience ss) (program settings' patience' ss) := by
  have hscope : Rel ScopeId programScope programScope :=
    h.bind (h.onStore (.newScope none)) fun globals =>
      h.bind (h.onStore (.define globals _ _)) fun _ => h.onStore (.newScope _)
  exact h.bind hscope fun scope => h.bind (respects_sequence h scope ss) fun _ => h.flush

/-- Whole programs respect the relation. -/
theorem respects_program (h : Respects Rel settings settings' patience patience')
    (hdepth : settings'.maxCallDepth = settings.maxCallDepth) (ss : List Stmt) :
    Rel Unit (program settings patience ss) (program settings' patience' ss) := by
  refine respects_outermost (h.context fun c arguments => ?_) ss
  show Rel Value (invoke settings patience settings.maxCallDepth c arguments)
    (invoke settings' patience' settings'.maxCallDepth c arguments)
  rw [hdepth]
  exact respects_invoke h hdepth _ c arguments

end Run

end Syntax

end SimpleLang
