import SimpleLang.Proofs.Machine.Respects

/-!
# The states of a run

Evaluation is recursive, so what a run has reached in between is not to be seen from outside. Here
it is taken apart into transitions. A `Moment` is what is done next together with all that waits for
it, and `Moment.step` does as little as can be told apart: it evaluates a name, binds a function,
begins a call.

* `AfterValue`, `AfterFlow`: what waits for a value, and what waits for a statement to end. They
  are two types, so whatever comes up is something that can be waited for, and no moment is stuck.
* `Moment.step`: the next moment; none if the program is over.
* `Steps`: a number of steps one after the other; `Reachable`: what a program reaches.
* `Steps.unique`, `Steps.halts_unique`: a run goes one way only, and it ends in one way.
-/

namespace SimpleLang

variable {W : Type}

/-- What some values are evaluated for. -/
inductive Purpose where
  /-- They are the arguments of a call. -/
  | call (callee : Value)
  /-- They are the items of an array. -/
  | array

mutual
/-- What waits for a value. -/
inductive AfterValue where
  /-- It is the left operand. -/
  | rightOf (op : Operation) (scope : ScopeId) (right : Expr) (k : AfterValue)
  /-- It is the right operand, and the left one is known. -/
  | apply (op : Operation) (left : Value) (k : AfterValue)
  /-- It is the right operand of a logical operation, and decides it. -/
  | logical (op : Operation) (k : AfterValue)
  | negate (op : Operation) (k : AfterValue)
  /-- It is to be called. -/
  | arguments (scope : ScopeId) (args : List Expr) (k : AfterValue)
  /-- It is the next one of some values. -/
  | item (use : Purpose) (scope : ScopeId) (done : List Value) (rest : List Expr) (k : AfterValue)
  | declare (scope : ScopeId) (x : String) (k : AfterFlow)
  | assign (scope : ScopeId) (x : String) (k : AfterFlow)
  | discard (k : AfterFlow)
  | ret (k : AfterFlow)
  /-- It decides between two branches. -/
  | branch (scope : ScopeId) (yes : Stmt) (no : Option Stmt) (k : AfterFlow)
  /-- It decides whether a loop goes on. -/
  | test (scope : ScopeId) (test : Expr) (body : Stmt) (k : AfterFlow)
  /-- It is the result of a call. -/
  | leave (k : AfterValue)
/-- What waits for a statement to end. -/
inductive AfterFlow where
  /-- Nothing: it is the program. -/
  | done
  /-- The statements after it. -/
  | rest (scope : ScopeId) (statements : List Stmt) (k : AfterFlow)
  /-- The loop whose body it is. -/
  | again (scope : ScopeId) (test : Expr) (body : Stmt) (k : AfterFlow)
  /-- The call whose body it is. -/
  | leave (k : AfterValue)
end

/-- What a run does next, and what waits for it. -/
inductive Moment where
  | eval (scope : ScopeId) (e : Expr) (k : AfterValue)
  /-- Some values are known, the rest is to be evaluated. -/
  | items (use : Purpose) (scope : ScopeId) (done : List Value) (rest : List Expr) (k : AfterValue)
  /-- A value is there. -/
  | value (v : Value) (k : AfterValue)
  | call (callee : Value) (arguments : List Value) (k : AfterValue)
  | exec (scope : ScopeId) (s : Stmt) (k : AfterFlow)
  /-- The functions among the pending statements are bound before the sequence is executed. -/
  | hoist (scope : ScopeId) (pending statements : List Stmt) (k : AfterFlow)
  | execAll (scope : ScopeId) (statements : List Stmt) (k : AfterFlow)
  /-- A statement has ended. -/
  | flow (f : Flow) (k : AfterFlow)

/-- What a function gives if its statements end like this. -/
def Flow.result : Flow → Value
  | .next => .unit
  | .returned v => v

/-- The first moment of a function's body. -/
def Body.start (frame : ScopeId) (k : AfterValue) : Body → Moment
  | .value e => .eval frame e (.leave k)
  | .block statements => .hoist frame statements statements (.leave k)

namespace Run

/-- Checks that one more call may be in progress. -/
def checkDepth (settings : Settings) (c : Closure) : Run W Unit := do
  if settings.maxCallDepth ≤ (← get).active then fail (.callDepth settings.maxCallDepth c.label)

/-- `Run.checkDepth` on a machine, with the monad unfolded. -/
theorem checkDepth_apply (settings : Settings) (c : Closure) (m : Machine W) :
    checkDepth settings c m = if settings.maxCallDepth ≤ m.active then
      .error (.fault (.callDepth settings.maxCallDepth c.label)) m else .ok () m := by
  show (if settings.maxCallDepth ≤ m.active then fail _ else pure () : Run W Unit) m = _
  split <;> rfl

/-- A call is no longer in progress. -/
def leave : Run W Unit := modify fun m => { m with active := m.active - 1 }

/-- Calls a function: binds its parameters in a new frame and counts the call as in progress. -/
def enterFrame (settings : Settings) (c : Closure) (arguments : List Value) : Run W ScopeId := do
  checkArity c arguments
  checkDepth settings c
  let frame ← newScope (some c.scope)
  defineAll frame (c.parameters.zip arguments)
  modify entered
  return frame

end Run

open Run in
/-- The next moment of a run; none if the program is over. -/
def Moment.step (settings : Settings) : Moment → Run W (Option Moment)
  | .eval _ (.int n) k => return some (.value (.int n.toInt) k)
  | .eval _ (.float x) k => return some (.value (.float x) k)
  | .eval _ (.string s) k => return some (.value (.string s) k)
  | .eval _ (.bool b) k => return some (.value (.bool b) k)
  | .eval scope (.name x) k => do return some (.value (← lookup scope x) k)
  | .eval scope (.binary op l r) k => return some (.eval scope l (.rightOf op scope r k))
  | .eval scope (.unary op e) k => return some (.eval scope e (.negate op k))
  | .eval scope (.call f args) k => return some (.eval scope f (.arguments scope args k))
  | .eval scope (.array elements) k => return some (.items .array scope [] elements k)
  | .eval scope (.lambda parameters body) k => do
    return some (.value (← newClosure none parameters body scope) k)
  | .items (.call callee) _ done [] k => return some (.call callee done k)
  | .items .array _ done [] k => return some (.value (.array done) k)
  | .items use scope done (e :: rest) k => return some (.eval scope e (.item use scope done rest k))
  | .value v (.rightOf .and scope right k) => do
    let b ← logical .and v
    return some (if b then .eval scope right (.logical .and k) else .value (.bool false) k)
  | .value v (.rightOf .or scope right k) => do
    let b ← logical .or v
    return some (if b then .value (.bool true) k else .eval scope right (.logical .or k))
  | .value v (.rightOf op scope right k) => return some (.eval scope right (.apply op v k))
  | .value v (.apply op left k) => do
    return some (.value (← ofExcept (op.apply settings.integers left v)) k)
  | .value v (.logical op k) => do return some (.value (.bool (← logical op v)) k)
  | .value v (.negate op k) => do return some (.value (← ofExcept (op.negate v)) k)
  | .value v (.arguments scope args k) => return some (.items (.call v) scope [] args k)
  | .value v (.item use scope done rest k) => return some (.items use scope (done ++ [v]) rest k)
  | .value v (.declare scope x k) => do
    define scope x v
    return some (.flow .next k)
  | .value v (.assign scope x k) => do
    assign scope x v
    return some (.flow .next k)
  | .value _ (.discard k) => return some (.flow .next k)
  | .value v (.ret k) => return some (.flow (.returned v) k)
  | .value v (.branch scope yes none k) => do
    let b ← answer .conditional v
    return some (if b then .hoist scope [yes] [yes] k else .flow .next k)
  | .value v (.branch scope yes (some no) k) => do
    let b ← answer .conditional v
    return some (if b then .hoist scope [yes] [yes] k else .hoist scope [no] [no] k)
  | .value v (.test scope test body k) => do
    let b ← answer .loop v
    return some (if b then .hoist scope [body] [body] (.again scope test body k) else .flow .next k)
  | .value v (.leave k) => do
    leave
    return some (.value v k)
  | .call callee arguments k => do
    tick settings
    match callee, arguments with
    | .builtin .display, [v] =>
      writeLine v.pieces
      return some (.value .unit k)
    | .builtin .display, _ => fail (.displayArity arguments.length)
    | .closure c, _ =>
      let frame ← enterFrame settings c arguments
      return some (c.body.start frame k)
    | other, _ => fail (.notCallable other.type)
  | .exec scope (.declare x none) k => do
    tick settings
    define scope x .unit
    return some (.flow .next k)
  | .exec scope (.declare x (some e)) k => do
    tick settings
    return some (.eval scope e (.declare scope x k))
  | .exec scope (.assign x e) k => do
    tick settings
    return some (.eval scope e (.assign scope x k))
  | .exec scope (.expr e) k => do
    tick settings
    return some (.eval scope e (.discard k))
  | .exec _ (.ret none) k => do
    tick settings
    return some (.flow (.returned .unit) k)
  | .exec scope (.ret (some e)) k => do
    tick settings
    return some (.eval scope e (.ret k))
  | .exec scope (.cond test yes no) k => do
    tick settings
    return some (.eval scope test (.branch scope yes no k))
  | .exec scope (.loop test body) k => do
    tick settings
    return some (.eval scope test (.test scope test body k))
  | .exec scope (.block statements) k => do
    tick settings
    let inner ← newScope (some scope)
    return some (.hoist inner statements statements k)
  | .exec _ (.function ..) k => do
    tick settings
    return some (.flow .next k)
  | .hoist scope [] statements k => return some (.execAll scope statements k)
  | .hoist scope (.function f parameters body :: pending) statements k => do
    define scope f (← newClosure (some f) parameters body scope)
    return some (.hoist scope pending statements k)
  | .hoist scope (_ :: pending) statements k => return some (.hoist scope pending statements k)
  | .execAll _ [] k => return some (.flow .next k)
  | .execAll scope (s :: rest) k => return some (.exec scope s (.rest scope rest k))
  | .flow _ .done => do
    flush
    return none
  | .flow (.returned v) (.rest _ _ k) => return some (.flow (.returned v) k)
  | .flow .next (.rest scope statements k) => return some (.execAll scope statements k)
  | .flow (.returned v) (.again _ _ _ k) => return some (.flow (.returned v) k)
  | .flow .next (.again scope test body k) => do
    tick settings
    return some (.eval scope test (.test scope test body k))
  | .flow f (.leave k) => do
    leave
    return some (.value f.result k)

/-! ## Runs -/

/-- Some number of steps lead from one moment and machine to another. -/
inductive Steps (settings : Settings) : Nat → Moment → Machine W → Moment → Machine W → Prop
  | refl (c : Moment) (m : Machine W) : Steps settings 0 c m c m
  | step {n : Nat} {c c' d : Moment} {m m' w : Machine W} :
    c.step settings m = .ok (some c') m' → Steps settings n c' m' d w →
      Steps settings (n + 1) c m d w

/-- How the run ends if this is the result of its next step, unless it goes on. -/
def Moment.ending : EStateM.Result Stop (Machine W) (Option Moment) →
    Option (EStateM.Result Stop (Machine W) Unit)
  | .ok (some _) _ => none
  | .ok none m => some (.ok () m)
  | .error e m => some (.error e m)

/-- The run ends at this moment. -/
def Halts (settings : Settings) (c : Moment) (m : Machine W)
    (r : EStateM.Result Stop (Machine W) Unit) : Prop :=
  Moment.ending (c.step settings m) = some r

namespace Steps

variable {settings : Settings} {n k : Nat} {c d d' : Moment} {m w w' : Machine W}
  {r r' : EStateM.Result Stop (Machine W) Unit}

/-- By induction on the first of the two runs. -/
theorem trans {c₁ c₂ c₃ : Moment} {m₁ m₂ m₃ : Machine W} (h : Steps settings n c₁ m₁ c₂ m₂)
    (h' : Steps settings k c₂ m₂ c₃ m₃) : Steps settings (n + k) c₁ m₁ c₃ m₃ := by
  induction h with
  | refl c m =>
    rw [Nat.zero_add]
    exact h'
  | step hstep _ ih =>
    rw [Nat.add_right_comm]
    exact .step hstep (ih h')

/-- A run does not go on from where it ends. -/
theorem le_of_halts (h : Steps settings n c m d w) (hr : Halts settings d w r)
    (h' : Steps settings k c m d' w') : k ≤ n := by
  induction h generalizing k with
  | refl c m =>
    cases h' with
    | refl => exact Nat.le_refl 0
    | step hstep _ =>
      unfold Halts at hr
      rw [hstep] at hr
      cases hr
  | step hstep _ ih =>
    cases h' with
    | refl => exact Nat.zero_le _
    | step hstep' hrest =>
      -- both runs take the same first step
      rw [hstep] at hstep'
      cases hstep'
      exact Nat.succ_le_succ (ih hr hrest)

/-- As many steps from the same moment lead to the same one. -/
theorem unique (h : Steps settings n c m d w) (h' : Steps settings n c m d' w') :
    d = d' ∧ w = w' := by
  induction h with
  | refl c m =>
    cases h'
    exact ⟨rfl, rfl⟩
  | step hstep _ ih =>
    cases h' with
    | step hstep' hrest =>
      rw [hstep] at hstep'
      cases hstep'
      exact ih hrest

/-- A run ends in one way only. -/
theorem halts_unique (h : Steps settings n c m d w) (hr : Halts settings d w r)
    (h' : Steps settings k c m d' w') (hr' : Halts settings d' w' r') : r = r' := by
  obtain rfl : n = k := Nat.le_antisymm (h'.le_of_halts hr' h) (h.le_of_halts hr h')
  obtain ⟨rfl, rfl⟩ := h.unique h'
  exact Option.some.inj (hr.symm.trans hr')

end Steps

/-- The moment and the machine after some steps, if the run takes as many. -/
def Moment.after (settings : Settings) : Nat → Moment → Machine W → Option (Moment × Machine W)
  | 0, c, m => some (c, m)
  | n + 1, c, m =>
    match c.step settings m with
    | .ok (some c') m' => c'.after settings n m'
    | _ => none

/-- `Moment.after` is for evaluating runs. This is what it says. -/
theorem Steps.of_after {settings : Settings} {n : Nat} {c d : Moment} {m w : Machine W}
    (h : c.after settings n m = some (d, w)) : Steps settings n c m d w := by
  induction n generalizing c m with
  | zero =>
    cases h
    exact .refl _ _
  | succ n ih =>
    unfold Moment.after at h
    split at h
    · next c' m' hstep => exact .step hstep (ih h)
    · cases h

/-- The program reaches the moment and the machine. -/
def Reachable (settings : Settings) (p : Program) (sink : Sink W) (c : Moment) (m : Machine W) :
    Prop :=
  ∃ scope m₀ n, Run.programScope (.start sink) = .ok scope m₀ ∧
    Steps settings n (.hoist scope p.statements p.statements .done) m₀ c m

end SimpleLang
