import SimpleLang.Proofs.Machine.Outcome
import SimpleLang.Proofs.Machine.Replacement
import SimpleLang.Proofs.Machine.StepLimit

/-!
# Bodies that are expressions and bodies that return

The body of a function can be an expression, or a block whose only statement returns that
expression. It makes no difference which of them it is, apart from the number of steps: the return
is one step more.

* `Program.returning`: the program with every body that is an expression, at every depth, replaced
  by the block that returns it.
* `Program.check_returning`: the checks find the same mistakes in both.
* `Run.Mirrors`: two runs end alike, on machines that hold the functions of the one program and of
  the other (`Machine.returning`). `Expr.mirrors_eval`, `Stmt.mirrors_exec`, `Run.mirrors_invoke`:
  evaluation, execution and calls of the two programs do.
-/

namespace SimpleLang

variable {W : Type}

/-! ## Programs whose bodies return -/

mutual
/-- The expression with all bodies in it that are expressions made to return them. -/
def Expr.returning : Expr → Expr
  | .int n => .int n
  | .float x => .float x
  | .string s => .string s
  | .bool b => .bool b
  | .name x => .name x
  | .binary op l r => .binary op l.returning r.returning
  | .unary op e => .unary op e.returning
  | .call f args => .call f.returning (Expr.returningAll args)
  | .array elements => .array (Expr.returningAll elements)
  | .lambda parameters body => .lambda parameters body.returning
def Expr.returningAll : List Expr → List Expr
  | [] => []
  | e :: rest => e.returning :: Expr.returningAll rest
/-- A body that is an expression becomes the block that returns it. -/
def Body.returning : Body → Body
  | .block statements => .block (Stmt.returningAll statements)
  | .value e => .block [.ret (some e.returning)]
def Stmt.returning : Stmt → Stmt
  | .declare x none => .declare x none
  | .declare x (some e) => .declare x (some e.returning)
  | .assign x e => .assign x e.returning
  | .expr e => .expr e.returning
  | .ret none => .ret none
  | .ret (some e) => .ret (some e.returning)
  | .cond test yes none => .cond test.returning yes.returning none
  | .cond test yes (some no) => .cond test.returning yes.returning (some no.returning)
  | .loop test body => .loop test.returning body.returning
  | .block statements => .block (Stmt.returningAll statements)
  | .function f parameters body => .function f parameters body.returning
def Stmt.returningAll : List Stmt → List Stmt
  | [] => []
  | s :: rest => s.returning :: Stmt.returningAll rest
end

/-- The program with all bodies made to return. -/
def Program.returning (p : Program) : Program := ⟨Stmt.returningAll p.statements⟩

/-! ## Checks -/

/-- The mistake as it is found in the program whose bodies return. -/
def CheckError.returning : CheckError → CheckError
  | .duplicateParameter p owner => .duplicateParameter p owner
  | .uncallable kind callee => .uncallable kind callee.returning

/-- Whether an expression can be called is told by its outermost form, which stays. -/
theorem Expr.uncallable?_returning (e : Expr) : e.returning.uncallable? = e.uncallable? := by
  cases e <;> rfl

/-- Mistakes in parameters have no expression in them. -/
theorem checkParameters_returning (owner : Option String) (parameters : List String) :
    (checkParameters owner parameters).map CheckError.returning
      = checkParameters owner parameters := by
  unfold checkParameters
  rw [List.map_map]
  rfl

mutual
/-- By induction on the syntax. A body that returns has the mistakes of its expression, and
`Stmt.ret` adds none. -/
theorem Expr.check_returning : (e : Expr) → e.returning.check = e.check.map CheckError.returning
  | .int _ | .float _ | .string _ | .bool _ | .name _ => rfl
  | .binary _ l r => by
    rw [Expr.returning, Expr.check, Expr.check, Expr.check_returning l, Expr.check_returning r,
      List.map_append]
  | .unary _ e => Expr.check_returning e
  | .call f args => by
    -- whether an expression can be called does not depend on the bodies in it
    have hcallee : (f.returning.uncallable?.map (CheckError.uncallable · f.returning)).toList
        = (f.uncallable?.map (CheckError.uncallable · f)).toList.map CheckError.returning := by
      rw [Expr.uncallable?_returning]
      cases f.uncallable? <;> rfl
    rw [Expr.returning, Expr.check, Expr.check, hcallee, Expr.check_returning f,
      Expr.checkAll_returning args, List.map_append, List.map_append]
  | .array elements => Expr.checkAll_returning elements
  | .lambda parameters body => by
    rw [Expr.returning, Expr.check, Expr.check, Body.check_returning body, List.map_append,
      checkParameters_returning]
theorem Expr.checkAll_returning : (es : List Expr) →
    Expr.checkAll (Expr.returningAll es) = (Expr.checkAll es).map CheckError.returning
  | [] => rfl
  | e :: rest => by
    rw [Expr.returningAll, Expr.checkAll, Expr.checkAll, Expr.check_returning e,
      Expr.checkAll_returning rest, List.map_append]
theorem Body.check_returning : (b : Body) → b.returning.check = b.check.map CheckError.returning
  | .block statements => Stmt.checkAll_returning statements
  | .value e => by
    show e.returning.check ++ [] = e.check.map CheckError.returning
    rw [List.append_nil, Expr.check_returning e]
theorem Stmt.check_returning : (s : Stmt) → s.returning.check = s.check.map CheckError.returning
  | .declare _ none | .ret none => rfl
  | .declare _ (some e) | .ret (some e) | .assign _ e | .expr e => Expr.check_returning e
  | .cond test yes none => by
    rw [Stmt.returning, Stmt.check, Stmt.check, Expr.check_returning test,
      Stmt.check_returning yes, List.map_append]
  | .cond test yes (some no) => by
    rw [Stmt.returning, Stmt.check, Stmt.check, Expr.check_returning test,
      Stmt.check_returning yes, Stmt.check_returning no, List.map_append, List.map_append]
  | .loop test body => by
    rw [Stmt.returning, Stmt.check, Stmt.check, Expr.check_returning test,
      Stmt.check_returning body, List.map_append]
  | .block statements => Stmt.checkAll_returning statements
  | .function f parameters body => by
    rw [Stmt.returning, Stmt.check, Stmt.check, Body.check_returning body, List.map_append,
      checkParameters_returning]
theorem Stmt.checkAll_returning : (ss : List Stmt) →
    Stmt.checkAll (Stmt.returningAll ss) = (Stmt.checkAll ss).map CheckError.returning
  | [] => rfl
  | s :: rest => by
    rw [Stmt.returningAll, Stmt.checkAll, Stmt.checkAll, Stmt.check_returning s,
      Stmt.checkAll_returning rest, List.map_append]
end

/-- The checks find the same mistakes in the same order, whether bodies are expressions or return
them. -/
theorem Program.check_returning (p : Program) :
    p.returning.check = p.check.map CheckError.returning :=
  Stmt.checkAll_returning p.statements

/-! ## Values and machines -/

/-- The function with its body made to return. -/
def Closure.returning (c : Closure) : Closure := { c with body := c.body.returning }

/-- Only the body is replaced. -/
theorem Closure.hidden_returning : Closure.Hidden Closure.returning :=
  ⟨fun _ => rfl, fun _ => rfl⟩

def Value.returning (v : Value) : Value := v.mapFunctions Closure.returning

def Flow.returning : Flow → Flow
  | .next => .next
  | .returned v => .returned v.returning

/-- The machine that runs the program whose bodies return, after some number of steps. -/
def Machine.returning (m : Machine W) (steps : Nat) : Machine W :=
  { m with store := m.store.mapValues Value.returning, steps }

namespace Run

variable {α β γ δ : Type}

/-- How the run of the program whose bodies return ends: it has related results, the same reasons to
stop, and some number of steps. -/
def mirrored (h : α → β) (steps : Nat) :
    EStateM.Result Stop (Machine W) α → EStateM.Result Stop (Machine W) β
  | .ok a m => .ok (h a) (m.returning steps)
  | .error e m => .error e (m.returning steps)

/-- The second run ends as the first one does, in the program whose bodies return. -/
def Mirrors (h : α → β) (r : Run W α) (r' : Run W β) : Prop :=
  ∀ m steps, ∃ steps', r' (m.returning steps) = mirrored h steps' (r m)

namespace Mirrors

theorem pure {h : α → β} {a : α} {b : β} (hab : b = h a) :
    Mirrors h (Pure.pure a : Run W _) (Pure.pure b) := by
  intro m steps
  rw [hab]
  exact ⟨steps, rfl⟩

theorem fail {h : α → β} {f f' : Fault} (hf : f' = f) : Mirrors h (fail f : Run W _) (fail f') := by
  intro m steps
  rw [hf]
  exact ⟨steps, rfl⟩

/-- The second parts start with as many steps as the first ones leave, which `Mirrors` takes for all
numbers. -/
theorem bind {h : α → β} {k : γ → δ} {r : Run W α} {r' : Run W β} {f : α → Run W γ}
    {f' : β → Run W δ} (hr : Mirrors h r r') (hf : ∀ a, Mirrors k (f a) (f' (h a))) :
    Mirrors k (r >>= f) (r' >>= f') := by
  intro m steps
  obtain ⟨steps₁, hrun⟩ := hr m steps
  cases hm : r m with
  | error e m₁ =>
    rw [hm] at hrun
    rw [bind_of_error hm, bind_of_error hrun]
    exact ⟨steps₁, rfl⟩
  | ok a m₁ =>
    rw [hm] at hrun
    rw [bind_of_ok hm, bind_of_ok hrun]
    exact hf a m₁ steps₁

/-- Steps and calls in progress are counted apart. -/
theorem counted {h : α → β} {r : Run W α} {r' : Run W β} (hr : Mirrors h r r') :
    Mirrors h (counted r) (counted r') := by
  intro m steps
  obtain ⟨steps₁, hrun⟩ := hr (entered m) steps
  cases hm : r (entered m) with
  | error e m₁ =>
    rw [hm] at hrun
    rw [counted_of_error hm, counted_of_error hrun]
    exact ⟨steps₁, rfl⟩
  | ok a m₁ =>
    rw [hm] at hrun
    rw [counted_of_ok hm, counted_of_ok hrun]
    exact ⟨steps₁, rfl⟩

end Mirrors

/-! ### Steps -/

/-- Without a limit a step is always taken. -/
theorem mirrors_tick {settings : Settings} (h : settings.maxSteps = none) :
    Mirrors id (tick settings : Run W _) (tick settings) := by
  intro m steps
  rw [tick_of_none h, tick_of_none h]
  exact ⟨steps + 1, rfl⟩

/-- The second run may take a step more. -/
theorem Mirrors.tick_left {settings : Settings} (hsteps : settings.maxSteps = none) {h : α → β}
    {r : Run W α} {r' : Run W β} (hr : Mirrors h r r') :
    Mirrors h r (do tick settings; r') := by
  intro m steps
  rw [bind_of_ok (tick_of_none hsteps (m.returning steps))]
  exact hr m (steps + 1)

/-- The new scope binds nothing, so there is no value to replace in it. -/
theorem mirrors_newScope (parent : Option ScopeId) :
    Mirrors id (newScope parent : Run W _) (newScope parent) := by
  intro m steps
  refine ⟨steps, ?_⟩
  have hstore := m.store.newScope_mapValues Value.returning parent
  show EStateM.Result.ok ((m.store.mapValues Value.returning).newScope parent).1
    { m.returning steps with
      store := ((m.store.mapValues Value.returning).newScope parent).2 } = _
  rw [hstore]
  rfl

/-- `Store.define_mapValues`. -/
theorem mirrors_define (scope : ScopeId) (x : String) (v : Value) :
    Mirrors id (define scope x v : Run W _) (define scope x v.returning) := by
  intro m steps
  refine ⟨steps, ?_⟩
  show EStateM.Result.ok () { m.returning steps with
    store := (m.store.mapValues Value.returning).define scope x v.returning } = _
  rw [Store.define_mapValues]
  rfl

/-- `Store.get?_mapValues`. -/
theorem mirrors_lookup (scope : ScopeId) (x : String) :
    Mirrors Value.returning (lookup scope x : Run W _) (lookup scope x) := by
  intro m steps
  refine ⟨steps, ?_⟩
  have hget : (m.returning steps).store.get? scope x = (m.store.get? scope x).map _ :=
    m.store.get?_mapValues Value.returning scope x
  rw [lookup_apply, lookup_apply, hget]
  cases m.store.get? scope x <;> rfl

/-- The scope that owns the name is the same one (`Store.resolve?_mapValues`). -/
theorem mirrors_assign (scope : ScopeId) (x : String) (v : Value) :
    Mirrors id (assign scope x v : Run W _) (assign scope x v.returning) := by
  intro m steps
  have hresolve : (m.returning steps).store.resolve? scope x = m.store.resolve? scope x :=
    m.store.resolve?_mapValues Value.returning scope x
  rw [assign_apply, assign_apply, hresolve]
  cases m.store.resolve? scope x with
  | none => exact ⟨steps, rfl⟩
  | some owner => exact mirrors_define owner x v m steps

theorem mirrors_newClosure (name : Option String) (parameters : List String) (body : Body)
    (scope : ScopeId) : Mirrors Value.returning (newClosure name parameters body scope : Run W _)
      (newClosure name parameters body.returning scope) :=
  fun _ steps => ⟨steps, rfl⟩

/-- The two machines have the same sink. -/
theorem mirrors_ask (request : Sink W → Option String × Sink W) (fault : String → Fault) :
    Mirrors id (ask request fault) (ask request fault) := by
  intro m steps
  refine ⟨steps, ?_⟩
  rcases ask_cases request fault m.sink with hrun | ⟨reason, hrun⟩
  · rw [hrun m rfl, hrun (m.returning steps) rfl]
    rfl
  · rw [hrun m rfl, hrun (m.returning steps) rfl]
    rfl

/-- The fault tells the text of the value, which has the same functions by name
(`Value.text_mapFunctions`). -/
theorem mirrors_answer (question : Question) (v : Value) :
    Mirrors id (answer question v : Run W _) (answer question v.returning) := by
  have htext : v.returning.text = v.text := Value.text_mapFunctions Closure.hidden_returning v
  cases v with
  | bool b => exact .pure rfl
  | _ => exact .fail (by rw [htext]; rfl)

theorem mirrors_logical (op : Operation) (v : Value) :
    Mirrors id (logical op v : Run W _) (logical op v.returning) := by
  cases v with
  | bool b => exact .pure rfl
  | _ => exact .fail rfl

/-- An operation gives the same plain value or fails in the same way. -/
theorem mirrors_ofExcept {r : Except Fault Value} (h : ∀ v, r = .ok v → v.isPlain) :
    Mirrors Value.returning (ofExcept r : Run W _) (ofExcept r) := by
  cases r with
  | error f => exact .fail rfl
  | ok v => exact .pure (Value.mapFunctions_of_isPlain _ (h v rfl)).symm

/-- By induction on the statements. Both create the same functions, with their bodies replaced. -/
theorem mirrors_hoist (scope : ScopeId) : (ss : List Stmt) →
    Mirrors id (hoist scope ss : Run W _) (hoist scope (Stmt.returningAll ss))
  | [] => .pure rfl
  | .function f parameters body :: rest => by
    refine (mirrors_newClosure (some f) parameters body scope).bind fun v => ?_
    exact (mirrors_define scope f v).bind fun _ => mirrors_hoist scope rest
  | .declare _ none :: rest | .declare _ (some _) :: rest | .assign _ _ :: rest | .expr _ :: rest
  | .ret none :: rest | .ret (some _) :: rest | .cond _ _ none :: rest
  | .cond _ _ (some _) :: rest | .loop _ _ :: rest | .block _ :: rest => mirrors_hoist scope rest

/-- By induction on the parameters, along with the arguments. -/
theorem mirrors_defineAll (scope : ScopeId) (parameters : List String) (arguments : List Value) :
    Mirrors id (defineAll scope (parameters.zip arguments) : Run W _)
      (defineAll scope (parameters.zip (arguments.map Value.returning))) := by
  induction parameters generalizing arguments with
  | nil => exact .pure rfl
  | cons x parameters ih =>
    cases arguments with
    | nil => exact .pure rfl
    | cons v arguments => exact (mirrors_define scope x v).bind fun _ => ih arguments

/-- Neither number is changed. -/
theorem mirrors_checkArity (c : Closure) (arguments : List Value) :
    Mirrors id (checkArity c arguments : Run W _)
      (checkArity c.returning (arguments.map Value.returning)) := by
  unfold checkArity
  rw [List.length_map]
  show Mirrors id (if arguments.length = c.parameters.length then _ else _)
    (if arguments.length = c.parameters.length then _ else _)
  split
  · exact .pure rfl
  · exact .fail rfl

/-- The rounds of a loop are as many in both programs. -/
theorem mirrors_rounds {settings : Settings} (hsteps : settings.maxSteps = none)
    {condition condition' : Run W Bool} {body body' : Run W Flow}
    (hcondition : Mirrors id condition condition') (hbody : Mirrors Flow.returning body body')
    (count : Nat) : Mirrors Flow.returning (rounds settings condition body count)
      (rounds settings condition' body' count) := by
  induction count with
  | zero => exact fun m steps => ⟨steps, rfl⟩
  | succ count ih =>
    refine hcondition.bind fun b => ?_
    cases b with
    | false => exact .pure rfl
    | true =>
      refine hbody.bind fun flow => ?_
      cases flow with
      | returned v => exact .pure rfl
      | next => exact (mirrors_tick hsteps).bind fun _ => ih

end Run

/-! ## Evaluation -/

/-- No limit on steps is set, and calls of a function end alike whether its body returns or not. -/
structure Context.Mirrors (context : Context W) : Prop where
  unlimited : context.settings.maxSteps = none
  invoke (c : Closure) (arguments : List Value) :
    Run.Mirrors Value.returning (context.invoke c arguments)
      (context.invoke c.returning (arguments.map Value.returning))

section Syntax

open Run

variable {context : Context W}

theorem Context.Mirrors.tick (h : context.Mirrors) :
    Run.Mirrors id (Run.tick context.settings : Run W _) (Run.tick context.settings) :=
  mirrors_tick h.unlimited

/-- `display` shows the same pieces of a value with its functions replaced, and functions are left
to `Context.Mirrors`. -/
theorem Run.mirrors_call (h : context.Mirrors) (callee : Value) (arguments : List Value) :
    Mirrors Value.returning (call context callee arguments)
      (call context callee.returning (arguments.map Value.returning)) := by
  refine h.tick.bind fun _ => ?_
  cases callee with
  | builtin f =>
    cases f with
    | display =>
      cases arguments with
      | nil => exact .fail rfl
      | cons v rest =>
        cases rest with
        | nil =>
          -- what is displayed of a value does not show the bodies of functions
          have hpieces : v.returning.pieces = v.pieces :=
            Value.pieces_mapFunctions Closure.hidden_returning v
          show Mirrors Value.returning (do writeLine v.pieces; return Value.unit)
            (do writeLine v.returning.pieces; return Value.unit)
          rw [hpieces]
          exact (mirrors_ask _ _).bind fun _ => .pure rfl
        | cons w rest =>
          refine .fail ?_
          rw [List.length_map]
  | closure c => exact h.invoke c arguments
  | _ => exact .fail rfl

mutual
/-- By induction on the expression. Operations do not tell values from those with other functions
(`Operation.apply_mapFunctions`). -/
theorem Expr.mirrors_eval (h : context.Mirrors) (scope : ScopeId) : (e : Expr) →
    Mirrors Value.returning (e.eval context scope) (e.returning.eval context scope)
  | .int _ | .float _ | .string _ | .bool _ => .pure rfl
  | .name x => mirrors_lookup scope x
  | .binary op l r => by
    have hl := Expr.mirrors_eval h scope l
    have hr := Expr.mirrors_eval h scope r
    have hlogical (op : Operation) :
        Mirrors Value.returning (do return Value.bool (← logical op (← r.eval context scope)))
          (do return Value.bool (← logical op (← r.returning.eval context scope))) :=
      hr.bind fun v => (mirrors_logical op v).bind fun b => .pure rfl
    have happly (op : Operation) (a b : Value) :
        Mirrors Value.returning (ofExcept (op.apply context.settings.integers a b) : Run W _)
          (ofExcept (op.apply context.settings.integers a.returning b.returning)) := by
      unfold Value.returning
      rw [Operation.apply_mapFunctions _ op Closure.hidden_returning a b]
      exact mirrors_ofExcept fun v hv => Operation.isPlain_of_apply _ op hv
    cases op with
    | and =>
      refine hl.bind fun v => (mirrors_logical .and v).bind fun b => ?_
      cases b with
      | true => exact hlogical .and
      | false => exact .pure rfl
    | or =>
      refine hl.bind fun v => (mirrors_logical .or v).bind fun b => ?_
      cases b with
      | true => exact .pure rfl
      | false => exact hlogical .or
    | _ => exact hl.bind fun a => hr.bind fun b => happly _ a b
  | .unary op e => by
    refine (Expr.mirrors_eval h scope e).bind fun v => ?_
    unfold Value.returning
    rw [Operation.negate_mapFunctions]
    exact mirrors_ofExcept fun w hw => Operation.isPlain_of_negate op hw
  | .call f args =>
    (Expr.mirrors_eval h scope f).bind fun callee =>
      (Expr.mirrors_evalAll h scope args).bind fun values => mirrors_call h callee values
  | .array elements =>
    (Expr.mirrors_evalAll h scope elements).bind fun values =>
      .pure (congrArg Value.array (Value.mapItems_eq Closure.returning values).symm)
  | .lambda parameters body => mirrors_newClosure none parameters body scope
theorem Expr.mirrors_evalAll (h : context.Mirrors) (scope : ScopeId) : (es : List Expr) →
    Mirrors (List.map Value.returning) (Expr.evalAll context scope es)
      (Expr.evalAll context scope (Expr.returningAll es))
  | [] => .pure rfl
  | e :: rest =>
    (Expr.mirrors_eval h scope e).bind fun _ =>
      (Expr.mirrors_evalAll h scope rest).bind fun _ => .pure rfl
end

mutual
/-- By induction on the statement. Statements stay the same but for the bodies in them, so both take
the same steps. -/
theorem Stmt.mirrors_exec (h : context.Mirrors) (scope : ScopeId) : (s : Stmt) →
    Mirrors Flow.returning (s.exec context scope) (s.returning.exec context scope)
  | .declare x none =>
    h.tick.bind fun _ => (mirrors_define scope x .unit).bind fun _ => .pure rfl
  | .declare x (some e) =>
    h.tick.bind fun _ => (Expr.mirrors_eval h scope e).bind fun v =>
      (mirrors_define scope x v).bind fun _ => .pure rfl
  | .assign x e =>
    h.tick.bind fun _ => (Expr.mirrors_eval h scope e).bind fun v =>
      (mirrors_assign scope x v).bind fun _ => .pure rfl
  | .expr e => h.tick.bind fun _ => (Expr.mirrors_eval h scope e).bind fun _ => .pure rfl
  | .ret none => h.tick.bind fun _ => .pure rfl
  | .ret (some e) => h.tick.bind fun _ => (Expr.mirrors_eval h scope e).bind fun _ => .pure rfl
  | .cond test yes none => by
    refine h.tick.bind fun _ => (Expr.mirrors_eval h scope test).bind fun v => ?_
    refine (mirrors_answer .conditional v).bind fun b => ?_
    cases b with
    | true => exact (mirrors_hoist scope [yes]).bind fun _ => Stmt.mirrors_exec h scope yes
    | false => exact .pure rfl
  | .cond test yes (some no) => by
    refine h.tick.bind fun _ => (Expr.mirrors_eval h scope test).bind fun v => ?_
    refine (mirrors_answer .conditional v).bind fun b => ?_
    cases b with
    | true => exact (mirrors_hoist scope [yes]).bind fun _ => Stmt.mirrors_exec h scope yes
    | false => exact (mirrors_hoist scope [no]).bind fun _ => Stmt.mirrors_exec h scope no
  | .loop test body =>
    h.tick.bind fun _ => mirrors_rounds h.unlimited
      ((Expr.mirrors_eval h scope test).bind fun v => mirrors_answer .loop v)
      ((mirrors_hoist scope [body]).bind fun _ => Stmt.mirrors_exec h scope body) _
  | .block statements =>
    h.tick.bind fun _ => (mirrors_newScope (some scope)).bind fun inner =>
      (mirrors_hoist inner statements).bind fun _ => Stmt.mirrors_execAll h inner statements
  | .function _ _ _ => h.tick.bind fun _ => .pure rfl
theorem Stmt.mirrors_execAll (h : context.Mirrors) (scope : ScopeId) : (ss : List Stmt) →
    Mirrors Flow.returning (Stmt.execAll context scope ss)
      (Stmt.execAll context scope (Stmt.returningAll ss))
  | [] => .pure rfl
  | s :: rest => by
    refine (Stmt.mirrors_exec h scope s).bind fun flow => ?_
    cases flow with
    | returned v => exact .pure rfl
    | next => exact Stmt.mirrors_execAll h scope rest
end

/-! ## Functions and programs -/

namespace Run

theorem mirrors_sequence (h : context.Mirrors) (scope : ScopeId) (ss : List Stmt) :
    Mirrors Flow.returning (sequence context scope ss)
      (sequence context scope (Stmt.returningAll ss)) :=
  (mirrors_hoist scope ss).bind fun _ => Stmt.mirrors_execAll h scope ss

/-- Returning the value of an expression, as a body, is a step and the evaluation of it. -/
theorem body_return (context : Context W) (frame : ScopeId) (e : Expr) :
    body context frame (.block [.ret (some e)])
      = (do tick context.settings; e.eval context frame) := by
  simp only [body, sequence, hoist, Stmt.execAll, Stmt.exec, bind_assoc, pure_bind, bind_pure]

/-- This is where the programs differ: a body that is an expression gets a return, which
`Mirrors.tick_left` allows for. -/
theorem mirrors_body (h : context.Mirrors) (frame : ScopeId) (b : Body) :
    Mirrors Value.returning (body context frame b) (body context frame b.returning) := by
  cases b with
  | value e =>
    show Mirrors _ _ (body context frame (.block [.ret (some e.returning)]))
    rw [body_return]
    exact (Expr.mirrors_eval h frame e).tick_left h.unlimited
  | block statements =>
    refine (mirrors_sequence h frame statements).bind fun flow => ?_
    cases flow with
    | returned v => exact .pure rfl
    | next => exact .pure rfl

/-- Calls end alike, by induction on how many may still be nested. -/
theorem mirrors_invoke {settings : Settings} (hsteps : settings.maxSteps = none)
    (patience room : Nat) (c : Closure) (arguments : List Value) :
    Mirrors Value.returning (invoke settings patience room c arguments : Run W _)
      (invoke settings patience room c.returning (arguments.map Value.returning)) := by
  induction room generalizing c arguments with
  | zero => exact (mirrors_checkArity c arguments).bind fun _ => .fail rfl
  | succ room ih =>
    refine (mirrors_checkArity c arguments).bind fun _ => ?_
    refine (mirrors_newScope (some c.scope)).bind fun frame => ?_
    refine (mirrors_defineAll frame c.parameters arguments).bind fun _ => .counted ?_
    exact mirrors_body ⟨hsteps, ih⟩ frame c.body

/-- At the start there are no functions, and the outermost scope binds `display` alone. -/
theorem mirrors_program {settings : Settings} (hsteps : settings.maxSteps = none)
    (patience : Nat) (ss : List Stmt) :
    Mirrors id (program settings patience ss : Run W _)
      (program settings patience (Stmt.returningAll ss)) := by
  have hcontext : (outermost settings patience : Context W).Mirrors :=
    ⟨hsteps, mirrors_invoke hsteps patience settings.maxCallDepth⟩
  have hscope : Mirrors id (programScope : Run W _) programScope :=
    (mirrors_newScope none).bind fun globals =>
      (mirrors_define globals _ (.builtin .display)).bind fun _ => mirrors_newScope _
  exact hscope.bind fun scope => (mirrors_sequence hcontext scope ss).bind fun _ => mirrors_ask _ _

end Run

end Syntax

/-! ## Executions -/

/-- Without a limit on the steps the two programs fail alike and write the same, at every
patience. -/
theorem execute_returning {settings : Settings} (hsteps : settings.maxSteps = none)
    (patience : Nat) {p : Program} (hcheck : p.check = []) (sink : Sink W) :
    (execute settings patience p.returning sink).failure
        = (execute settings patience p sink).failure ∧
      (execute settings patience p.returning sink).sink
        = (execute settings patience p sink).sink := by
  have hcheck' : p.returning.check = [] := by
    rw [Program.check_returning, hcheck]
    rfl
  obtain ⟨steps, hrun⟩ := Run.mirrors_program hsteps patience p.statements (.start sink) 0
  -- at the start there is no value to replace
  have hstart : (Machine.start sink).returning 0 = .start sink := by
    simp [Machine.returning, Machine.start, Store.mapValues, Store.empty]
  rw [hstart] at hrun
  unfold execute
  rw [hcheck, hcheck']
  show (Execution.ofResult (Run.program settings patience (Stmt.returningAll p.statements)
      (.start sink))).failure = _ ∧ (Execution.ofResult (Run.program settings patience
      (Stmt.returningAll p.statements) (.start sink))).sink = _
  rw [hrun]
  cases Run.program settings patience p.statements (.start sink) with
  | ok _ m => exact ⟨rfl, rfl⟩
  | error e m => exact ⟨rfl, rfl⟩

/-- Bodies that are expressions and bodies that return them are interchangeable. The checks find the
same mistakes in the same order. Without a limit on the steps the one program ends if the other
does, and then they end alike and have written the same. -/
theorem return_bodies_interchangeable (settings : Settings) (p : Program) (sink : Sink W) :
    p.returning.check = p.check.map CheckError.returning ∧
    (p.check = [] →
      ((∃ e, Executes settings.unlimited p sink e) ↔
        ∃ e, Executes settings.unlimited p.returning sink e) ∧
      ∀ e e', Executes settings.unlimited p sink e →
        Executes settings.unlimited p.returning sink e' →
        e'.failure = e.failure ∧ e'.sink = e.sink) := by
  refine ⟨p.check_returning, fun hcheck => ?_⟩
  have hsame (patience : Nat) :=
    @execute_returning W settings.unlimited rfl patience p hcheck sink
  have hended (patience : Nat) : (execute settings.unlimited patience p.returning sink).Ended ↔
      (execute settings.unlimited patience p sink).Ended := by
    unfold Execution.Ended
    rw [(hsame patience).1]
  refine ⟨⟨?_, ?_⟩, ?_⟩
  · rintro ⟨e, hend, patience, rfl⟩
    exact ⟨_, executes_of_ended ((hended patience).mpr hend)⟩
  · rintro ⟨e, hend, patience, rfl⟩
    exact ⟨_, executes_of_ended ((hended patience).mp hend)⟩
  -- what ends at some patience ends there in both programs, and in one way only
  · rintro e e' ⟨hend, patience, rfl⟩ he'
    obtain rfl := he'.unique (executes_of_ended ((hended patience).mpr hend))
    exact hsame patience

/-- Displays a function made by a function, displays what it gives, and divides by zero in it. -/
def nestedLambdas : Program :=
  ⟨[.function "divider" ["n"]
      (.value (.lambda ["k"] (.value (.binary .div (.name "n") (.name "k"))))),
    .declare "f" (some (.call (.name "divider") [.int 6])),
    .expr (.call (.name "display") [.name "f"]),
    .expr (.call (.name "display") [.call (.name "f") [.int 2]]),
    .expr (.call (.name "f") [.int 0])]⟩

/-- Both write the function and the quotient, and stop at the division by zero; the returns take
three steps more. -/
theorem return_bodies_interchangeable_nested :
    nestedLambdas.check = [] ∧ ∃ e e',
      Executes ({} : Settings).unlimited nestedLambdas (.new none false) e ∧
      Executes ({} : Settings).unlimited nestedLambdas.returning (.new none false) e' ∧
      e.sink.bytes = "<lambda>\n3\n".toUTF8 ∧ e.steps = some 10 ∧ e'.steps = some 13 ∧
      e.failure.map Failure.diagnostics = some [(Fault.divisionByZero .div 6 0).diagnostic] ∧
      e'.failure = e.failure ∧ e'.sink = e.sink := by
  have hcheck : nestedLambdas.check = [] := rfl
  -- both programs are run, and both stop at the division
  have hfault : (execute ({} : Settings).unlimited 0 nestedLambdas (.new none false)).failure.map
      Failure.diagnostics = some [(Fault.divisionByZero .div 6 0).diagnostic] := by decide +kernel
  have hfault' : (execute ({} : Settings).unlimited 0 nestedLambdas.returning
      (.new none false)).failure.map Failure.diagnostics
        = some [(Fault.divisionByZero .div 6 0).diagnostic] := by decide +kernel
  have he : Executes ({} : Settings).unlimited nestedLambdas (.new none false) _ :=
    @executes_of_ended Nat _ 0 _ _ (by intro h; rw [h] at hfault; cases hfault)
  have he' : Executes ({} : Settings).unlimited nestedLambdas.returning (.new none false) _ :=
    @executes_of_ended Nat _ 0 _ _ (by intro h; rw [h] at hfault'; cases hfault')
  obtain ⟨_, hruns⟩ := return_bodies_interchangeable {} nestedLambdas (.new none false)
  obtain ⟨_, halike⟩ := hruns hcheck
  exact ⟨hcheck, _, _, he, he', by decide +kernel, by decide +kernel, by decide +kernel, hfault,
    halike _ _ he he'⟩

end SimpleLang
