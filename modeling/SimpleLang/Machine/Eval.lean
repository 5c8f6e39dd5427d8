import SimpleLang.Machine.Basic
import SimpleLang.Machine.Operator

/-!
# Evaluation

Expressions evaluate to values and statements are executed, both by recursion on the syntax. Two
things are not recursion on the syntax and come from outside:

* the call of a function, which `Run.invoke` does by recursion on the number of calls that may
  still be nested into each other;
* the rounds of a loop, which `Run.rounds` does by recursion on how many a loop is given. A loop
  that needs more of them is left unfinished.

The functions that a sequence of statements defines are bound before its first statement runs.
-/

namespace SimpleLang

variable {W : Type}

/-- How a statement ends. -/
inductive Flow where
  /-- The next statement follows. -/
  | next
  /-- The function returns. -/
  | returned (value : Value)

/-- What evaluation has at hand. That `invoke` is a field lets evaluation be recursion on the
syntax, and `Run.invoke` supplies it by recursion on something else. -/
structure Context (W : Type) where
  settings : Settings
  /-- How many rounds a loop is given. -/
  patience : Nat
  /-- Calls a function. -/
  invoke : Closure → List Value → Run W Value

namespace Run

/-- Repeats a loop's body while its condition holds. Every round but the one that returns is a step,
on top of the steps of its statements. -/
def rounds (settings : Settings) (condition : Run W Bool) (body : Run W Flow) : Nat → Run W Flow
  | 0 => throw .unfinished
  | n + 1 => do
    if ← condition then
      match ← body with
      | .returned v => return .returned v
      | .next =>
        tick settings
        rounds settings condition body n
    else
      return .next

/-- The answer to the question that a conditional or a loop asks: no value but a truth value will
do. -/
def answer (question : Question) (v : Value) : Run W Bool :=
  match v with
  | .bool b => pure b
  | other => fail (.notACondition question other.type other.text)

def logical (op : Operation) (v : Value) : Run W Bool :=
  match v with
  | .bool b => pure b
  | other => fail (.notLogical op other.type)

/-- Binds the functions that some statements define. Only those of the statements themselves: a
function in a nested block is bound when that block runs. -/
def hoist (scope : ScopeId) : List Stmt → Run W Unit
  | [] => pure ()
  | .function f parameters body :: rest => do
    define scope f (← newClosure (some f) parameters body scope)
    hoist scope rest
  | _ :: rest => hoist scope rest

/-- Calls a value. A call is a step even if the value cannot be called. -/
def call (context : Context W) (callee : Value) (arguments : List Value) : Run W Value := do
  tick context.settings
  match callee, arguments with
  | .builtin .display, [v] =>
    writeLine v.pieces
    return .unit
  | .builtin .display, _ => fail (.displayArity arguments.length)
  | .closure c, _ => context.invoke c arguments
  | other, _ => fail (.notCallable other.type)

end Run

open Run in
mutual
def Expr.eval (context : Context W) (scope : ScopeId) : Expr → Run W Value
  | .int n => return .int n.toInt
  | .float x => return .float x
  | .string s => return .string s
  | .bool b => return .bool b
  | .name x => lookup scope x
  -- the operations that decide whether their right operand is evaluated come before all others
  | .binary .and l r => do
    if ← logical .and (← l.eval context scope) then
      return .bool (← logical .and (← r.eval context scope))
    else
      return .bool false
  | .binary .or l r => do
    if ← logical .or (← l.eval context scope) then
      return .bool true
    else
      return .bool (← logical .or (← r.eval context scope))
  | .binary op l r => do
    let a ← l.eval context scope
    let b ← r.eval context scope
    ofExcept (op.apply context.settings.integers a b)
  | .unary op e => do
    ofExcept (op.negate (← e.eval context scope))
  | .call f args => do
    let callee ← f.eval context scope
    let values ← Expr.evalAll context scope args
    call context callee values
  | .array elements => do
    return .array (← Expr.evalAll context scope elements)
  | .lambda parameters body => newClosure none parameters body scope
/-- Evaluates expressions from left to right. -/
def Expr.evalAll (context : Context W) (scope : ScopeId) : List Expr → Run W (List Value)
  | [] => return []
  | e :: rest => do
    let v ← e.eval context scope
    return v :: (← Expr.evalAll context scope rest)
/-- Executes a statement. A branch or a loop's body without braces runs in the scope around it, so a
function that it defines is bound there. -/
def Stmt.exec (context : Context W) (scope : ScopeId) : Stmt → Run W Flow
  | .declare x none => do
    tick context.settings
    define scope x .unit
    return .next
  | .declare x (some e) => do
    tick context.settings
    define scope x (← e.eval context scope)
    return .next
  | .assign x e => do
    tick context.settings
    assign scope x (← e.eval context scope)
    return .next
  | .expr e => do
    tick context.settings
    let _ ← e.eval context scope
    return .next
  | .ret none => do
    tick context.settings
    return .returned .unit
  | .ret (some e) => do
    tick context.settings
    return .returned (← e.eval context scope)
  | .cond test yes no => do
    tick context.settings
    if ← answer .conditional (← test.eval context scope) then
      hoist scope [yes]
      yes.exec context scope
    else
      match no with
      | some no =>
        hoist scope [no]
        no.exec context scope
      | none => return .next
  | .loop test body => do
    tick context.settings
    rounds context.settings
      (do answer .loop (← test.eval context scope))
      (do
        hoist scope [body]
        body.exec context scope)
      context.patience
  | .block statements => do
    tick context.settings
    let inner ← newScope (some scope)
    hoist inner statements
    Stmt.execAll context inner statements
  | .function .. => do
    tick context.settings
    return .next
/-- Executes statements one after the other, until one returns. -/
def Stmt.execAll (context : Context W) (scope : ScopeId) : List Stmt → Run W Flow
  | [] => return .next
  | s :: rest => do
    match ← s.exec context scope with
    | .returned v => return .returned v
    | .next => Stmt.execAll context scope rest
end

namespace Run

/-- Executes a sequence of statements in a scope, with its functions bound first. -/
def sequence (context : Context W) (scope : ScopeId) (statements : List Stmt) : Run W Flow := do
  hoist scope statements
  Stmt.execAll context scope statements

/-- Runs the body of a function in its frame. A block that ends without a return gives
`Value.unit`. -/
def body (context : Context W) (frame : ScopeId) : Body → Run W Value
  | .value e => e.eval context frame
  | .block statements => do
    match ← sequence context frame statements with
    | .returned v => return v
    | .next => return .unit

/-- Checks that a function gets as many arguments as it has parameters. `zip` would drop what is too
much, so this comes before the parameters are bound. -/
def checkArity (c : Closure) (arguments : List Value) : Run W Unit :=
  if arguments.length = c.parameters.length then pure ()
  else fail (.arity c.label c.parameters.length arguments.length)

/-- Calls a function, while `room` calls may still be nested into those in progress. The frame of
the call is a new scope inside the one that the function was created in. -/
def invoke (settings : Settings) (patience : Nat) :
    (room : Nat) → Closure → List Value → Run W Value
  | 0, c, arguments => do
    checkArity c arguments
    fail (.callDepth settings.maxCallDepth c.label)
  | room + 1, c, arguments => do
    checkArity c arguments
    let frame ← newScope (some c.scope)
    defineAll frame (c.parameters.zip arguments)
    counted (body { settings, patience, invoke := invoke settings patience room } frame c.body)

/-- Outside of all functions none of the calls that may be nested is in progress. -/
def outermost (settings : Settings) (patience : Nat) : Context W :=
  { settings, patience, invoke := invoke settings patience settings.maxCallDepth }

/-- Creates the scope of a program's statements, inside the one with the builtins. -/
def programScope : Run W ScopeId := do
  let globals ← newScope none
  define globals Builtin.display.name (.builtin .display)
  newScope (some globals)

/-- Runs statements as a program. A return outside of all functions ends it without a fault, and
either way the sink is flushed. -/
def program (settings : Settings) (patience : Nat) (statements : List Stmt) : Run W Unit := do
  let scope ← programScope
  let _ ← sequence (outermost settings patience) scope statements
  flush

end Run

end SimpleLang
