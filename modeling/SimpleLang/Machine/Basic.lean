import SimpleLang.Machine.Fault
import SimpleLang.Machine.Sink
import SimpleLang.Number.Integer
import SimpleLang.Store

/-!
# The machine

The state of a run and the steps that change it: counting, binding names, creating scopes and
functions, writing output. A run ends with a value or stops: at a fault, or because a loop took
more rounds than it was given.

The type `W` is that of the states of the writer behind the sink. Steps and calls are counted with
natural numbers: that a counter of 64 bits wraps, which no run lives to see, is left out.
-/

namespace SimpleLang

variable {W : Type}

/-- The limits of a run, and the `Integers` that its arithmetic is done with. -/
structure Settings where
  /-- How many calls of functions can be in progress at once. -/
  maxCallDepth : Nat := 256
  /-- How many steps a run can take; none for any number. Statements, calls and rounds of loops
  are steps. -/
  maxSteps : Option Nat := none
  integers : Integers := .bits64

/-- The state of a run. `store` and `functions` are what a program can see of it, `steps`, `active`
and `peak` are there for the limits of `Settings`. -/
structure Machine (W : Type) where
  store : Store
  /-- Number of functions created so far, which is the next one's serial number. -/
  functions : Nat
  /-- Number of steps so far. -/
  steps : Nat
  /-- Number of calls of functions in progress. -/
  active : Nat
  /-- The largest number of calls that have been in progress at once. -/
  peak : Nat
  sink : Sink W

/-- Why a `Run` ends without a value. `unfinished` is no fault of the program: a run with more
patience may come to its end. -/
inductive Stop where
  | fault (cause : Fault)
  /-- A loop was not over after the rounds it was given. -/
  | unfinished
deriving DecidableEq, Repr

/-- A computation on the machine. A stop keeps the state that it was reached in, so that what was
written before a fault is known. -/
abbrev Run (W : Type) := EStateM Stop (Machine W)

namespace Machine

def start (sink : Sink W) : Machine W :=
  { store := .empty, functions := 0, steps := 0, active := 0, peak := 0, sink }

end Machine

namespace Run

def fail {α : Type} (f : Fault) : Run W α := throw (.fault f)

/-- The result of an operation that does not need the machine, such as `Operation.apply`. -/
def ofExcept {α : Type} : Except Fault α → Run W α
  | .ok a => pure a
  | .error f => fail f

/-- Counts a step. It is counted before it is compared, so a run that stops at a `limit` has counted
`limit + 1` steps. -/
def tick (settings : Settings) : Run W Unit := do
  modify fun m => { m with steps := m.steps + 1 }
  match settings.maxSteps with
  | some limit => if limit < (← get).steps then fail (.stepLimit limit)
  | none => pure ()

def newScope (parent : Option ScopeId) : Run W ScopeId :=
  modifyGet fun m =>
    let (scope, store) := m.store.newScope parent
    (scope, { m with store })

/-- Binds a name in `scope` itself, whether or not an outer scope binds it too. -/
def define (scope : ScopeId) (x : String) (v : Value) : Run W Unit :=
  modify fun m => { m with store := m.store.define scope x v }

/-- Binds names one after the other, so that of two bindings of one name the later one stays. -/
def defineAll (scope : ScopeId) : List (String × Value) → Run W Unit
  | [] => pure ()
  | (x, v) :: rest => do
    define scope x v
    defineAll scope rest

/-- The value that the nearest scope on the chain from `scope` binds to `x` (`Store.get?`). -/
def lookup (scope : ScopeId) (x : String) : Run W Value := do
  match (← get).store.get? scope x with
  | some v => pure v
  | none => fail (.undefinedName x)

/-- Gives a new value to a name where it is bound (`Store.resolve?`), which may be far out. Unlike
`define` it binds nothing anew. -/
def assign (scope : ScopeId) (x : String) (v : Value) : Run W Unit := do
  match (← get).store.resolve? scope x with
  | some owner => define owner x v
  | none => fail (.undeclaredTarget x)

/-- Creates a function. Its serial number tells it from every other one, since `functions` only
grows. -/
def newClosure (name : Option String) (parameters : List String) (body : Body)
    (scope : ScopeId) : Run W Value :=
  modifyGet fun m =>
    (.closure { serial := m.functions, name, parameters, body, scope },
      { m with functions := m.functions + 1 })

/-- Asks the sink for something. If the sink has a reason not to do it, the run stops there, with
the sink as it is by then: a part of a text may have been taken. -/
def ask (request : Sink W → Option String × Sink W) (fault : String → Fault) : Run W Unit :=
  fun m =>
    match request m.sink with
    | (none, sink) => .ok () { m with sink }
    | (some reason, sink) => .error (.fault (fault reason)) { m with sink }

/-- Writes a line. The pieces are handed on one by one, as they come up when a value is formatted
(`Value.pieces`), so a sink may fail between two of them. -/
def writeLine (pieces : List String) : Run W Unit :=
  ask (·.writeEach (pieces ++ ["\n"])) .notWritten

def flush : Run W Unit := ask Sink.flush .notFlushed

/-- Counts a call as in progress while it runs. The count goes back on both ways out, with a value
and at a stop. -/
def counted {α : Type} (call : Run W α) : Run W α := fun m =>
  match call { m with active := m.active + 1, peak := max m.peak (m.active + 1) } with
  | .ok a m' => .ok a { m' with active := m'.active - 1 }
  | .error e m' => .error e { m' with active := m'.active - 1 }

end Run

end SimpleLang
