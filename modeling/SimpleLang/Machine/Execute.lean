import SimpleLang.Machine.Eval
import SimpleLang.Program.Check

/-!
# Executing programs

A program is checked and then run on a machine of its own; only the sink is handed from one
program to the next. `execute` reports how that ended, the number of steps, and the sink.
-/

namespace SimpleLang

variable {W : Type}

/-- Why a program was not executed to its end. -/
inductive Failure where
  /-- The checks found mistakes, so it did not run. -/
  | rejected (mistakes : List CheckError)
  | stopped (reason : Stop)

/-- The failure in words. A run that was left unfinished has nothing to report. -/
def Failure.diagnostics : Failure → List Diagnostic
  | rejected mistakes => mistakes.map CheckError.diagnostic
  | stopped (.fault f) => [f.diagnostic]
  | stopped .unfinished => []

/-- How an execution ended. -/
structure Execution (W : Type) where
  /-- The failure, if there was one. -/
  failure : Option Failure
  /-- Number of steps; none if the program did not run. -/
  steps : Option Nat
  /-- The sink, with what the program has written. -/
  sink : Sink W

def Execution.ofResult : EStateM.Result Stop (Machine W) Unit → Execution W
  | .ok _ m => { failure := none, steps := some m.steps, sink := m.sink }
  | .error reason m => { failure := some (.stopped reason), steps := some m.steps, sink := m.sink }

/-- Checks a program and runs it. A program that `Program.check` finds fault with takes no step and
writes nothing. -/
def execute (settings : Settings) (patience : Nat) (p : Program) (sink : Sink W) : Execution W :=
  match p.check with
  | [] => .ofResult (Run.program settings patience p.statements (.start sink))
  | mistakes => { failure := some (.rejected mistakes), steps := none, sink }

end SimpleLang
