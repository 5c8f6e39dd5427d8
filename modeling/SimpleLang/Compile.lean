import SimpleLang.Machine.Execute
import SimpleLang.Program.AutoDisplay
import SimpleLang.Program.OfTree
import SimpleLang.Tree.Parser

/-!
# From source to result

`compile` makes a program of a source text, and `run` hands it to a `Backend`: the machine, or
whatever else takes programs. A backend either executes a program or gives the reasons why not.
-/

namespace SimpleLang

/-- How deep statements and expressions are nested unless another limit is asked for. -/
def defaultNestingLimit : Nat := 256

/-- Why a source text has no program. -/
inductive CompileError where
  /-- The text is not in the language. -/
  | malformed (errors : List Diagnostic)
  /-- The tree of the text cannot be read as a program. -/
  | unreadable (error : TreeError)

namespace CompileError

def message : CompileError → String
  | malformed errors => "source has " ++ toString errors.length ++ " syntax error(s)"
  | unreadable e => e.message

def diagnostics : CompileError → List Diagnostic
  | malformed errors => errors
  | unreadable e => [e.diagnostic]

end CompileError

/-- Parses with the given nesting limit, reads the tree as statements and assembles them to a
program. For a source below 4 GiB the second step does not fail. -/
def compile (source : String) (limit : Nat) : Except CompileError Program :=
  match Node.parse source limit with
  | .error errors => .error (.malformed errors)
  | .ok tree =>
    match Stmt.ofProgram tree with
    | .error e => .error (.unreadable e)
    | .ok statements => .ok (.assemble statements)

def compileAll (sources : List String) (limit : Nat) : List (Except CompileError Program) :=
  sources.map (compile · limit)

/-! ## Backends -/

/-- What takes programs: it gives the reasons why it could not execute one, or nothing, and goes on
with a new state. -/
abbrev Backend (σ : Type) := Program → σ → Option (List Diagnostic) × σ

/-- The machine as a backend, whose state is the sink. -/
def machineBackend {W : Type} (settings : Settings) (patience : Nat) : Backend (Sink W) :=
  fun p sink =>
    let e := execute settings patience p sink
    (e.failure.map Failure.diagnostics, e.sink)

/-- A backend that keeps the programs it is given, and executes none of them. -/
def recordingBackend (verdict : Option (List Diagnostic)) : Backend (List Program) := fun p seen =>
  (verdict, seen ++ [p])

/-- Why a source text was not executed. -/
inductive RunError where
  | compile (error : CompileError)
  /-- The backend refused or failed. -/
  | backend (diagnostics : List Diagnostic) (program : Program)

namespace RunError

def message : RunError → String
  | compile e => "compilation failed: " ++ e.message
  | backend diagnostics _ =>
    "backend reported " ++ toString diagnostics.length ++ " diagnostic(s)"

def diagnostics : RunError → List Diagnostic
  | compile e => e.diagnostics
  | backend ds _ => ds

end RunError

def runProgram {σ : Type} (backend : Backend σ) (p : Program) (state : σ) : Option RunError × σ :=
  let (verdict, state) := backend p state
  (verdict.map (.backend · p), state)

/-- Compiles a source text and hands the program to a backend, whose state stays as it is if there
is no program. -/
def run {σ : Type} (backend : Backend σ) (source : String) (limit : Nat) (state : σ) :
    Option RunError × σ :=
  match compile source limit with
  | .error e => (some (.compile e), state)
  | .ok p => runProgram backend p state

end SimpleLang
