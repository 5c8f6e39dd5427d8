import SimpleLang.Compile

/-!
# Traces

What the stages from a source text to its execution tell about themselves: when one of them
starts, and what it has done. An `Entry` has a level, a message and fields, and the functions of
this module give the entries of each stage in order.
-/

namespace SimpleLang

variable {W : Type}

namespace Trace

/-- How important an entry is, the most important level first. -/
inductive Level where
  | error | warn | info | debug | trace
deriving DecidableEq, Repr

namespace Level

/-- Every level once, the most important first. -/
def all : List Level := [error, warn, info, debug, trace]

def label : Level → String
  | error => "ERROR"
  | warn => "WARN"
  | info => "INFO"
  | debug => "DEBUG"
  | trace => "TRACE"

/-- How much is told at the level: more is more. -/
def verbosity : Level → Nat
  | error => 1
  | warn => 2
  | info => 3
  | debug => 4
  | trace => 5

end Level

inductive Field where
  | count (n : Nat)
  | flag (b : Bool)
  | text (s : String)
deriving DecidableEq, Repr

/-- The stages that tell when they start. -/
inductive Stage where
  | run (file : String)
  | compile (file : String) (bytes : Nat)
  | execute (statements : Nat)
deriving DecidableEq, Repr

/-- What a stage starts with. -/
def Stage.fields : Stage → List (String × Field)
  | run file => [("filename", .text file)]
  | compile file bytes => [("filename", .text file), ("bytes", .count bytes)]
  | execute statements => [("statements", .count statements)]

/-- What a stage has done. -/
inductive Event where
  | scanned (tokens : Nat)
  | malformed (errors : Nat)
  | parsed (nodes : Nat)
  | unreadable (error : String)
  | read (statements : Nat)
  | assembled (statements : Nat) (displays : Bool)
  | rejected (mistakes : Nat)
  | finished (steps : Nat)
  | failed (diagnostics : Nat)
deriving DecidableEq, Repr

namespace Event

def level : Event → Level
  | unreadable _ | failed _ => .warn
  | _ => .debug

def message : Event → String
  | scanned _ => "lexed source"
  | malformed _ => "syntax errors"
  | parsed _ => "parsed"
  | unreadable _ => "lowering failed"
  | read _ => "lowered program"
  | assembled .. => "assembled program"
  | rejected _ => "program rejected by checks"
  | finished _ => "program finished"
  | failed _ => "backend failed"

def fields : Event → List (String × Field)
  | scanned tokens => [("tokens", .count tokens)]
  | malformed errors => [("errors", .count errors)]
  | parsed nodes => [("nodes", .count nodes)]
  | unreadable error => [("error", .text error)]
  | read statements => [("statements", .count statements)]
  | assembled statements displays =>
    [("statements", .count statements), ("displays", .flag displays)]
  | rejected mistakes => [("count", .count mistakes)]
  | finished steps => [("steps", .count steps)]
  | failed diagnostics => [("diagnostics", .count diagnostics)]

end Event

inductive Entry where
  | start (stage : Stage)
  | event (event : Event)
deriving DecidableEq, Repr

/-! ## The entries of each stage -/

/-- The entries of reading a tree: none if the tree is not that of a program. -/
def reading (tree : Node) : List Entry :=
  match Stmt.ofProgram tree with
  | .ok statements => [.event (.read statements.length)]
  | .error e => if tree.kind = .program then [.event (.unreadable e.message)] else []

def assembling (p : Program) : List Entry :=
  [.event (.assembled p.statements.length p.displays)]

def readingProgram (tree : Node) : List Entry :=
  reading tree ++
    match Stmt.ofProgram tree with
    | .ok statements => assembling (.assemble statements)
    | .error _ => []

/-- The entries of scanning: none if the text cannot be cut into tokens. -/
def scanning (source : String) : List Entry :=
  let tokens := scan source
  if tokens.errors.isEmpty then [.event (.scanned tokens.tokens.length)] else []

/-- The entries of compiling a source text. -/
def compiling (file source : String) (limit : Nat) : List Entry :=
  .start (.compile file source.utf8ByteSize) :: scanning source ++
    match Node.parse source limit with
    | .error errors => [.event (.malformed errors.length)]
    | .ok tree => .event (.parsed tree.size) :: readingProgram tree

/-- The entries of an execution that ended like this. -/
def executing (p : Program) (e : Execution W) : List Entry :=
  .start (.execute p.statements.length) ::
    match e.failure, e.steps with
    | some (.rejected mistakes), _ => [.event (.rejected mistakes.length)]
    | _, some steps => [.event (.finished steps)]
    | _, none => []

/-- The entry of a failed execution. -/
def failing (e : Execution W) : List Entry :=
  match e.failure with
  | some failure => [.event (.failed failure.diagnostics.length)]
  | none => []

/-- The entries of compiling a source text and executing it on a machine. -/
def running (settings : Settings) (patience : Nat) (sink : Sink W) (file source : String)
    (limit : Nat) : List Entry :=
  .start (.run file) :: compiling file source limit ++
    match compile source limit with
    | .error _ => []
    | .ok p =>
      let e := execute settings patience p sink
      executing p e ++ failing e

end Trace

end SimpleLang
