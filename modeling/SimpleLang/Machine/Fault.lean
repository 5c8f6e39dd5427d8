import SimpleLang.Diagnostic
import SimpleLang.Value

/-!
# Faults

Why a run fails. `Fault.message` and `Fault.help` put the causes into words.
-/

namespace SimpleLang

/-- The statements that ask for a truth value. -/
inductive Question where
  | conditional | loop
deriving DecidableEq, Repr

def Question.keyword : Question → String
  | conditional => "if"
  | loop => "while"

/-- The cause of a failed run, with all that its message needs. -/
inductive Fault where
  | stepLimit (limit : Nat)
  | callDepth (limit : Nat) (callee : String)
  | undefinedName (name : String)
  | undeclaredTarget (name : String)
  /-- A condition that is neither true nor false; `shown` is its text. -/
  | notACondition (question : Question) (found : ValueType) (shown : String)
  /-- An operand of a logical operation between two operands that is neither true nor false. -/
  | notLogical (op : Operation) (found : ValueType)
  /-- An operand that the operation before it does not take. -/
  | notNegatable (op : Operation) (found : ValueType)
  | notCallable (found : ValueType)
  | displayArity (given : Nat)
  | arity (callee : String) (wanted given : Nat)
  | mismatch (op : Operation) (left right : ValueType)
  /-- An operation that integers do not have. -/
  | notOnIntegers (op : Operation)
  | divisionByZero (op : Operation) (left right : Int)
  | overflow (op : Operation) (left right : Int)
  /-- The sink did not take a line. -/
  | notWritten (reason : String)
  /-- The sink could not be flushed. -/
  | notFlushed (reason : String)
deriving DecidableEq, Repr

namespace Fault

/-- An operation on two integers, as a message cites it. -/
def cited (op : Operation) (left right : Int) : String :=
  "`" ++ toString left ++ " " ++ op.spelling ++ " " ++ toString right ++ "`"

def message : Fault → String
  | stepLimit limit => "step limit of " ++ toString limit ++ " exceeded"
  | callDepth limit callee =>
    "call depth limit of " ++ toString limit ++ " exceeded in '" ++ callee ++ "'"
  | undefinedName x => "undefined variable '" ++ x ++ "'"
  | undeclaredTarget x => "assignment to undeclared variable '" ++ x ++ "'"
  | notACondition q found shown =>
    q.keyword ++ " condition must be a bool, found " ++ found.name ++ " `" ++ shown ++ "`"
  | notLogical op found =>
    "operator '" ++ op.spelling ++ "' expects bool operands, found " ++ found.name
  | notNegatable op found => "operator '" ++ op.spelling ++ "' expects a bool, found " ++ found.name
  | notCallable found => "cannot call a value of type " ++ found.name
  | displayArity given =>
    "'" ++ Stmt.displayName ++ "' expects 1 argument, got " ++ toString given
  | arity callee wanted given =>
    "'" ++ callee ++ "' expects " ++ toString wanted ++ " argument(s), got " ++ toString given
  | mismatch op left right =>
    "operator '" ++ op.spelling ++ "' cannot be applied to " ++ left.name ++ " and " ++ right.name
  | notOnIntegers op => "operator '" ++ op.spelling ++ "' cannot be applied to int"
  | divisionByZero op left right =>
    (if op = .div then "division" else "modulo") ++ " by zero: " ++ cited op left right
  | overflow op left right => "integer overflow: " ++ cited op left right
  | notWritten reason => "failed to write output: " ++ reason
  | notFlushed reason => "failed to flush output: " ++ reason

def help : Fault → Option String
  | stepLimit _ => some "the program may loop forever; raise `max_steps` if it does not"
  | callDepth .. => some "check for unbounded recursion"
  | undeclaredTarget x => some ("declare it first with `let " ++ x ++ " = ...;`")
  | _ => none

/-- The fault as a diagnostic. A program can also be built without a source, so there is no place to
point at. -/
def diagnostic (f : Fault) : Diagnostic :=
  { Diagnostic.error f.message .nowhere with help := f.help }

end Fault

end SimpleLang
