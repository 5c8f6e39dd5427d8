import SimpleLang.Diagnostic
import SimpleLang.Program.Printer

/-!
# Checks before a run

Two mistakes are found before a program runs: parameters of the same name, and calls of something
that can never be a function. Everything found is reported, in the order of the program, and a
program with any finding is not run.
-/

namespace SimpleLang

/-- What an expression is that can never be called. -/
inductive Uncallable where
  | integer | float | string | boolean | array | result
deriving DecidableEq, Repr

def Uncallable.label : Uncallable → String
  | integer => "an integer literal"
  | float => "a float literal"
  | string => "a string literal"
  | boolean => "a boolean literal"
  | array => "an array literal"
  | result => "an operator result"

/-- What the expression is, if it can never be a function. A name or a call may give one, so it
takes a run to tell. -/
def Expr.uncallable? : Expr → Option Uncallable
  | .int _ => some .integer
  | .float _ => some .float
  | .string _ => some .string
  | .bool _ => some .boolean
  | .array _ => some .array
  | .binary .. | .unary .. => some .result
  | .name _ | .call .. | .lambda .. => none

inductive CheckError where
  /-- A parameter whose name an earlier one has; `owner` is the function, or none for a lambda. -/
  | duplicateParameter (parameter : String) (owner : Option String)
  /-- A call of something that can never be a function. -/
  | uncallable (kind : Uncallable) (callee : Expr)

namespace CheckError

def message : CheckError → String
  | duplicateParameter p (some f) => "duplicate parameter '" ++ p ++ "' in function '" ++ f ++ "'"
  | duplicateParameter p none => "duplicate parameter '" ++ p ++ "' in lambda"
  | uncallable kind callee => "cannot call " ++ kind.label ++ " `" ++ callee.text 0 ++ "`"

def help : CheckError → Option String
  | duplicateParameter .. => none
  | uncallable .. => some "only functions, lambdas, and builtins can be called"

/-- The mistake as a diagnostic. A program can also be built without a source, so there is no place
to point at. -/
def diagnostic (e : CheckError) : Diagnostic :=
  { Diagnostic.error e.message .nowhere with help := e.help }

end CheckError

/-- The names that occur earlier in the list or among those seen before it, each time again. -/
def repeated (seen : List String) : List String → List String
  | [] => []
  | x :: rest => if x ∈ seen then x :: repeated seen rest else repeated (x :: seen) rest

def checkParameters (owner : Option String) (parameters : List String) : List CheckError :=
  (repeated [] parameters).map (.duplicateParameter · owner)

mutual
/-- The mistakes in an expression, in the order in which they stand there. -/
def Expr.check : Expr → List CheckError
  | .int _ | .float _ | .string _ | .bool _ | .name _ => []
  | .binary _ l r => l.check ++ r.check
  | .unary _ e => e.check
  | .call f args =>
    (f.uncallable?.map (CheckError.uncallable · f)).toList ++ f.check ++ Expr.checkAll args
  | .array elements => Expr.checkAll elements
  | .lambda parameters body => checkParameters none parameters ++ body.check
def Expr.checkAll : List Expr → List CheckError
  | [] => []
  | e :: rest => e.check ++ Expr.checkAll rest
def Body.check : Body → List CheckError
  | .block statements => Stmt.checkAll statements
  | .value e => e.check
def Stmt.check : Stmt → List CheckError
  | .declare _ none | .ret none => []
  | .declare _ (some e) | .ret (some e) => e.check
  | .assign _ e | .expr e => e.check
  | .cond test yes none => test.check ++ yes.check
  | .cond test yes (some no) => test.check ++ yes.check ++ no.check
  | .loop test body => test.check ++ body.check
  | .block statements => Stmt.checkAll statements
  | .function f parameters body => checkParameters (some f) parameters ++ body.check
def Stmt.checkAll : List Stmt → List CheckError
  | [] => []
  | s :: rest => s.check ++ Stmt.checkAll rest
end

def Program.check (p : Program) : List CheckError := Stmt.checkAll p.statements

end SimpleLang
