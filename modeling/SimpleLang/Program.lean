import SimpleLang.Operation

/-!
# Programs

Abstract syntax: expressions, statements, and the bodies of functions and lambdas. A `Program` is a
list of statements that stands for the body of the entry point.

Two programs are compared with `==` part by part, and their float literals by the rules of
floating point: a literal that is no number differs from itself, and the two zeros are equal.
-/

namespace SimpleLang

mutual
/-- An expression. -/
inductive Expr where
  | int (value : Int64)
  | float (value : Float)
  /-- A string, without the quotes around it. -/
  | string (value : String)
  | bool (value : Bool)
  | name (name : String)
  | binary (op : Operation) (left right : Expr)
  | unary (op : Operation) (operand : Expr)
  | call (callee : Expr) (arguments : List Expr)
  | array (elements : List Expr)
  | lambda (parameters : List String) (body : Body)

/-- The body of a function or a lambda. -/
inductive Body where
  | block (statements : List Stmt)
  | value (result : Expr)

/-- A statement. -/
inductive Stmt where
  /-- A new variable, with or without a value. -/
  | declare (name : String) (value : Option Expr)
  | assign (name : String) (value : Expr)
  | expr (value : Expr)
  | ret (value : Option Expr)
  | cond (test : Expr) (yes : Stmt) (no : Option Stmt)
  | loop (test : Expr) (body : Stmt)
  | block (statements : List Stmt)
  | function (name : String) (parameters : List String) (body : Body)
end

/-! ## Comparing syntax -/

mutual
/-- Whether two expressions are equal. Floats are compared with `==`, so this is not reflexive. -/
def Expr.same : Expr → Expr → Bool
  | .int a, .int b => a == b
  | .float a, .float b => a == b
  | .string a, .string b => a == b
  | .bool a, .bool b => a == b
  | .name a, .name b => a == b
  | .binary op l r, .binary op' l' r' => op == op' && l.same l' && r.same r'
  | .unary op e, .unary op' e' => op == op' && e.same e'
  | .call f as, .call f' as' => f.same f' && Expr.sameList as as'
  | .array es, .array es' => Expr.sameList es es'
  | .lambda ps b, .lambda ps' b' => ps == ps' && b.same b'
  | _, _ => false
def Expr.sameList : List Expr → List Expr → Bool
  | [], [] => true
  | e :: es, e' :: es' => e.same e' && Expr.sameList es es'
  | _, _ => false
def Body.same : Body → Body → Bool
  | .block ss, .block ss' => Stmt.sameList ss ss'
  | .value e, .value e' => e.same e'
  | _, _ => false
def Stmt.same : Stmt → Stmt → Bool
  | .declare x none, .declare x' none => x == x'
  | .declare x (some e), .declare x' (some e') => x == x' && e.same e'
  | .assign x e, .assign x' e' => x == x' && e.same e'
  | .expr e, .expr e' => e.same e'
  | .ret none, .ret none => true
  | .ret (some e), .ret (some e') => e.same e'
  | .cond c y none, .cond c' y' none => c.same c' && y.same y'
  | .cond c y (some n), .cond c' y' (some n') => c.same c' && y.same y' && n.same n'
  | .loop c b, .loop c' b' => c.same c' && b.same b'
  | .block ss, .block ss' => Stmt.sameList ss ss'
  | .function f ps b, .function f' ps' b' => f == f' && ps == ps' && b.same b'
  | _, _ => false
def Stmt.sameList : List Stmt → List Stmt → Bool
  | [], [] => true
  | s :: ss, s' :: ss' => s.same s' && Stmt.sameList ss ss'
  | _, _ => false
end

/-! ## Display statements -/

namespace Stmt

/-- The name of the builtin that shows a value. -/
def displayName : String := "display"

/-- The statement that shows a value. -/
def display (value : Expr) : Stmt := .expr (.call (.name displayName) [value])

/-- The value that the statement shows, if that is all it does. The callee is told by its name: a
program can bind `display` to something else. -/
def displayed? : Stmt → Option Expr
  | .expr (.call (.name f) [value]) => if f = displayName then some value else none
  | _ => none

end Stmt

/-! ## Whole programs -/

/-- A program: the statements of its entry point. -/
structure Program where
  statements : List Stmt

namespace Program

/-- The name of the entry point. -/
def entryPoint : String := "main"

instance : BEq Program := ⟨fun p q => Stmt.sameList p.statements q.statements⟩

end Program

end SimpleLang
