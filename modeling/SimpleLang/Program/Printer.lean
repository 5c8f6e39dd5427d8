import SimpleLang.Number.Shortest
import SimpleLang.Program

/-!
# Writing programs

Programs are written as the source of their entry point, with four blanks for each level of
nesting. Parentheses stand only where the grammar would otherwise group the parts in another way.

A statement's first line is not indented: whoever writes it has done that already. The level of an
expression matters only for lambdas whose body is a block.
-/

namespace SimpleLang

namespace Expr

def parenthesized (needed : Bool) (text : String) : String :=
  if needed then "(" ++ text ++ ")" else text

/-- Whether an operand of `parent` takes parentheses: if it binds less tightly, or as tightly on
the right, because chains group to the left; and lambdas always, because they extend to the right
as far as they can. -/
def needsParensIn (parent : Operation) (onRight : Bool) : Expr → Bool
  | .binary op _ _ =>
    op.precedence < parent.precedence || (onRight && op.precedence == parent.precedence)
  | .lambda .. => true
  | _ => false

/-- Whether an expression takes parentheses behind a sign or before arguments. That of a sign behind
a sign is not needed by the grammar. -/
def needsParens : Expr → Bool
  | .binary .. | .unary .. | .lambda .. => true
  | _ => false

end Expr

def indent (level : Nat) : String := String.ofList (List.replicate (4 * level) ' ')

def commaSeparated (parts : List String) : String := ", ".intercalate parts

/-- Lines in braces, of which the closing one stands at the given level. There are no lines
exactly if their text is empty. -/
def braced (level : Nat) (lines : String) : String :=
  if lines = "" then "\x7b\x7d" else "\x7b\n" ++ lines ++ indent level ++ "\x7d"

def functionHead (name : String) (parameters : List String) : String :=
  "fn " ++ name ++ "(" ++ commaSeparated parameters ++ ") "

def lambdaHead (parameters : List String) : String :=
  "(" ++ commaSeparated parameters ++ ") => "

mutual
def Expr.text (level : Nat) : Expr → String
  | .int n => toString n.toInt
  | .float x => Shortest.text x
  | .string s => "\"" ++ s ++ "\""
  | .bool b => if b then "true" else "false"
  | .name x => x
  | .binary op l r =>
    Expr.parenthesized (l.needsParensIn op false) (l.text level) ++ " " ++ op.spelling ++ " "
      ++ Expr.parenthesized (r.needsParensIn op true) (r.text level)
  | .unary op e => op.spelling ++ Expr.parenthesized e.needsParens (e.text level)
  | .call f args =>
    Expr.parenthesized f.needsParens (f.text level) ++ "(" ++ commaSeparated (Expr.texts level args)
      ++ ")"
  | .array elements => "[" ++ commaSeparated (Expr.texts level elements) ++ "]"
  | .lambda parameters (.block statements) =>
    lambdaHead parameters ++ braced level (Stmt.lines (level + 1) statements)
  | .lambda parameters (.value e) => lambdaHead parameters ++ e.text level
def Expr.texts (level : Nat) : List Expr → List String
  | [] => []
  | e :: rest => e.text level :: Expr.texts level rest
def Stmt.text (level : Nat) : Stmt → String
  | .declare x none => "let " ++ x ++ ";"
  | .declare x (some e) => "let " ++ x ++ " = " ++ e.text level ++ ";"
  | .assign x e => x ++ " = " ++ e.text level ++ ";"
  | .expr e => e.text level ++ ";"
  | .ret none => "return;"
  | .ret (some e) => "return " ++ e.text level ++ ";"
  | .cond test yes none => "if (" ++ test.text level ++ ") " ++ yes.text level
  | .cond test yes (some no) =>
    "if (" ++ test.text level ++ ") " ++ yes.text level ++ " else " ++ no.text level
  | .loop test body => "while (" ++ test.text level ++ ") " ++ body.text level
  | .block statements => braced level (Stmt.lines (level + 1) statements)
  | .function f parameters (.block statements) =>
    functionHead f parameters ++ braced level (Stmt.lines (level + 1) statements)
  | .function f parameters (.value e) =>
    functionHead f parameters ++ "=> " ++ e.text level ++ ";"
def Stmt.lines (level : Nat) : List Stmt → String
  | [] => ""
  | s :: rest => indent level ++ s.text level ++ "\n" ++ Stmt.lines level rest
end

/-- Writes a program as the function that is its entry point. -/
def Program.text (p : Program) : String :=
  "fn " ++ Program.entryPoint ++ "() \x7b\n" ++ Stmt.lines 1 p.statements ++ "\x7d\n"

end SimpleLang
