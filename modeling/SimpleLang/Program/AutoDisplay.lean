import SimpleLang.Program

/-!
# Showing the last value

A program shows the value that it ends with. `Program.assemble` makes that explicit: an expression
statement at a tail of the program becomes a display statement. The tails are the last statement,
and through a conditional at a tail the last statements of both of its branches. Blocks are
entered only below such a conditional, and functions never.

A program that consists of a single block stands for what is in the block.
-/

namespace SimpleLang

/-- How a tail of a program is reached. -/
inductive Tail where
  /-- As the last statement of the program. -/
  | program
  /-- Through a branch of a conditional. -/
  | branch
deriving DecidableEq, Repr

mutual
/-- Makes a statement at a tail show the value it ends with. A block is entered only below a
conditional, so `tail` tells where the statement stands. -/
def Stmt.showing (tail : Tail) : Stmt → Stmt
  | .expr e => .display e
  | .cond test yes none => .cond test (yes.showing .branch) none
  | .cond test yes (some no) => .cond test (yes.showing .branch) (some (no.showing .branch))
  | .block statements =>
    match tail with
    | .program => .block statements
    | .branch => .block (Stmt.showingLast .branch statements)
  | s => s
def Stmt.showingLast (tail : Tail) : List Stmt → List Stmt
  | [] => []
  | [s] => [s.showing tail]
  | s :: rest => s :: Stmt.showingLast tail rest
end

mutual
/-- Whether every way through the statement ends with a display statement. -/
def Stmt.endsInDisplay : Stmt → Bool
  | .cond _ yes (some no) => yes.endsInDisplay && no.endsInDisplay
  | .block statements => Stmt.lastEndsInDisplay statements
  | s => s.displayed?.isSome
/-- Whether there is a last statement and it ends with a display statement. -/
def Stmt.lastEndsInDisplay : List Stmt → Bool
  | [] => false
  | [s] => s.endsInDisplay
  | _ :: rest => Stmt.lastEndsInDisplay rest
end

namespace Program

/-- The statements that a list of them stands for: a single block for those in the block. -/
def body : List Stmt → List Stmt
  | [.block statements] => statements
  | statements => statements

/-- The program that runs the statements and shows the value they end with. That of a single block
is taken out of its braces first, so its last statement is at a tail too. -/
def assemble (statements : List Stmt) : Program :=
  ⟨Stmt.showingLast .program (body statements)⟩

/-- Whether the program ends with a display statement on every way. -/
def displays (p : Program) : Bool := Stmt.lastEndsInDisplay p.statements

end Program

end SimpleLang
