import SimpleLang.Diagnostic
import SimpleLang.Number.Decimal
import SimpleLang.Program
import SimpleLang.Tree

/-!
# From trees to programs

Reads the abstract syntax off a parse tree, one that the parser built or any other. A node is
recognized by its kind and its children; a node that fits no rule is an error, and the first error
ends the reading. What is inside a function is reported as a failure of the function.

* `Expr.ofNode` reads an expression. Nodes with a single child and parentheses leave no trace, but
  an error names the node that the reading started from.
* `Stmt.ofNode` reads a statement, `Stmt.ofBlock` those of a block.
* `Stmt.ofProgram` reads the statements of a whole program.
-/

namespace SimpleLang

inductive LiteralKind where
  | integer | float | string
deriving DecidableEq, Repr

def LiteralKind.label : LiteralKind → String
  | integer => "integer"
  | float => "float"
  | string => "string"

/-- Why a tree is no program. Each cause has the range of the node that it is about. -/
inductive TreeError where
  | operator (spelling : String) (span : Span)
  | expression (text : String) (span : Span)
  | statement (text : String) (span : Span)
  | literal (kind : LiteralKind) (text : String) (span : Span)
  /-- A failure inside a function. -/
  | function (name : String) (span : Span) (cause : TreeError)
deriving DecidableEq, Repr

namespace TreeError

def span : TreeError → Span
  | operator _ s | expression _ s | statement _ s | literal _ _ s | function _ s _ => s

/-- The cause inside all functions. -/
def rootCause : TreeError → TreeError
  | function _ _ cause => cause.rootCause
  | e => e

def message : TreeError → String
  | operator spelling _ => "unsupported operator '" ++ spelling ++ "'"
  | expression text _ => "unsupported expression: `" ++ text ++ "`"
  | statement text _ => "unsupported statement: `" ++ text ++ "`"
  | literal kind text _ => "invalid " ++ kind.label ++ " literal `" ++ text ++ "`"
  | function name _ _ => "failed to lower function '" ++ name ++ "'"

/-- The error as a diagnostic. A failure of a function points at its root cause. -/
def diagnostic : TreeError → Diagnostic
  | e@(function _ _ cause) =>
    (Diagnostic.error e.message cause.rootCause.span).withNote
      ("caused by: " ++ cause.rootCause.message)
  | e@(operator _ s) =>
    (Diagnostic.error e.message s).withHelp
      "supported operators are + - * / % < > <= >= == != && || !"
  | e => Diagnostic.error e.message e.span

def noExpression (n : Node) : TreeError := expression n.text n.span

def noStatement (n : Node) : TreeError := statement n.text n.span

end TreeError

/-! ## Operators, literals and names -/

namespace Operation

def read (spelling : String) (span : Span) : Except TreeError Operation :=
  match ofSpelling? spelling with
  | some op => .ok op
  | none => .error (.operator spelling span)

/-- The operation of a leaf between two operands. The spelling `!` is one of the language, but not
there. -/
def ofBinaryNode (n : Node) : Except TreeError Operation := do
  let op ← read n.text n.span
  if op.isUnary then throw (.operator n.text n.span) else return op

def ofUnaryNode (n : Node) : Except TreeError Operation := do
  let op ← read n.text n.span
  if op.isUnary then return op else throw (.operator n.text n.span)

end Operation

namespace Node

/-- The text without its first and its last character. -/
def unquoted? (text : String) : Option String :=
  match text.toList with
  | _ :: b :: rest => some (String.ofList (b :: rest).dropLast)
  | _ => none

def literal (kind : LiteralKind) (n : Node) (read : Option Expr) : Except TreeError Expr :=
  match read with
  | some e => .ok e
  | none => .error (.literal kind n.text n.span)

/-- The expression that a leaf stands for; `outer` is the node that an error names if the leaf is
no operand. -/
def operandLeaf (outer : Node) (kind : TokenKind) (n : Node) : Except TreeError Expr :=
  match kind with
  | .integer => literal .integer n ((Integer.read? n.text).map .int)
  | .float => literal .float n ((Decimal.read? n.text).map .float)
  | .string => literal .string n ((unquoted? n.text).map .string)
  | .boolean => .ok (.bool (n.text == "true"))
  | .name => .ok (.name n.text)
  | .operator | .keyword | .punctuation => .error (.noExpression outer)

def isOperand (n : Node) : Bool := n.kind == .expression || n.kind == .primary

/-- The names of the first parameter list among some nodes. -/
def parameterNames (nodes : List Node) : List String :=
  match nodes.find? (·.kind == .parameters) with
  | some list => (list.childrenOf (.token .name)).map Node.text
  | none => []

/-- The first name among some nodes. -/
def firstName? (nodes : List Node) : Option String :=
  (nodes.find? (·.kind == .token .name)).map Node.text

/-- The kinds of node that a statement can carry, in the order in which they are looked for. -/
def statementKinds : List NodeKind :=
  [.declaration, .assignment, .function, .returning, .conditional, .loop, .expression, .block]

end Node

/-- The name of a function definition that has none. -/
def unnamedFunction : String := "unnamed"

/-- The name that a node declares or assigns to. -/
def Node.target (n : Node) : Except TreeError String :=
  match Node.firstName? n.children with
  | some x => .ok x
  | none => .error (.noStatement n)

/-! ## Putting parts together

The parts of a node are read first, each with its own outcome, and then put together. Only the
outcomes that are asked for matter. -/

namespace TreeError

/-- The first part, which `n` cannot be a statement without. -/
def required {α : Type} (n : Node) (parts : List (Except TreeError α)) : Except TreeError α :=
  parts.headD (.error (.noStatement n))

/-- The first part, if there is one. -/
def optional {α : Type} : List (Except TreeError α) → Except TreeError (Option α)
  | [] => .ok none
  | part :: _ => part.map some

/-- All parts, or the first error among them. -/
def all {α : Type} : List (Except TreeError α) → Except TreeError (List α)
  | [] => .ok []
  | part :: rest => do
    let first ← part
    return first :: (← all rest)

end TreeError

/-- The body of a function: a block that returns the expression behind an arrow, else the block
that is written, else an empty one. -/
def Body.ofFunction (arrow : Bool) (values : List (Except TreeError Expr))
    (blocks : List (Except TreeError (List Stmt))) : Except TreeError Body :=
  match arrow, values, blocks with
  | true, first :: _, _ => first.map fun e => .block [.ret (some e)]
  | _, _, first :: _ => first.map .block
  | _, _, [] => .ok (.block [])

/-- The body of a lambda: a block or an expression. -/
def Body.ofLambda (n : Node) (values : List (Except TreeError Expr))
    (blocks : List (Except TreeError (List Stmt))) : Except TreeError Body :=
  match blocks, values with
  | first :: _, _ => first.map .block
  | [], first :: _ => first.map .value
  | [], [] => .error (.noExpression n)

/-! ## Expressions and statements -/

mutual
/-- Reads an expression off a node. An error that the node is none names `outer`, which is where the
reading of nodes with a single child started. -/
def Expr.within (outer : Node) : Node → Except TreeError Expr
  | n@⟨.token kind, _, _, _, _⟩ => Node.operandLeaf outer kind n
  | ⟨.array, _, _, _, elements⟩ => do
    return .array (← TreeError.all (Expr.each elements))
  | n@⟨.lambda, _, _, _, parts⟩ => do
    let body ← Body.ofLambda n (Expr.each parts) (Stmt.eachBlock parts)
    return .lambda (Node.parameterNames parts) body
  | ⟨.primary, _, _, _, [only]⟩ => Expr.within outer only
  | ⟨.expression, _, _, _, [only]⟩ => Expr.within outer only
  | ⟨.expression, _, _, _, [first, second]⟩ =>
    if first.kind.isToken && second.isOperand then do
      let op ← Operation.ofUnaryNode first
      return .unary op (← Expr.within second second)
    else .error (.noExpression outer)
  | ⟨.expression, _, _, _, [first, second, third]⟩ =>
    if first.isToken "(" && third.isToken ")" then Expr.within second second
    else if second.kind.isToken && first.isOperand && third.isOperand then do
      let op ← Operation.ofBinaryNode second
      let left ← Expr.within first first
      let right ← Expr.within third third
      return .binary op left right
    else .error (.noExpression outer)
  | ⟨.expression, _, _, _, [first, second, third, fourth]⟩ =>
    if second.isToken "(" && third.kind == .arguments && fourth.isToken ")" then do
      let callee ← Expr.within first first
      return .call callee (← TreeError.all (Expr.each third.children))
    else .error (.noExpression outer)
  | _ => .error (.noExpression outer)
termination_by n => 5 * n.size
decreasing_by all_goals (simp only [Node.size_eq, Node.sizeList]; omega)

def Expr.each : List Node → List (Except TreeError Expr)
  | [] => []
  | n :: rest =>
    if n.kind == .expression then Expr.within n n :: Expr.each rest else Expr.each rest
termination_by nodes => 5 * Node.sizeList nodes + 1
decreasing_by all_goals (simp only [Node.size_eq, Node.sizeList]; omega)

/-- Reads a statement off a node that is one, or that carries one. -/
def Stmt.ofNode : Node → Except TreeError Stmt
  | n@⟨.statement, _, _, _, parts⟩ =>
    match Node.statementKinds.findSome? (fun kind => Stmt.ofKind? kind parts) with
    | some result => result
    | none => .error (.noStatement n)
  | n@⟨.declaration, _, _, _, parts⟩ => do
    let x ← n.target
    return .declare x (← TreeError.optional (Expr.each parts))
  | n@⟨.assignment, _, _, _, parts⟩ => do
    let x ← n.target
    return .assign x (← TreeError.required n (Expr.each parts))
  | ⟨.function, _, span, arrow, parts⟩ =>
    let f := (Node.firstName? parts).getD unnamedFunction
    match Body.ofFunction arrow (Expr.each parts) (Stmt.eachBlock parts) with
    | .ok body => .ok (.function f (Node.parameterNames parts) body)
    | .error cause => .error (.function f span cause)
  | ⟨.returning, _, _, _, parts⟩ => do
    return .ret (← TreeError.optional (Expr.each parts))
  | n@⟨.conditional, _, _, _, parts⟩ => do
    let test ← TreeError.required n (Expr.each parts)
    let branches := Stmt.each parts
    let yes ← TreeError.required n branches
    return .cond test yes (← TreeError.optional branches.tail)
  | n@⟨.loop, _, _, _, parts⟩ => do
    let test ← TreeError.required n (Expr.each parts)
    return .loop test (← TreeError.required n (Stmt.each parts))
  | ⟨.expression, text, span, arrow, parts⟩ =>
    let n : Node := ⟨.expression, text, span, arrow, parts⟩
    (Expr.within n n).map .expr
  | ⟨.block, _, _, _, parts⟩ => do
    return .block (← TreeError.all (Stmt.each parts))
  | n => .error (.noStatement n)
termination_by n => 5 * n.size + 2
decreasing_by all_goals (simp only [Node.size_eq]; omega)

def Stmt.ofKind? (kind : NodeKind) : List Node → Option (Except TreeError Stmt)
  | [] => none
  | n :: rest => if n.kind == kind then some (Stmt.ofNode n) else Stmt.ofKind? kind rest
termination_by nodes => 5 * Node.sizeList nodes + 3
decreasing_by all_goals (simp only [Node.size_eq, Node.sizeList]; omega)

def Stmt.each : List Node → List (Except TreeError Stmt)
  | [] => []
  | n :: rest => if n.kind == .statement then Stmt.ofNode n :: Stmt.each rest else Stmt.each rest
termination_by nodes => 5 * Node.sizeList nodes + 3
decreasing_by all_goals (simp only [Node.size_eq, Node.sizeList]; omega)

def Stmt.eachBlock : List Node → List (Except TreeError (List Stmt))
  | [] => []
  | n :: rest =>
    if n.kind == .block then TreeError.all (Stmt.each n.children) :: Stmt.eachBlock rest
    else Stmt.eachBlock rest
termination_by nodes => 5 * Node.sizeList nodes + 4
decreasing_by all_goals (simp only [Node.size_eq, Node.sizeList]; omega)
end

def Expr.ofNode (n : Node) : Except TreeError Expr := Expr.within n n

def Stmt.ofBlock (n : Node) : Except TreeError (List Stmt) := TreeError.all (Stmt.each n.children)

/-- Reads the statements of a program, in order. -/
def Stmt.ofProgram (n : Node) : Except TreeError (List Stmt) :=
  if n.kind = .program then Stmt.ofBlock n else .error (.noStatement n)

end SimpleLang
