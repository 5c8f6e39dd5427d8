import SimpleLang.Tree
import SimpleLang.Tree.Routine

/-!
# Parsing

A recursive-descent parser from tokens to parse trees. It collects every error it meets, and a
text with any error has no tree. After a malformed statement it resumes behind the next semicolon.

Statements and expressions may be nested only to a given depth, which the parser counts while it
goes: a statement, an expression and an exclamation mark are each a level, and so are the operators
of a chain `a + b + c` and the calls of a chain `f(a)(b)`, because each of them buries what stands
to its left one level deeper. The levels of a chain are left all at once, at its end. Where a level
is refused that is reported, and from then on nothing else is: the rules come to their ends without
going deeper, and the loops over statements are left.

Operators are parsed by their binding powers (`Routine.bindingPower`).
-/

namespace SimpleLang

namespace Routine

/-! ## Basic steps -/

def peek : Routine Lexeme := do
  return (← Action.current).lexeme

/-- The lexeme some places behind the cursor, or the last one. -/
def peekAt (offset : Nat) : Routine Lexeme := do
  return (← Action.ahead offset).lexeme

def isAt (l : Lexeme) : Routine Bool := do
  return (← peek) == l

/-- An inner node without children, at the cursor. -/
def missing (source : String) (kind : NodeKind) : Routine Node := do
  return .covering source kind (.empty (← Action.current).span.start) []

/-- An inner node. It covers its children, and without children the empty range at the cursor. -/
def node (source : String) (kind : NodeKind) (children : List Node) : Routine Node :=
  match Span.cover? (children.map Node.span) with
  | some span => return .covering source kind span children
  | none => missing source kind

/-- Takes the token at the cursor as a leaf. -/
def bump (source : String) : Routine Node := do
  let token ← Action.advance
  return .covering source (.token (.ofLexeme token.lexeme)) token.span []

/-- Takes a certain symbol, or reports that it is not there. In the latter case the cursor stays,
and the rule goes on as if the symbol stood there. -/
def expect (source : String) (wanted : Symbol) : Routine (List Node) := do
  if ← isAt (.symbol wanted) then
    return [← bump source]
  else
    Action.report (.expectedSymbol wanted (← peek))
    return []

def expectName (source : String) : Routine (List Node) := do
  match ← peek with
  | .ident _ => return [← bump source]
  | found =>
    Action.report (.expectedName found)
    return []

/-! ## What the rules share -/

/-- The rules that other rules come back to. Each of them begins by entering a level. -/
inductive Rule where
  | statement
  /-- An expression whose operators have at least the left binding power `minimum`. -/
  | expression (minimum : Nat)
  /-- An exclamation mark and its operand. -/
  | negation
deriving DecidableEq, Repr

/-- What the rules have at hand: the source, for the text of nodes, a bound for the rounds of their
loops, and the rules they come back to. That `nested` is a field lets a rule be defined without
recursion; `rule` ties the knot. -/
structure Context where
  source : String
  bound : Nat
  nested : Rule → Routine Node

variable (c : Context)

def expression : Routine Node := c.nested (.expression 0)

/-- One step of `furtherItems`: a comma and an item, behind the items so far. -/
def itemRound (item : Routine (List Node)) (items : List Node) :
    Routine (ForInStep (List Node)) := do
  if ← isAt (.symbol .comma) then
    let comma ← bump c.source
    return .yield (items ++ comma :: (← item))
  else
    return .done items

/-- Further items, each behind a comma. -/
def furtherItems (item : Routine (List Node)) (items : List Node) : Routine (List Node) :=
  rounds (itemRound c item) c.bound items

/-! ## Recovery -/

/-- One step of `synchronize`: to where a statement can start again, or over a token. -/
def skipRound (_ : Unit) : Routine (ForInStep Unit) := do
  if (← isAt .eof) || (← isAt (.symbol .rightBrace)) then
    return .done ()
  else if ← isAt (.symbol .semicolon) then
    let _ ← Action.advance
    return .done ()
  else
    let _ ← Action.advance
    return .yield ()

/-- Moves to where a statement can start again: behind the next semicolon, or before the next
closing brace or the end. Just behind a semicolon or a closing brace one can. -/
def synchronize : Routine Unit := do
  match (← Action.previous).map Token.lexeme with
  | some (.symbol .semicolon) | some (.symbol .rightBrace) => return ()
  | _ => rounds skipRound c.bound ()

/-- Synchronizes if there are more errors than before, unless a level was refused. -/
def recover (errorCount : Nat) : Routine Unit := do
  if errorCount < (← Action.errorCount) && !(← Action.overflowed) then
    synchronize c

/-- Moves the cursor on if it is where it was before, unless it is at the end. -/
def moveOn (position : Nat) : Routine Unit := do
  if position == (← Action.position) && !(← isAt .eof) then
    let _ ← Action.advance

/-- A statement. If it is malformed the cursor moves to where the next one can start, and in any
case it moves on. -/
def guardedStatement : Routine Node := do
  let position ← Action.position
  let errorCount ← Action.errorCount
  let result ← c.nested .statement
  recover c errorCount
  moveOn position
  return result

/-- One step of `guardedStatements`: a statement behind the statements so far. -/
def statementRound (ends : Routine Bool) (statements : List Node) :
    Routine (ForInStep (List Node)) := do
  if ← ends then
    return .done statements
  else
    let next ← guardedStatement c
    if ← Action.overflowed then
      return .done (statements ++ [next])
    else
      return .yield (statements ++ [next])

/-- Statements up to where `ends` says there are no more. After an overflow there are none. -/
def guardedStatements (ends : Routine Bool) : Routine (List Node) :=
  rounds (statementRound c ends) c.bound []

/-! ## Statements -/

/-- Whether a block can have no more statements. -/
def atBlockEnd : Routine Bool := do
  return (← isAt (.symbol .rightBrace)) || (← isAt .eof)

def block : Routine Node := do
  let opening ← expect c.source .leftBrace
  let body ← guardedStatements c atBlockEnd
  let closing ← expect c.source .rightBrace
  node c.source .block (opening ++ body ++ closing)

/-- Names with commas between them. -/
def parameters : Routine Node := do
  let first ← expectName c.source
  node c.source .parameters (← furtherItems c (expectName c.source) first)

/-- The parameters before a closing parenthesis, which may be missing. -/
def parametersUnlessClosed : Routine (List Node) := do
  if ← isAt (.symbol .rightParen) then return [] else return [← parameters c]

/-- Expressions with commas between them, none if the closing symbol follows at once. -/
def expressionsUnless (closing : Symbol) : Routine (List Node) := do
  if ← isAt (.symbol closing) then
    return []
  else
    let first ← expression c
    furtherItems c (do return [← expression c]) [first]

def declaration : Routine Node := do
  let word ← bump c.source
  let name ← expectName c.source
  let value ←
    if ← isAt (.symbol .assign) then
      let sign ← bump c.source
      pure [sign, ← expression c]
    else
      pure []
  node c.source .declaration (word :: name ++ value)

def assignment : Routine Node := do
  let name ← bump c.source
  let sign ← bump c.source
  let value ← expression c
  node c.source .assignment [name, sign, value]

/-- The body of a function definition, and whether it is an expression behind an arrow. -/
def functionBody : Routine (List Node × Bool) := do
  if ← isAt (.symbol .arrow) then
    let sign ← bump c.source
    let value ← expression c
    let closing ← expect c.source .semicolon
    return (sign :: value :: closing, true)
  else if ← isAt (.symbol .leftBrace) then
    return ([← block c], false)
  else
    Action.report (.expectedBody (← peek))
    return ([], false)

def function : Routine Node := do
  let word ← bump c.source
  let name ← expectName c.source
  let opening ← expect c.source .leftParen
  let names ← parametersUnlessClosed c
  let closing ← expect c.source .rightParen
  let (body, arrow) ← functionBody c
  let result ← node c.source .function (word :: name ++ opening ++ names ++ closing ++ body)
  return { result with arrow }

def returning : Routine Node := do
  let word ← bump c.source
  let value ← if ← isAt (.symbol .semicolon) then pure [] else pure [← expression c]
  node c.source .returning (word :: value)

/-- A keyword, an expression in parentheses and a statement: the common head of conditionals and
loops. -/
def conditionAndBody : Routine (List Node) := do
  let word ← bump c.source
  let opening ← expect c.source .leftParen
  let condition ← expression c
  let closing ← expect c.source .rightParen
  let body ← c.nested .statement
  return word :: opening ++ condition :: closing ++ [body]

/-- A conditional; an `else` belongs to the nearest one. -/
def conditional : Routine Node := do
  let head ← conditionAndBody c
  let otherwise ←
    if ← isAt (.keyword .elseWord) then
      let word ← bump c.source
      pure [word, ← c.nested .statement]
    else
      pure []
  node c.source .conditional (head ++ otherwise)

def loop : Routine Node := do
  node c.source .loop (← conditionAndBody c)

/-- A construct and the semicolon that ends it. -/
def terminated (construct : Routine Node) : Routine (List Node) := do
  let first ← construct
  return first :: (← expect c.source .semicolon)

/-- The parts of a statement. It is told apart by its first lexeme, an assignment by its first
two. -/
def statementParts : Routine (List Node) := do
  match ← peek with
  | .keyword .letWord => terminated c (declaration c)
  | .keyword .fnWord => return [← function c]
  | .keyword .returnWord => terminated c (returning c)
  | .keyword .ifWord => return [← conditional c]
  | .keyword .whileWord => return [← loop c]
  | .symbol .leftBrace => return [← block c]
  | .ident _ =>
    if (← peekAt 1) = .symbol .assign then terminated c (assignment c)
    else terminated c (expression c)
  | _ => terminated c (expression c)

/-- A statement, a level deeper than what it is part of. The level is left before the node is built,
as it is refused before anything is read. -/
def statement : Routine Node := do
  if ← Action.enter then
    let parts ← statementParts c
    Action.leave 1
    node c.source .statement parts
  else
    missing c.source .statement

/-! ## Expressions -/

/-- The left and the right binding power of an operator. The right operand takes only operators
whose left power is at least the right power of this one, so equal operators group to the left. That
this table agrees with `Operation.precedence` is `Routine.bindingPower_eq`. -/
def bindingPower : Lexeme → Option (Nat × Nat)
  | .symbol .bars => some (1, 2)
  | .symbol .ampersands => some (3, 4)
  | .symbol .equal | .symbol .notEqual => some (5, 6)
  | .symbol .less | .symbol .greater | .symbol .lessEqual | .symbol .greaterEqual => some (7, 8)
  | .symbol .plus | .symbol .minus => some (9, 10)
  | .symbol .star | .symbol .slash | .symbol .percent => some (11, 12)
  | _ => none

/-- `lambdaAhead` from an offset behind the cursor on, over at most `bound` lexemes. -/
def lambdaFrom : (bound offset : Nat) → Routine Bool
  | 0, _ => fail .endless
  | bound + 1, offset => do
    match ← peekAt offset with
    | .ident _ | .symbol .comma => lambdaFrom bound (offset + 1)
    | .symbol .rightParen => return (← peekAt (offset + 1)) == .symbol .arrow
    | _ => return false

/-- Whether the tokens behind an opening parenthesis are names and commas up to the closing one
and then an arrow. -/
def lambdaAhead : Routine Bool := lambdaFrom c.bound 1

/-- An expression that is a single primary. -/
def wrapPrimary (inner : Node) : Routine Node := do
  let primary ← node c.source .primary [inner]
  node c.source .expression [primary]

/-- The arrow and the body of a lambda, whose parameters are parsed already. -/
def lambdaBody (head : List Node) : Routine Node := do
  let sign ← expect c.source .arrow
  let body ← if ← isAt (.symbol .leftBrace) then block c else expression c
  let lambda ← node c.source .lambda (head ++ sign ++ [body])
  wrapPrimary c lambda

def parenthesizedLambda : Routine Node := do
  let opening ← bump c.source
  let names ← parametersUnlessClosed c
  let closing ← expect c.source .rightParen
  lambdaBody c (opening :: names ++ closing)

def group : Routine Node := do
  let opening ← bump c.source
  let inner ← expression c
  let closing ← expect c.source .rightParen
  node c.source .expression (opening :: inner :: closing)

def array : Routine Node := do
  let opening ← bump c.source
  let elements ← expressionsUnless c .rightBracket
  let closing ← expect c.source .rightBracket
  node c.source .array (opening :: elements ++ closing)

/-- Reports that there is no expression, and steps over the lexeme unless the statement may end
with it. -/
def missingExpression : Routine Node := do
  Action.report (.expectedExpression (← peek))
  let result ← missing c.source .expression
  let found ← peek
  if found != .eof && found != .symbol .semicolon && found != .symbol .rightBrace then
    let _ ← Action.advance
  return result

def primary : Routine Node := do
  match ← peek with
  | .integer _ | .float _ | .string _ | .keyword .trueWord | .keyword .falseWord =>
    wrapPrimary c (← bump c.source)
  | .ident _ =>
    if (← peekAt 1) = .symbol .arrow then
      let name ← bump c.source
      let names ← node c.source .parameters [name]
      lambdaBody c [names]
    else
      wrapPrimary c (← bump c.source)
  | .symbol .leftBracket => wrapPrimary c (← array c)
  | .symbol .leftParen =>
    if ← lambdaAhead c then parenthesizedLambda c else group c
  | _ => missingExpression c

def call (callee : Node) : Routine Node := do
  let opening ← bump c.source
  let values ← expressionsUnless c .rightParen
  let arguments ← node c.source .arguments values
  let closing ← expect c.source .rightParen
  node c.source .expression (callee :: opening :: arguments :: closing)

/-- One step of `callChain`: a call of what is parsed already, a level deeper. The calls are counted
along, since all their levels are left at the end of the chain. -/
def callRound : Node × Nat → Routine (ForInStep (Node × Nat))
  | (callee, calls) => do
    if ← isAt (.symbol .leftParen) then
      if ← Action.enter then
        return .yield (← call c callee, calls + 1)
      else
        return .done (callee, calls)
    else
      return .done (callee, calls)

/-- The calls that follow a callee. -/
def callChain (callee : Node) : Routine Node := do
  let (result, calls) ← rounds (callRound c) c.bound (callee, 0)
  Action.leave calls
  return result

/-- A primary with its calls, or a negated operand. -/
def unary : Routine Node := do
  if ← isAt (.symbol .bang) then c.nested .negation else callChain c (← primary c)

/-- An exclamation mark and its operand, a level deeper than what they are part of. -/
def negation : Routine Node := do
  if ← Action.enter then
    let sign ← bump c.source
    let inner ← unary c
    Action.leave 1
    node c.source .expression [sign, inner]
  else
    missing c.source .expression

/-- An operator and its right operand, whose left operand is parsed already. -/
def operation (left : Node) (rightPower : Nat) : Routine Node := do
  let sign ← bump c.source
  let right ← c.nested (.expression rightPower)
  node c.source .expression [left, sign, right]

/-- One step of `expressionFrom`: an operator whose left binding power is at least `minimum`, and
its right operand. The operators are counted along, like the calls of `callRound`. -/
def operatorRound (minimum : Nat) : Node × Nat → Routine (ForInStep (Node × Nat))
  | (left, folds) => do
    match bindingPower (← peek) with
    | none => return .done (left, folds)
    | some (leftPower, rightPower) =>
      if leftPower < minimum then
        return .done (left, folds)
      else if ← Action.enter then
        return .yield (← operation c left rightPower, folds + 1)
      else
        return .done (left, folds)

/-- An expression whose operators have at least the left binding power `minimum`, a level deeper
than what it is part of. -/
def expressionFrom (minimum : Nat) : Routine Node := do
  if ← Action.enter then
    let first ← unary c
    let (result, folds) ← rounds (operatorRound c minimum) c.bound (first, 0)
    -- the level of the expression itself, and one for each operator of the chain
    Action.leave (folds + 1)
    return result
  else
    missing c.source .expression

/-! ## Programs -/

/-- A rule, if rules come back to others at most `left` times. They do so only below a level that
was granted, so the counter of levels keeps them from coming back more often than there are levels.
-/
def rule (source : String) (bound : Nat) : (left : Nat) → Rule → Routine Node
  | 0, _ => fail .endless
  | left + 1, r =>
    let c : Context := { source, bound, nested := rule source bound left }
    match r with
    | .statement => statement c
    | .expression minimum => expressionFrom c minimum
    | .negation => negation c

/-- What the rules have at hand in a program of `bound` tokens. -/
def Context.ofProgram (source : String) (bound maxDepth : Nat) : Context :=
  { source, bound, nested := rule source bound (maxDepth + 1) }

/-- The statements of a program of `bound` tokens. -/
def program (source : String) (bound maxDepth : Nat) : Routine (List Node) :=
  guardedStatements (.ofProgram source bound maxDepth) (isAt .eof)

end Routine

namespace Node

/-- The tree of a text with the given tokens, or what is wrong with it. A run that faults would give
neither; `Node.ofTokens` has no errors then, which no other run has. -/
def ofTokens (source : String) (tokens : List Token) (limit : Nat) :
    Except (List Diagnostic) Node :=
  match (Routine.program source tokens.length limit).run (.start tokens.toArray limit) with
  | .ok (statements, s) =>
    if s.errors.isEmpty then
      .ok (.covering source .program (.between 0 source.utf8ByteSize) statements)
    else .error s.errors.toList
  | .error _ => .error []

/-- The tree of a source text whose statements and expressions are nested at most `limit` deep,
or everything that is wrong with it. If it cannot be cut into tokens, only that is reported. -/
def parse (source : String) (limit : Nat) : Except (List Diagnostic) Node :=
  let tokens := scan source
  if tokens.errors.isEmpty then ofTokens source tokens.tokens limit else .error tokens.errors

end Node

end SimpleLang
