import SimpleLang.Tree.Parser

/-!
# Parsing by levels

The parser once more, in the form that proofs open. `Routine.program` counts levels and, once one is
refused, comes to its end without reporting anything. Here the levels are what the recursion is on:
a construct that goes one level deeper is a `Nested` one, and all of the recursion passes through
`enter`, which takes one level from those that are left. Every rule of the grammar is thus a plain
function of a `Level`, the parsers that are at hand when a certain number of levels is left. Where
no level is left that is reported, and parsing stops at once, because nothing that follows changes
what has been reported.

The operators of a chain `a + b + c` and the calls of a chain `f(a)(b)` take a level each, so a
chain is a recursion here and not a loop. Operators are compared by `Operation.precedence` and not
by binding powers.

A rule has the name of the routine that it stands for, and the same parts in the same order. That
both are the same parser is `Node.ofTokens_eq`.
-/

namespace SimpleLang

namespace Parser

/-! ## The state of a parser -/

/-- Where a parser stands and what it has found wrong. The tokens are a list that is cut at the
cursor, so that what is left of it can be what a recursion is on. -/
structure State where
  /-- The lexeme before the cursor. -/
  previous : Option Lexeme
  /-- The token at the cursor. -/
  current : Token
  /-- The tokens behind the cursor. -/
  ahead : List Token
  /-- Number of tokens before the cursor. -/
  position : Nat
  /-- The errors so far, in order. -/
  errors : Array Diagnostic

def State.before (token : Token) (rest : List Token) : State :=
  { previous := none, current := token, ahead := rest, position := 0, errors := #[] }

/-- The state before the first token. An empty list stands for an empty source. -/
def State.start : List Token → State
  | [] => .before ⟨.eof, .nowhere⟩ []
  | token :: rest => .before token rest

/-- The state with the cursor one token further; the cursor stays on the last token. -/
def State.advance (s : State) : State :=
  match s.ahead with
  | [] => s
  | token :: rest =>
    { s with
      previous := some s.current.lexeme, current := token, ahead := rest
      position := s.position + 1 }

/-- The nesting limit was exceeded, so there is nothing more to parse. -/
inductive Stopped where
  | tooDeep
deriving DecidableEq, Repr

end Parser

/-- A parser reads tokens and reports errors; the only way in which it stops early is
`Stopped.tooDeep`. -/
abbrev Parser := EStateM Parser.Stopped Parser.State

namespace Parser

/-! ## Basic steps -/

def peek : Parser Lexeme := do
  return (← get).current.lexeme

def peekSecond : Parser Lexeme := do
  let s ← get
  return (s.ahead.headD s.current).lexeme

def advance : Parser Unit := modify State.advance

def report (e : SyntaxError) : Parser Unit :=
  modify fun s => { s with errors := s.errors.push (e.diagnostic s.current.span) }

def bump (source : String) : Parser Node := do
  let token := (← get).current
  advance
  return .covering source (.token (.ofLexeme token.lexeme)) token.span []

/-- An inner node. It covers its children, and without children the empty range at the cursor. -/
def node (source : String) (kind : NodeKind) (children : List Node) : Parser Node := do
  let here := Span.empty (← get).current.span.start
  return .covering source kind ((Span.cover? (children.map Node.span)).getD here) children

def expect (source : String) (wanted : Symbol) : Parser (List Node) := do
  let found ← peek
  if found = .symbol wanted then
    return [← bump source]
  else
    report (.expectedSymbol wanted found)
    return []

def expectName (source : String) : Parser (List Node) := do
  match ← peek with
  | .ident _ => return [← bump source]
  | found =>
    report (.expectedName found)
    return []

/-! ## Repetition -/

/-- Repeats a round while the lexeme at the cursor asks for one. A round takes at least one
token, so the list of tokens behind the cursor bounds the number of rounds. -/
def rounds (more : Lexeme → Bool) (round : Parser (List Node)) :
    List Token → Parser (List Node)
  | [] => return []
  | _ :: bound => do
    if more (← peek) then
      let first ← round
      return first ++ (← rounds more round bound)
    else
      return []

/-- Repeats a round as long as the lexeme at the cursor asks for one. That the tokens ahead suffice
as a bound is due to every round taking a token (`Consumes`). -/
def repeatWhile (more : Lexeme → Bool) (round : Parser (List Node)) : Parser (List Node) := do
  rounds more round (← get).ahead

def commaRound (source : String) (item : Parser (List Node)) : Parser (List Node) := do
  let comma ← bump source
  return comma :: (← item)

/-- One or more items with commas between them. -/
def separated (source : String) (item : Parser (List Node)) : Parser (List Node) := do
  let first ← item
  let others ← repeatWhile (· == .symbol .comma) (commaRound source item)
  return first ++ others

/-! ## Recovery -/

/-- Moves behind the next semicolon, or before the next closing brace or the end. -/
def skip : List Token → Parser Unit
  | [] => return ()
  | _ :: bound => do
    match ← peek with
    | .eof | .symbol .rightBrace => return ()
    | .symbol .semicolon => advance
    | _ =>
      advance
      skip bound

/-- Moves to where a statement can start again; if the cursor stands behind a semicolon or a
closing brace it does already. -/
def synchronize : Parser Unit := do
  let s ← get
  if s.previous = some (.symbol .semicolon) ∨ s.previous = some (.symbol .rightBrace) then
    return ()
  else
    skip s.ahead

/-! ## The grammar -/

/-- The constructs that lie one level deeper than what they are part of. A chain goes on inside of
its first operator or call, so what is parsed already is a part of the construct. -/
inductive Nested where
  | statement
  /-- An expression whose operators bind at least as tightly as `minimum`. -/
  | expression (minimum : Nat)
  /-- An operator and its right operand, whose left operand is parsed already, and the rest of
  the chain. -/
  | operation (minimum : Nat) (op : Operation) (left : Node)
  /-- An exclamation mark and its operand. -/
  | negation
  /-- The arguments of a call, whose callee is parsed already, and the rest of the chain. -/
  | call (callee : Node)

/-- What the rules of the grammar have at hand: the source, for the text of nodes, and the parser
for constructs one level deeper. -/
structure Level where
  source : String
  enter : Nested → Parser Node

variable (level : Level)

def expression : Parser Node := level.enter (.expression 0)

/-- A statement with its recovery. `Routine.recover` also looks whether a level was refused, which
here ends the whole parse. -/
def guardedStatement : Parser Node := do
  let before ← get
  let result ← level.enter .statement
  if before.errors.size < (← get).errors.size then
    synchronize
  if before.position = (← get).position then
    advance
  return result

def block : Parser Node := do
  let opening ← expect level.source .leftBrace
  let body ← repeatWhile (fun l => l != .symbol .rightBrace && l != .eof) do
    return [← guardedStatement level]
  let closing ← expect level.source .rightBrace
  node level.source .block (opening ++ body ++ closing)

def parameters : Parser Node := do
  node level.source .parameters (← separated level.source (expectName level.source))

/-- The parameters before a closing parenthesis, which may be missing. -/
def parametersUnlessClosed : Parser (List Node) := do
  if (← peek) = .symbol .rightParen then return [] else return [← parameters level]

/-- Expressions with commas between them, none if the closing symbol follows at once. -/
def expressionsUnless (closing : Symbol) : Parser (List Node) := do
  if (← peek) = .symbol closing then return []
  else separated level.source do
    return [← expression level]

/-! ### Statements -/

def declaration : Parser Node := do
  let word ← bump level.source
  let name ← expectName level.source
  let value ←
    if (← peek) = .symbol .assign then
      let sign ← bump level.source
      pure [sign, ← expression level]
    else
      pure []
  node level.source .declaration (word :: name ++ value)

def assignment : Parser Node := do
  let name ← bump level.source
  let sign ← bump level.source
  let value ← expression level
  node level.source .assignment [name, sign, value]

/-- The body of a function definition, and whether it is an expression behind an arrow. -/
def functionBody : Parser (List Node × Bool) := do
  match ← peek with
  | .symbol .arrow =>
    let sign ← bump level.source
    let value ← expression level
    let closing ← expect level.source .semicolon
    return (sign :: value :: closing, true)
  | .symbol .leftBrace => return ([← block level], false)
  | found =>
    report (.expectedBody found)
    return ([], false)

def function : Parser Node := do
  let word ← bump level.source
  let name ← expectName level.source
  let opening ← expect level.source .leftParen
  let names ← parametersUnlessClosed level
  let closing ← expect level.source .rightParen
  let (body, arrow) ← functionBody level
  let result ← node level.source .function (word :: name ++ opening ++ names ++ closing ++ body)
  return { result with arrow }

def returning : Parser Node := do
  let word ← bump level.source
  let value ← if (← peek) = .symbol .semicolon then pure [] else pure [← expression level]
  node level.source .returning (word :: value)

/-- A keyword, an expression in parentheses and a statement: the common head of conditionals and
loops. -/
def conditionAndBody : Parser (List Node) := do
  let word ← bump level.source
  let opening ← expect level.source .leftParen
  let condition ← expression level
  let closing ← expect level.source .rightParen
  let body ← level.enter .statement
  return word :: opening ++ condition :: closing ++ [body]

def conditional : Parser Node := do
  let head ← conditionAndBody level
  let otherwise ←
    if (← peek) = .keyword .elseWord then
      let word ← bump level.source
      pure [word, ← level.enter .statement]
    else
      pure []
  node level.source .conditional (head ++ otherwise)

def loop : Parser Node := do
  node level.source .loop (← conditionAndBody level)

def terminated (construct : Parser Node) : Parser (List Node) := do
  let first ← construct
  return first :: (← expect level.source .semicolon)

/-- A statement, told apart by its first lexeme; an assignment by its first two. -/
def statement : Parser Node := do
  let parts ← match ← peek with
    | .keyword .letWord => terminated level (declaration level)
    | .keyword .fnWord => pure [← function level]
    | .keyword .returnWord => terminated level (returning level)
    | .keyword .ifWord => pure [← conditional level]
    | .keyword .whileWord => pure [← loop level]
    | .symbol .leftBrace => pure [← block level]
    | .ident _ =>
      if (← peekSecond) = .symbol .assign then terminated level (assignment level)
      else terminated level (expression level)
    | _ => terminated level (expression level)
  node level.source .statement parts

/-! ### Expressions -/

/-- Whether the tokens behind an opening parenthesis are names and commas up to the closing one
and then an arrow. -/
def opensLambda : List Token → Bool
  | ⟨.ident _, _⟩ :: rest => opensLambda rest
  | ⟨.symbol .comma, _⟩ :: rest => opensLambda rest
  | ⟨.symbol .rightParen, _⟩ :: ⟨.symbol .arrow, _⟩ :: _ => true
  | _ => false

/-- An expression that is a single primary. -/
def wrapPrimary (inner : Node) : Parser Node := do
  let primary ← node level.source .primary [inner]
  node level.source .expression [primary]

/-- The arrow and the body of a lambda, whose parameters are parsed already. -/
def lambdaBody (head : List Node) : Parser Node := do
  let sign ← expect level.source .arrow
  let body ← if (← peek) = .symbol .leftBrace then block level else expression level
  let lambda ← node level.source .lambda (head ++ sign ++ [body])
  wrapPrimary level lambda

def parenthesizedLambda : Parser Node := do
  let opening ← bump level.source
  let names ← parametersUnlessClosed level
  let closing ← expect level.source .rightParen
  lambdaBody level (opening :: names ++ closing)

def group : Parser Node := do
  let opening ← bump level.source
  let inner ← expression level
  let closing ← expect level.source .rightParen
  node level.source .expression (opening :: inner :: closing)

def array : Parser Node := do
  let opening ← bump level.source
  let elements ← expressionsUnless level .rightBracket
  let closing ← expect level.source .rightBracket
  node level.source .array (opening :: elements ++ closing)

/-- Reports that there is no expression, and steps over the lexeme unless the statement may end
with it. -/
def missingExpression : Parser Node := do
  let found ← peek
  report (.expectedExpression found)
  let result ← node level.source .expression []
  if found != .eof && found != .symbol .semicolon && found != .symbol .rightBrace then
    advance
  return result

def primary : Parser Node := do
  match ← peek with
  | .integer _ | .float _ | .string _ | .keyword .trueWord | .keyword .falseWord =>
    wrapPrimary level (← bump level.source)
  | .ident _ =>
    if (← peekSecond) = .symbol .arrow then
      let name ← bump level.source
      let names ← node level.source .parameters [name]
      lambdaBody level [names]
    else
      wrapPrimary level (← bump level.source)
  | .symbol .leftBracket => wrapPrimary level (← array level)
  | .symbol .leftParen =>
    if opensLambda (← get).ahead then parenthesizedLambda level else group level
  | _ => missingExpression level

/-- The calls that follow a callee. -/
def calls (callee : Node) : Parser Node := do
  if (← peek) = .symbol .leftParen then level.enter (.call callee) else return callee

/-- A primary with its calls, or a negated operand. -/
def operand : Parser Node := do
  if (← peek) = .symbol .bang then level.enter .negation
  else calls level (← primary level)

/-- The operators that follow a left operand and bind at least as tightly as `minimum`. -/
def operations (minimum : Nat) (left : Node) : Parser Node := do
  match (← peek).binary? with
  | some op =>
    if minimum ≤ op.precedence then level.enter (.operation minimum op left) else return left
  | none => return left

/-- A nested construct, once its level is entered. The right operand of an operator takes only
operators that bind more tightly, so a chain of equal ones groups to the left. -/
def construct : Nested → Parser Node
  | .statement => statement level
  | .expression minimum => do
    operations level minimum (← operand level)
  | .operation minimum op left => do
    let sign ← bump level.source
    let right ← level.enter (.expression (op.precedence + 1))
    let result ← node level.source .expression [left, sign, right]
    operations level minimum result
  | .negation => do
    let sign ← bump level.source
    let inner ← operand level
    node level.source .expression [sign, inner]
  | .call callee => do
    let opening ← bump level.source
    let values ← expressionsUnless level .rightParen
    let arguments ← node level.source .arguments values
    let closing ← expect level.source .rightParen
    let result ← node level.source .expression (callee :: opening :: arguments :: closing)
    calls level result

/-- Parses a nested construct with `left` levels left, of `limit` in all. This is the only recursion
of the parser, and the only place where it stops. -/
def enter (source : String) (limit : Nat) : (left : Nat) → Nested → Parser Node
  | 0, _ => do
    report (.tooDeep limit)
    throw .tooDeep
  | left + 1, nested => construct { source, enter := enter source limit left } nested

abbrev levelAt (source : String) (limit left : Nat) : Level :=
  { source, enter := enter source limit left }

def program (source : String) (limit : Nat) : Parser (List Node) :=
  repeatWhile (· != .eof) do
    return [← guardedStatement (levelAt source limit limit)]

/-- The counterpart of `Node.ofTokens`, to which `Node.ofTokens_eq` proves it equal. -/
def ofTokens (source : String) (tokens : List Token) (limit : Nat) :
    Except (List Diagnostic) Node :=
  match program source limit (.start tokens) with
  | .ok statements s =>
    if s.errors.isEmpty then
      .ok (.covering source .program (.between 0 source.utf8ByteSize) statements)
    else .error s.errors.toList
  | .error _ s => .error s.errors.toList

end Parser

end SimpleLang
