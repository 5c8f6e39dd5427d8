import SimpleLang.Lexeme.Scan

/-!
# Routines of a parser

A parser works on a sequence of tokens with a cursor, on the errors it has found, and on a counter
of the levels it is in. An `Action` is what it does to that state in one go, and a `Routine` is
actions in sequence, each of which may depend on what those before it gave.

An action is not always possible: a token is read by its index, which may lie outside the sequence,
and the counter is decreased, which it may be too small for. A loop may take more rounds than it has
been given. All of these end a run with a `Fault`. A routine does nothing to avoid them beyond what
its own tests amount to.

The counter and its limit are natural numbers. They stand for numbers of 32 bits: the counter never
exceeds its limit, so a limit of 32 bits keeps the counter from wrapping around.
-/

namespace SimpleLang

namespace Routine

/-- What a parser works on. -/
structure State where
  tokens : Array Token
  /-- Index of the token at the cursor. -/
  position : Nat
  /-- The errors so far, in order. -/
  errors : Array Diagnostic
  /-- Number of levels that are entered and not left yet. -/
  depth : Nat
  maxDepth : Nat
  /-- Whether a level was refused because there were `maxDepth` already. -/
  overflowed : Bool

/-- What a run cannot go on after. -/
inductive Fault where
  /-- There is no token at the index that is read. -/
  | outside
  /-- More levels are left than were entered. -/
  | underflow
  /-- A loop or a recursion goes beyond its bound. -/
  | endless
deriving DecidableEq, Repr

namespace State

def start (tokens : Array Token) (maxDepth : Nat) : State :=
  { tokens, position := 0, errors := #[], depth := 0, maxDepth, overflowed := false }

/-- The token at an index. Nothing is tested before it is read; that it is there is a result about
the parser (`Routine.exists_run_program`), not a part of it. -/
def token (s : State) (index : Nat) : Except Fault Token :=
  match s.tokens[index]? with
  | some t => .ok t
  | none => .error .outside

/-- The cursor moves over a token; it stays on the last one. -/
def advance (s : State) : State :=
  if s.position < s.tokens.size - 1 then { s with position := s.position + 1 } else s

/-- An error is added. After an overflow there are no more, so the level that was refused is the
last thing reported. -/
def report (s : State) (e : SyntaxError) (span : Span) : State :=
  if s.overflowed then s else { s with errors := s.errors.push (e.diagnostic span) }

end State

end Routine

/-- What a parser does in one go, and what that gives. -/
inductive Action : Type → Type where
  /-- Reads the token at the cursor. -/
  | current : Action Token
  /-- Reads the token some places behind the cursor, or the last one if there are not so many. -/
  | ahead (offset : Nat) : Action Token
  /-- Reads the token before the cursor, if the cursor is not at the first one. -/
  | previous : Action (Option Token)
  /-- Moves the cursor over a token, and gives that token. -/
  | advance : Action Token
  /-- Reports an error at the cursor. -/
  | report (e : SyntaxError) : Action Unit
  /-- Enters a level, and tells whether it was granted. -/
  | enter : Action Bool
  /-- Leaves a number of levels. -/
  | leave (levels : Nat) : Action Unit
  /-- Tells where the cursor is. -/
  | position : Action Nat
  /-- Tells how many errors there are. -/
  | errorCount : Action Nat
  /-- Tells whether a level was refused. -/
  | overflowed : Action Bool

open Routine in
/-- What an action gives and the state after it. After the first level that is refused so is every
other one, and only the first is reported. -/
def Action.perform {α : Type} : Action α → State → Except Fault (α × State)
  | .current, s => do return (← s.token s.position, s)
  | .ahead offset, s => do
    return (← s.token (min (s.position + offset) (s.tokens.size - 1)), s)
  | .previous, s =>
    if s.position = 0 then return (none, s)
    else return (some (← s.token (s.position - 1)), s)
  | .advance, s => do return (← s.token s.position, s.advance)
  | .report e, s => do
    let here ← s.token s.position
    return ((), s.report e here.span)
  | .enter, s =>
    if s.overflowed then return (false, s)
    else if s.maxDepth < s.depth + 1 then do
      let here ← s.token s.position
      return (false, { s.report (.tooDeep s.maxDepth) here.span with overflowed := true })
    else return (true, { s with depth := s.depth + 1 })
  | .leave levels, s =>
    if s.depth < levels then throw .underflow
    else return ((), { s with depth := s.depth - levels })
  | .position, s => return (s.position, s)
  | .errorCount, s => return (s.errors.size, s)
  | .overflowed, s => return (s.overflowed, s)

/-- Actions in sequence, as data: that each of them keeps an invariant is one statement about
`Action`, not one about every rule. -/
inductive Routine : Type → Type 1 where
  | done {α : Type} (a : α) : Routine α
  | act {α : Type} (action : Action α) : Routine α
  | andThen {α β : Type} (first : Routine α) (next : α → Routine β) : Routine β
  | fail {α : Type} (fault : Routine.Fault) : Routine α

namespace Routine

instance : Monad Routine where
  pure := done
  bind := andThen

instance : MonadLift Action Routine where
  monadLift := act

/-- Runs a routine. -/
def run {α : Type} : Routine α → State → Except Fault (α × State)
  | done a, s => .ok (a, s)
  | act action, s => action.perform s
  | andThen first next, s => do
    let (a, t) ← first.run s
    (next a).run t
  | fail fault, _ => .error fault

/-- The rounds of a loop: each one starts from what the one before it gave and tells whether to go
on. There are at most `bound` of them. -/
def rounds {σ : Type} (round : σ → Routine (ForInStep σ)) : (bound : Nat) → σ → Routine σ
  | 0, _ => fail .endless
  | bound + 1, a => do
    match ← round a with
    | .done b => return b
    | .yield b => rounds round bound b

end Routine

end SimpleLang
