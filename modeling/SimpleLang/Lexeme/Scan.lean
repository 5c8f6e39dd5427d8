import SimpleLang.Number.Integer
import SimpleLang.SyntaxError

/-!
# Scanning a source text

A scanner goes over the bytes of a source text and finds its lexemes, with blanks and comments
between them. A malformed lexeme is reported and left out, so one pass finds all of the errors.

Lexemes are cut out of the source as slices between two offsets, which is possible only where a
character starts or the source ends. A loop may take more rounds than it has been given. Either ends
a scan with a `Scanner.Fault`. The scanner does nothing to avoid them beyond what its own tests
amount to.
-/

namespace SimpleLang

/-- A lexeme and where it stands. -/
structure Token where
  lexeme : Lexeme
  span : Span
deriving DecidableEq, Repr

/-- The tokens of a source text and what is wrong with it. -/
structure Scan where
  /-- The lexemes in order, and the end of the source as the last token. -/
  tokens : List Token
  errors : List Diagnostic
deriving DecidableEq, Repr

namespace Scanner

/-- What a scan cannot go on after. `Scanner.tokenize_eq` says that neither comes up. -/
inductive Fault where
  /-- A slice starts or ends within a character, or behind the end of the source. -/
  | boundary
  /-- A loop goes beyond its bound. -/
  | endless
deriving DecidableEq, Repr

/-! ## Kinds of bytes -/

def isBlank (b : UInt8) : Bool :=
  b == ' '.toUInt8 || b == '\t'.toUInt8 || b == '\n'.toUInt8 || b == '\x0c'.toUInt8
    || b == '\r'.toUInt8

def isDigit (b : UInt8) : Bool := '0'.toUInt8 ≤ b && b ≤ '9'.toUInt8

/-- The bytes that a word can start with. -/
def startsWord (b : UInt8) : Bool :=
  ('a'.toUInt8 ≤ b && b ≤ 'z'.toUInt8) || ('A'.toUInt8 ≤ b && b ≤ 'Z'.toUInt8)
    || b == '_'.toUInt8

/-- The bytes that a word can go on with. -/
def continuesWord (b : UInt8) : Bool := startsWord b || isDigit b

/-! ## Reading the source -/

variable (source : String)

/-- The byte at an offset, if the source does not end before it. -/
def byte? (offset : Nat) : Option UInt8 := source.toUTF8.data[offset]?

/-- Whether a character starts at the offset, or the source ends there. The bytes from `0x80` to
`0xbf` are those that go on with a character. -/
def isBoundary (offset : Nat) : Bool :=
  match byte? source offset with
  | some b => b < 0x80 || 0xc0 ≤ b
  | none => offset == source.utf8ByteSize

/-- The text between two offsets. It can be cut out only between characters, so this is where a
scanner that stops within one would fail. -/
def slice (start stop : Nat) : Except Fault String :=
  if start ≤ stop && isBoundary source start && isBoundary source stop then
    .ok (Span.excerpt ⟨start, stop⟩ source)
  else .error .boundary

/-- The rest of the source from an offset on. It is not copied: its offset stands for it, but like a
`slice` it starts between characters. -/
def rest (offset : Nat) : Except Fault Nat :=
  if isBoundary source offset then .ok offset else .error .boundary

/-- Whether the rest of the source starts with a text. -/
def startsWith (offset : Nat) (text : String) : Except Fault Bool := do
  let start ← rest source offset
  return (source.toUTF8.extract start (start + text.utf8ByteSize)).data == text.toUTF8.data

/-- The first character of the rest of the source. -/
def firstChar (offset : Nat) : Except Fault Char := do
  let start ← rest source offset
  return (String.Pos.Raw.get? source ⟨start⟩).getD '\uFFFD'

/-- A number of rounds that no loop over the bytes of the source has. -/
def roundBound : Nat := source.utf8ByteSize + 1

/-- `eatWhile` in at most `bound` rounds. It takes single bytes, and may be within a character
between two of them. -/
def eatWithin (p : UInt8 → Bool) : (bound offset : Nat) → Except Fault Nat
  | 0, _ => .error .endless
  | bound + 1, offset =>
    match byte? source offset with
    | some b => if p b then eatWithin p bound (offset + 1) else .ok offset
    | none => .ok offset

/-- The offset behind all the bytes of a kind that stand at an offset. -/
def eatWhile (p : UInt8 → Bool) (offset : Nat) : Except Fault Nat :=
  eatWithin source p (roundBound source) offset

/-! ## Blanks and comments -/

/-- `skipTrivia` in at most `bound` rounds. -/
def skipWithin : (bound offset : Nat) → Except Fault Nat
  | 0, _ => .error .endless
  | bound + 1, offset => do
    let offset ← eatWhile source isBlank offset
    -- a comment ends before its line feed, which is a blank of the next round
    if ← startsWith source offset "//" then
      skipWithin bound (← eatWhile source (· != '\n'.toUInt8) offset)
    else
      return offset

/-- The offset behind the blanks and the comments at an offset. -/
def skipTrivia (offset : Nat) : Except Fault Nat := skipWithin source (roundBound source) offset

/-! ## Lexemes -/

/-- What a scanner finds at an offset: a lexeme or an error or both, and the offset behind them. -/
structure Found where
  stop : Nat
  lexeme : Option Lexeme
  error : Option SyntaxError

def word (start : Nat) : Except Fault Found := do
  let stop ← eatWhile source continuesWord start
  return { stop, lexeme := some (.ofWord (← slice source start stop)), error := none }

/-- Digits, and behind a point more digits if the point is followed by one. Digits alone must be the
value of an integer. -/
def number (start : Nat) : Except Fault Found := do
  let stop ← eatWhile source isDigit start
  -- a point that no digit follows belongs to what comes next
  if byte? source stop == some '.'.toUInt8 && (byte? source (stop + 1)).any isDigit then
    let stop ← eatWhile source isDigit (stop + 1)
    return { stop, lexeme := some (.float (← slice source start stop)), error := none }
  else
    let digits ← slice source start stop
    let error := if (Integer.read? digits).isNone then some (.integerTooLarge digits) else none
    return { stop, lexeme := some (.integer digits), error }

/-- A quote and the text up to the next one. Without another quote nothing of the source is left. -/
def string (start : Nat) : Except Fault Found := do
  let body ← rest source (start + 1)
  let quote ← eatWhile source (· != '"'.toUInt8) body
  if (byte? source quote).isSome then
    let text ← slice source start (quote + 1)
    return { stop := quote + 1, lexeme := some (.string text), error := none }
  else
    return { stop := source.utf8ByteSize, lexeme := none, error := some .unclosedString }

/-- The symbols of two characters. -/
def pairs : List (String × Symbol) :=
  [("==", .equal), ("=>", .arrow), ("!=", .notEqual), ("<=", .lessEqual), (">=", .greaterEqual),
    ("&&", .ampersands), ("||", .bars)]

/-- The symbols of one character. -/
def singles : List (Char × Symbol) :=
  [('(', .leftParen), (')', .rightParen), ('\x7b', .leftBrace), ('\x7d', .rightBrace),
    ('[', .leftBracket), (']', .rightBracket), (',', .comma), (';', .semicolon), ('+', .plus),
    ('-', .minus), ('*', .star), ('/', .slash), ('%', .percent), ('=', .assign), ('!', .bang),
    ('<', .less), ('>', .greater)]

/-- The first of the given symbols that stands at an offset. -/
def pairAt (offset : Nat) : List (String × Symbol) → Except Fault (Option (String × Symbol))
  | [] => return none
  | pair :: others => do
    if ← startsWith source offset pair.1 then return some pair else pairAt offset others

/-- A symbol, of two characters if there is one, so that no symbol is cut short. Otherwise a symbol
of one character, or a character that starts no lexeme and is passed over whole. -/
def symbol (start : Nat) (first : UInt8) : Except Fault Found := do
  match ← pairAt source start pairs with
  | some (text, s) =>
    return { stop := start + text.utf8ByteSize, lexeme := some (.symbol s), error := none }
  | none =>
    match singles.find? (·.1.toUInt8 == first) with
    | some (_, s) => return { stop := start + 1, lexeme := some (.symbol s), error := none }
    | none =>
      let c ← firstChar source start
      return { stop := start + c.utf8Size, lexeme := none, error := some (.strayCharacter c) }

/-- What is found at an offset, by the byte that stands there. -/
def lexemeAt (start : Nat) (first : UInt8) : Except Fault Found :=
  if startsWord first then word source start
  else if isDigit first then number source start
  else if first == '"'.toUInt8 then string source start
  else symbol source start first

/-! ## The whole source -/

structure Finds where
  tokens : Array Token
  errors : Array Diagnostic

def Finds.add (finds : Finds) (start : Nat) (found : Found) : Finds :=
  let span := Span.between start found.stop
  { tokens := match found.lexeme with
      | some l => finds.tokens.push ⟨l, span⟩
      | none => finds.tokens
    errors := match found.error with
      | some e => finds.errors.push (e.diagnostic span)
      | none => finds.errors }

/-- The scan of the source from an offset on, in at most `bound` rounds. -/
def tokenizeWithin : (bound offset : Nat) → Finds → Except Fault Scan
  | 0, _, _ => .error .endless
  | bound + 1, offset, finds => do
    let start ← skipTrivia source offset
    match byte? source start with
    | none =>
      let tokens := finds.tokens.push ⟨.eof, .between start start⟩
      return { tokens := tokens.toList, errors := finds.errors.toList }
    | some first =>
      let found ← lexemeAt source start first
      tokenizeWithin bound found.stop (finds.add start found)

def tokenize : Except Fault Scan :=
  tokenizeWithin source (roundBound source) 0 { tokens := #[], errors := #[] }

end Scanner

/-- Scans a source text. A scan that faults would give nothing; `scan` has no tokens then, which no
other scan has. -/
def scan (source : String) : Scan :=
  match Scanner.tokenize source with
  | .ok result => result
  | .error _ => { tokens := [], errors := [] }

end SimpleLang
