import SimpleLang.Diagnostic
import SimpleLang.Lexeme

/-!
# Syntax errors

Why a text is no program: the causes found while scanning it into tokens and while matching the
tokens against the grammar. `SyntaxError.message` and `SyntaxError.help` are the only place where
they are put into words.
-/

namespace SimpleLang

/-- The cause of a syntax error. -/
inductive SyntaxError where
  /-- An integer literal that does not fit 64 bits. -/
  | integerTooLarge (digits : String)
  /-- A string literal without a closing quote. -/
  | unclosedString
  /-- A character that starts no lexeme. -/
  | strayCharacter (c : Char)
  /-- Another lexeme stands where a certain symbol has to. -/
  | expectedSymbol (wanted : Symbol) (found : Lexeme)
  /-- Another lexeme stands where a name has to. -/
  | expectedName (found : Lexeme)
  /-- Another lexeme stands where a function's body has to start. -/
  | expectedBody (found : Lexeme)
  /-- Another lexeme stands where an expression has to start. -/
  | expectedExpression (found : Lexeme)
  /-- Statements and expressions are nested beyond the limit. -/
  | tooDeep (limit : Nat)
deriving DecidableEq, Repr

namespace SyntaxError

/-- A code point as it is usually cited: in upper-case hexadecimal, with at least four digits. -/
def codePoint (c : Char) : String :=
  let digits := (Nat.toDigits 16 c.toNat).map Char.toUpper
  String.ofList (List.replicate (4 - digits.length) '0' ++ digits)

def message : SyntaxError → String
  | integerTooLarge digits => "integer literal '" ++ digits ++ "' is too large"
  | unclosedString => "unterminated string literal"
  | strayCharacter c =>
    if c = '&' ∨ c = '|' then
      "unexpected '" ++ c.toString ++ "'; Simple has no bitwise operators"
    else "unexpected character '" ++ c.toString ++ "' (U+" ++ codePoint c ++ ")"
  | expectedSymbol wanted found =>
    "expected " ++ (Lexeme.symbol wanted).description ++ ", found " ++ found.description
  | expectedName found => "expected identifier, found " ++ found.description
  | expectedBody found =>
    "expected '=>' or '\x7b' after function parameters, found " ++ found.description
  | expectedExpression found => "expected expression, found " ++ found.description
  | tooDeep limit => "nesting depth exceeded (maximum " ++ toString limit ++ " levels)"

def help : SyntaxError → Option String
  | integerTooLarge _ => some "maximum integer value is 9223372036854775807"
  | unclosedString => some "close the string with a matching '\"'"
  | strayCharacter c => some <|
    if c = '&' then "use `&&` for logical and"
    else if c = '|' then "use `||` for logical or"
    else "this character is not recognized as part of Simple syntax"
  | expectedSymbol .. | expectedName _ => none
  | expectedBody _ =>
    some "write `fn f(a) => a + 1;` or `fn f(a) \x7b return a + 1; \x7d`"
  | expectedExpression _ => some <|
    "expressions include literals (42, 3.14, \"text\", true), names, calls, arrays, and lambdas"
  | tooDeep _ =>
    some "simplify your program by extracting deeply nested code into functions"

def diagnostic (e : SyntaxError) (span : Span) : Diagnostic :=
  { Diagnostic.error e.message span with help := e.help }

end SyntaxError

end SimpleLang
