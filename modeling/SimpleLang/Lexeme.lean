import SimpleLang.Operation

/-!
# Lexemes

The words of the language: keywords, symbols, literals and names. A lexeme knows how it is spelled
and how a message describes it. Literals keep their spelling and are read as numbers or strings
only when a program is built from the tree.
-/

namespace SimpleLang

inductive Keyword where
  | letWord | fnWord | returnWord | ifWord | elseWord | whileWord | trueWord | falseWord
deriving DecidableEq, Repr

namespace Keyword

/-- Every keyword once. -/
def all : List Keyword :=
  [letWord, fnWord, returnWord, ifWord, elseWord, whileWord, trueWord, falseWord]

def spelling : Keyword → String
  | letWord => "let"
  | fnWord => "fn"
  | returnWord => "return"
  | ifWord => "if"
  | elseWord => "else"
  | whileWord => "while"
  | trueWord => "true"
  | falseWord => "false"

def ofSpelling? (text : String) : Option Keyword :=
  all.find? (·.spelling == text)

end Keyword

/-- An operator, a delimiter or a separator. -/
inductive Symbol where
  | leftParen | rightParen | leftBrace | rightBrace | leftBracket | rightBracket
  | comma | semicolon | assign | arrow
  | equal | notEqual | bang | plus | minus | star | slash | percent
  | less | greater | lessEqual | greaterEqual | ampersands | bars
deriving DecidableEq, Repr

namespace Symbol

/-- Every symbol once. -/
def all : List Symbol :=
  [leftParen, rightParen, leftBrace, rightBrace, leftBracket, rightBracket, comma, semicolon,
    assign, arrow, equal, notEqual, bang, plus, minus, star, slash, percent, less, greater,
    lessEqual, greaterEqual, ampersands, bars]

def chars : Symbol → List Char
  | leftParen => ['(']
  | rightParen => [')']
  | leftBrace => ['\x7b']
  | rightBrace => ['\x7d']
  | leftBracket => ['[']
  | rightBracket => [']']
  | comma => [',']
  | semicolon => [';']
  | assign => ['=']
  | arrow => ['=', '>']
  | equal => ['=', '=']
  | notEqual => ['!', '=']
  | bang => ['!']
  | plus => ['+']
  | minus => ['-']
  | star => ['*']
  | slash => ['/']
  | percent => ['%']
  | less => ['<']
  | greater => ['>']
  | lessEqual => ['<', '=']
  | greaterEqual => ['>', '=']
  | ampersands => ['&', '&']
  | bars => ['|', '|']

def spelling (s : Symbol) : String := String.ofList s.chars

def single? (c : Char) : Option Symbol := all.find? (·.chars == [c])

def pair? (c d : Char) : Option Symbol := all.find? (·.chars == [c, d])

/-- The operation that the symbol stands for between two operands. `bang` is none of these, since
`Operation.not` takes one operand. -/
def binary? : Symbol → Option Operation
  | plus => some .add
  | minus => some .sub
  | star => some .mul
  | slash => some .div
  | percent => some .mod
  | less => some .lt
  | greater => some .gt
  | lessEqual => some .le
  | greaterEqual => some .ge
  | equal => some .eq
  | notEqual => some .ne
  | ampersands => some .and
  | bars => some .or
  | leftParen | rightParen | leftBrace | rightBrace | leftBracket | rightBracket
  | comma | semicolon | assign | arrow | bang => none

end Symbol

/-- A word of the language. -/
inductive Lexeme where
  | keyword (word : Keyword)
  | symbol (symbol : Symbol)
  /-- A run of digits. -/
  | integer (digits : String)
  /-- Two runs of digits with a point between them. -/
  | float (text : String)
  /-- A text in quotes, with the quotes. -/
  | string (text : String)
  | ident (name : String)
  /-- The end of the source. -/
  | eof
deriving DecidableEq, Repr

namespace Lexeme

def spelling : Lexeme → String
  | keyword k => k.spelling
  | symbol s => s.spelling
  | integer text | float text | string text | ident text => text
  | eof => ""

/-- The lexeme as a message names it. -/
def description : Lexeme → String
  | keyword k => "keyword '" ++ k.spelling ++ "'"
  | symbol s => "'" ++ s.spelling ++ "'"
  | integer digits => "integer '" ++ digits ++ "'"
  | float text => "float '" ++ text ++ "'"
  | string text => "string " ++ text
  | ident name => "identifier '" ++ name ++ "'"
  | eof => "end of file"

def binary? : Lexeme → Option Operation
  | symbol s => s.binary?
  | keyword _ | integer _ | float _ | string _ | ident _ | eof => none

/-- A word of letters, digits and underscores: a keyword if it is reserved, else a name. -/
def ofWord (text : String) : Lexeme :=
  match Keyword.ofSpelling? text with
  | some k => keyword k
  | none => ident text

end Lexeme

end SimpleLang
