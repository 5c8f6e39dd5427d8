/-!
# Operations

The fourteen operations of the language, with their spelling and how tightly they bind. All of
them are binary but `not`, which is a sign before its operand.
-/

namespace SimpleLang

inductive Operation where
  | add | sub | mul | div | mod
  | lt | gt | le | ge
  | eq | ne
  | and | or
  | not
deriving DecidableEq, Repr

namespace Operation

/-- Every operation once. -/
def all : List Operation :=
  [add, sub, mul, div, mod, lt, gt, le, ge, eq, ne, and, or, not]

def spelling : Operation → String
  | add => "+"
  | sub => "-"
  | mul => "*"
  | div => "/"
  | mod => "%"
  | lt => "<"
  | gt => ">"
  | le => "<="
  | ge => ">="
  | eq => "=="
  | ne => "!="
  | and => "&&"
  | or => "||"
  | not => "!"

/-- How tightly the operation binds its operands: more is tighter. This is what the printer puts
parentheses by; the parser has numbers of its own (`Routine.bindingPower`). -/
def precedence : Operation → Nat
  | or => 1
  | and => 2
  | eq | ne => 3
  | lt | gt | le | ge => 4
  | add | sub => 5
  | mul | div | mod => 6
  | not => 7

def isUnary (op : Operation) : Bool := op == not

def ofSpelling? (text : String) : Option Operation :=
  all.find? (·.spelling == text)

end Operation

end SimpleLang
