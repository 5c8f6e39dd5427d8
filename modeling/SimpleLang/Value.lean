import SimpleLang.Number.Shortest
import SimpleLang.Program

/-!
# Values

What a running program computes with. Integers are those of mathematics; a machine that works with
64 bits checks every result. A function carries what is needed to call it: parameters, body and
the scope it was created in. Two functions are equal if they were created at the same moment, which
their serial number tells.

* `Value.text` is what a program shows of a value; strings get quotes only inside arrays. It is
  written piece by piece (`Value.pieces`).
* `Value.equals` compares parts, and an integer with a float as floats.
-/

namespace SimpleLang

abbrev ScopeId := Nat

/-- A function that a program has created. -/
structure Closure where
  /-- Serial number: each creation of a function has its own. -/
  serial : Nat
  /-- The name of a definition; a lambda has none. -/
  name : Option String
  parameters : List String
  body : Body
  /-- The scope that the function was created in. -/
  scope : ScopeId

def Closure.label (c : Closure) : String := c.name.getD "lambda"

inductive Builtin where
  | display
deriving DecidableEq, Repr

def Builtin.name : Builtin → String
  | display => Stmt.displayName

/-- A value. -/
inductive Value where
  | unit
  | int (value : Int)
  | float (value : Float)
  | string (value : String)
  | bool (value : Bool)
  | array (items : List Value)
  | closure (function : Closure)
  | builtin (function : Builtin)

inductive ValueType where
  | unit | int | float | string | bool | array | function
deriving DecidableEq, Repr

def ValueType.name : ValueType → String
  | unit => "unit"
  | int => "int"
  | float => "float"
  | string => "string"
  | bool => "bool"
  | array => "array"
  | function => "function"

namespace Value

def type : Value → ValueType
  | unit => .unit
  | int _ => .int
  | float _ => .float
  | string _ => .string
  | bool _ => .bool
  | array _ => .array
  | closure _ | builtin _ => .function

mutual
/-- What a program shows of a value, in the pieces that it is written in. -/
def pieces : Value → List String
  | unit => ["()"]
  | int n => [toString n]
  | float x => [Shortest.text x]
  | string s => [s]
  | bool b => [if b then "true" else "false"]
  | array items => "[" :: [", "].intercalate (itemPieces items) ++ ["]"]
  | closure ⟨_, some f, _, _, _⟩ => ["<fn ", f, ">"]
  | closure ⟨_, none, _, _, _⟩ => ["<lambda>"]
  | builtin f => ["<builtin ", f.name, ">"]
/-- What an array shows of its items. A string gets quotes here, but not as a value of its own. -/
def itemPieces : List Value → List (List String)
  | [] => []
  | string s :: rest => ["\"", s, "\""] :: itemPieces rest
  | v :: rest => v.pieces :: itemPieces rest
end

def text (v : Value) : String := String.join v.pieces

mutual
/-- Whether two values are equal. An integer is compared with a float as a float, which may round
it: this is not transitive. -/
def equals : Value → Value → Bool
  | unit, unit => true
  | int a, int b => a == b
  | float a, float b => a == b
  | int a, float b => Float.ofInt a == b
  | float a, int b => Float.ofInt b == a
  | string a, string b => a == b
  | bool a, bool b => a == b
  | array as, array bs => equalItems as bs
  | closure f, closure g => f.serial == g.serial
  | builtin f, builtin g => f == g
  | _, _ => false
def equalItems : List Value → List Value → Bool
  | [], [] => true
  | a :: as, b :: bs => a.equals b && equalItems as bs
  | _, _ => false
end

/-- The value as a float, if it is a number. -/
def toFloat? : Value → Option Float
  | int n => some (Float.ofInt n)
  | float x => some x
  | _ => none

end Value

end SimpleLang
