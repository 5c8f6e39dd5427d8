import SimpleLang.Number.Integer

/-!
# Reading floating-point literals

`Decimal.read?` reads a decimal text as the nearest 64-bit float, ties to even. The text is an
optional sign, then either the name of a special value in any case, or digits with at most one
point and an optional exponent. There is at least one digit beside the point.
-/

namespace SimpleLang

namespace Decimal

/-- The float nearest to `mantissa * 10 ^ exponent`. -/
def scaled (mantissa : Nat) (exponent : Int) : Float :=
  Float.ofScientific mantissa (decide (exponent < 0)) exponent.natAbs

/-- Reads the exponent part: nothing, or an `e`, an optional sign and digits. -/
def exponent? : List Char → Option Int
  | [] => some 0
  | e :: rest =>
    if e = 'e' ∨ e = 'E' then
      match rest with
      | '+' :: digits => (Integer.digits? digits).map Int.ofNat
      | '-' :: digits => (Integer.digits? digits).map (fun n => -Int.ofNat n)
      | digits => (Integer.digits? digits).map Int.ofNat
    else none

/-- Reads digits, a point with more digits, and an exponent. The fraction only shifts the exponent,
so the number is rounded once. -/
def magnitude? (text : List Char) : Option Float :=
  let whole := text.takeWhile Char.isDigit
  let rest := text.dropWhile Char.isDigit
  let fraction := match rest with
    | '.' :: more => more.takeWhile Char.isDigit
    | _ => []
  let tail := match rest with
    | '.' :: more => more.dropWhile Char.isDigit
    | other => other
  if whole = [] ∧ fraction = [] then none
  else (exponent? tail).map fun e =>
    scaled (Integer.ofDigits (whole ++ fraction)) (e - fraction.length)

def infinity : Float := Float.ofModel (.pack (.infinity .positive))

def notANumber : Float := Float.ofModel (.pack .notANumber)

/-- Reads a text without a sign. -/
def unsigned? (text : List Char) : Option Float :=
  let name := String.ofList (text.map Char.toLower)
  if name = "inf" ∨ name = "infinity" then some infinity
  else if name = "nan" then some notANumber
  else magnitude? text

/-- Reads a floating-point literal, with at most one sign. -/
def read? (text : String) : Option Float :=
  match text.toList with
  | '+' :: rest => unsigned? rest
  | '-' :: rest => (unsigned? rest).map Float.neg
  | rest => unsigned? rest

end Decimal

end SimpleLang
