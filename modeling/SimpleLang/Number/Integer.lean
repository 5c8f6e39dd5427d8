/-!
# Integers of the language

Integer literals take 64 bits with a sign. Arithmetic is exact and then checked against a range,
so `Integers` says which range that is: the 64-bit one, or none at all, which gives the integers of
mathematics. Division and remainder round toward zero.

* `Integer.read?` reads a literal.
* `Integers.fits` is the range check of an exact result.
-/

namespace SimpleLang

namespace Integer

def digitValue (c : Char) : Nat := c.toNat - '0'.toNat

/-- The number that a run of digits writes. -/
def ofDigits (digits : List Char) : Nat :=
  digits.foldl (fun n c => 10 * n + digitValue c) 0

/-- The number that the text writes, if it is a nonempty run of digits. -/
def digits? (text : List Char) : Option Nat :=
  if text ≠ [] ∧ text.all Char.isDigit then some (ofDigits text) else none

def least : Int := -0x8000000000000000

def greatest : Int := 0x7fffffffffffffff

/-- Whether a number fits 64 bits with a sign. -/
def inRange (n : Int) : Bool := least ≤ n && n ≤ greatest

def ofInt? (n : Int) : Option Int64 :=
  if inRange n then some (Int64.ofInt n) else none

/-- Reads a decimal literal: at most one sign, then digits, and the value fits 64 bits. -/
def read? (text : String) : Option Int64 :=
  match text.toList with
  | '+' :: digits => digits? digits >>= fun n => ofInt? n
  | '-' :: digits => digits? digits >>= fun n => ofInt? (-n)
  | digits => digits? digits >>= fun n => ofInt? n

end Integer

inductive Integers where
  /-- Signed 64-bit integers, with every overflow detected. -/
  | bits64
  /-- The integers of mathematics. -/
  | unbounded
deriving DecidableEq, Repr

namespace Integers

def fits : Integers → Int → Bool
  | bits64, n => Integer.inRange n
  | unbounded, _ => true

/-- An exact result, unless the machine cannot hold it. -/
def check (range : Integers) (n : Int) : Option Int :=
  if range.fits n then some n else none

/-- Remainder of the division that rounds toward zero. It overflows exactly where the division
itself does, although the remainder would be small. -/
def remainder (range : Integers) (a b : Int) : Option Int :=
  if range.fits (a.tdiv b) then some (a.tmod b) else none

end Integers

end SimpleLang
