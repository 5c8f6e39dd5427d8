import SimpleLang.Machine.Fault
import SimpleLang.Number.Integer
import SimpleLang.Number.Remainder

/-!
# Operators on values

What an operation makes of two values. Equality takes any two values, a plus sign joins texts as
soon as one side is a string, and otherwise two integers, two numbers or two strings are needed.
Logical operations are not among these: they decide themselves whether the right operand is asked
for.
-/

namespace SimpleLang

namespace Operation

/-- What a comparison says about an order, if `op` is one. Integers and strings have such an order,
floats do not: see `onFloats?`. -/
def ofOrdering? (op : Operation) (o : Ordering) : Option Bool :=
  match op with
  | .lt => some o.isLT
  | .gt => some o.isGT
  | .le => some o.isLE
  | .ge => some o.isGE
  | _ => none

/-- An operation on two integers. Arithmetic is exact and then checked against the range
(`Integers.check`), so it cannot wrap. -/
def onIntegers (range : Integers) (op : Operation) (a b : Int) : Except Fault Value :=
  let checked (result : Option Int) : Except Fault Value :=
    match result with
    | some n => .ok (.int n)
    | none => .error (.overflow op a b)
  match op with
  | .add => checked (range.check (a + b))
  | .sub => checked (range.check (a - b))
  | .mul => checked (range.check (a * b))
  | .div =>
    if b = 0 then .error (.divisionByZero op a b) else checked (range.check (a.tdiv b))
  | .mod =>
    if b = 0 then .error (.divisionByZero op a b) else checked (range.remainder a b)
  | _ =>
    -- what is left are comparisons, and operations that integers do not have
    match op.ofOrdering? (compare a b) with
    | some result => .ok (.bool result)
    | none => .error (.notOnIntegers op)

/-- An operation on two floats, if there is one. A comparison is not read off an `Ordering`, since
every comparison with a NaN is false. -/
def onFloats? (op : Operation) (a b : Float) : Option Value :=
  match op with
  | .add => some (.float (a + b))
  | .sub => some (.float (a - b))
  | .mul => some (.float (a * b))
  | .div => some (.float (a / b))
  | .mod => some (.float (Remainder.float a b))
  | .lt => some (.bool (decide (a < b)))
  | .gt => some (.bool (decide (b < a)))
  | .le => some (.bool (decide (a ≤ b)))
  | .ge => some (.bool (decide (b ≤ a)))
  | _ => none

/-- An operation on two values of which neither equality nor joining texts is asked. A number is
made a float only if the other one is no integer. -/
def onOperands (range : Integers) (op : Operation) (left right : Value) : Except Fault Value :=
  let mismatch : Except Fault Value := .error (.mismatch op left.type right.type)
  match left, right with
  | .int a, .int b => op.onIntegers range a b
  | .string a, .string b =>
    match op.ofOrdering? (compare a b) with
    | some result => .ok (.bool result)
    | none => mismatch
  | _, _ =>
    match left.toFloat?, right.toFloat? with
    | some a, some b =>
      match op.onFloats? a b with
      | some v => .ok v
      | none => mismatch
    | _, _ => mismatch

/-- An operation on two values. Equality and joining texts come first, as they take operands that
the others refuse. -/
def apply (range : Integers) (op : Operation) (left right : Value) : Except Fault Value :=
  match op, left, right with
  | .eq, a, b => .ok (.bool (a.equals b))
  | .ne, a, b => .ok (.bool !(a.equals b))
  | .add, .string a, b => .ok (.string (a ++ b.text))
  | .add, a, .string b => .ok (.string (a.text ++ b))
  | op, a, b => op.onOperands range a b

def negate (op : Operation) (v : Value) : Except Fault Value :=
  match op, v with
  | .not, .bool b => .ok (.bool !b)
  | op, v => .error (.notNegatable op v.type)

end Operation

end SimpleLang
