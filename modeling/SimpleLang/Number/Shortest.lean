/-!
# Writing floating-point numbers

`Shortest.text` writes a float with the fewest digits that read back as the same float, always
positionally and always with a point.

A finite nonzero float is `m * 2 ^ e`. The reals that round to it form an interval whose ends are
halfway to its neighbours and belong to it exactly if `m` is even. `Shortest.digits` looks for the
coarsest grid `10 ^ k` with a point in that interval and takes the point nearest to the float; of
two equally near ones it takes the upper.
-/

namespace SimpleLang

namespace Shortest

open Float.Model.UnpackedFloat (Sign)

/-- A float and the reals that round to it, over a common denominator. -/
structure Interval where
  low : Nat
  value : Nat
  high : Nat
  denominator : Nat
  /-- Whether the ends round to the float too. -/
  closed : Bool

/-- The interval of the float `m * 2 ^ e`. The gap below a power of two is half as wide as the gap
above, unless the number below is subnormal. -/
def interval (m : Nat) (e : Int) : Interval :=
  -- four times the value, so that the halfway points are whole numbers too
  let narrow := m = Nat.pow 2 52 ∧ -1074 < e
  let up := Nat.pow 2 (e - 2).toNat
  { low := (4 * m - if narrow then 1 else 2) * up
    value := 4 * m * up
    high := (4 * m + 2) * up
    denominator := Nat.pow 2 (2 - e).toNat
    closed := m % 2 = 0 }

/-- The point of the grid `10 ^ k` in the interval that is nearest to the value, in units of
`10 ^ k`. -/
def onGrid? (i : Interval) (k : Int) : Option Nat :=
  let scale := Nat.pow 10 (-k).toNat
  let unit := i.denominator * Nat.pow 10 k.toNat
  let low := i.low * scale
  let value := i.value * scale
  let high := i.high * scale
  let below := value / unit
  let above := below + 1
  let belowFits := if i.closed then low ≤ below * unit else low < below * unit
  let aboveFits := if i.closed then above * unit ≤ high else above * unit < high
  if aboveFits ∧ (¬ belowFits ∨ above * unit - value ≤ value - below * unit) then some above
  else if belowFits then some below
  else none

/-- The first grid with a point in the interval, from `10 ^ k` downwards. -/
def search (i : Interval) : Nat → Int → Nat × Int
  | 0, k => (i.value * Nat.pow 10 (-k).toNat / (i.denominator * Nat.pow 10 k.toNat), k)
  | fuel + 1, k =>
    match onGrid? i k with
    | some d => (d, k)
    | none => search i fuel (k - 1)

/-- Digits `d` and an exponent `k` such that `d * 10 ^ k` is the shortest decimal for the float
`m * 2 ^ e`. The search starts at a power of ten above the float; seventeen digits always do. -/
def digits (m : Nat) (e : Int) : Nat × Int :=
  search (interval m e) 24 ((m.log2 + e + 1) * 30103 / 100000 + 2)

/-- Writes `d * 10 ^ k` positionally, with a digit on both sides of the point. -/
def positional (d : Nat) (k : Int) : String :=
  let text := Nat.toDigits 10 d
  let places := (-k).toNat
  if places = 0 then String.ofList (text ++ List.replicate k.toNat '0' ++ ['.', '0'])
  else
    let padded := List.replicate (places + 1 - text.length) '0' ++ text
    let cut := padded.length - places
    String.ofList (padded.take cut ++ '.' :: padded.drop cut)

def signText : Sign → String
  | .positive => ""
  | .negative => "-"

/-- The text of a float. What is not finite has a name instead of digits, which is no literal of the
language. -/
def text (x : Float) : String :=
  match x.toModel.unpack with
  | .notANumber => "NaN"
  | .infinity s => signText s ++ "inf"
  | .zero s => signText s ++ "0.0"
  | .finite s m e _ =>
    let (d, k) := digits m e
    signText s ++ positional d k

end Shortest

end SimpleLang
