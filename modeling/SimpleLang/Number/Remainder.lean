/-!
# Remainder of floating-point numbers

`Remainder.float x y` is `x` less the multiple of `y` next to it toward zero. It has the sign of
`x`, and it is always a float itself, so nothing is rounded.
-/

namespace SimpleLang

namespace Remainder

open Float.Model (UnpackedFloat Format)
open Float.Model.UnpackedFloat (Sign)

/-- The float `± r * 2 ^ e`, where the sign also tells the two zeros apart. -/
def signed (sign : Sign) (r : Nat) (e : Int) : UnpackedFloat :=
  if r = 0 then .zero sign else .round Format.binary64 sign r e

/-- The remainder on unpacked floats: both numbers are brought to the smaller exponent, where the
remainder is one of natural numbers. -/
def unpacked : UnpackedFloat → UnpackedFloat → UnpackedFloat
  | .finite s m e _, .finite _ n f _ =>
    let g := min e f
    signed s (m * Nat.pow 2 (e - g).toNat % (n * Nat.pow 2 (f - g).toNat)) g
  | x@(.finite ..), .infinity _ => x
  | .zero s, .finite .. => .zero s
  | .zero s, .infinity _ => .zero s
  | _, _ => .notANumber

def float (x y : Float) : Float :=
  Float.ofModel (.pack (unpacked x.toModel.unpack y.toModel.unpack))

end Remainder

end SimpleLang
