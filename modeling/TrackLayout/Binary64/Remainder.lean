import TrackLayout.Binary64

/-!
# Remainders

The remainder of a division that truncates is exact: both operands are
integer multiples of one power of two. Only the shift of a negative remainder
into the range from zero to the divisor may round.
-/
set_option autoImplicit false

namespace TrackLayout.Binary64

/-- Remainder of a truncating division, with the sign of the dividend. -/
def remainder (a b : Float) : Float :=
  match dyadic? a, dyadic? b with
  | some x, some y =>
    if y.isZero then nan
    else
      let e := min x.exponent y.exponent
      let m := x.mantissa <<< (x.exponent - e).toNat
      let n := y.mantissa <<< (y.exponent - e).toNat
      nearest x.negative (m % n) e
  | some _, none => if b.isNaN then nan else a
  | none, _ => nan

/-- Remainder moved up by the size of the divisor if it is negative. -/
def floorRemainder (a b : Float) : Float :=
  let r := remainder a b
  if r < 0.0 then r + b.abs else r

end TrackLayout.Binary64
