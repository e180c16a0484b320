/-!
# Binary64 values as dyadic numbers

A finite `Float` is a sign and `m · 2^e`. This module reads the pair off,
rounds an arbitrary pair to the nearest `Float`, and orders all values. The
arithmetic operators themselves are those of `Float`.
-/
set_option autoImplicit false

namespace TrackLayout.Binary64

open Float.Model (UnpackedFloat)
open Float.Model.UnpackedFloat (Sign)

def nan : Float := 0.0 / 0.0

def infinity : Float := 1.0 / 0.0

def Sign.ofBool (negative : Bool) : Sign := if negative then .negative else .positive

/-- The `Float` nearest to `m · 2^e` with the given sign; a tie goes to the even mantissa. -/
def nearest (negative : Bool) (m : Nat) (e : Int) : Float :=
  .ofModel (.pack (.round .binary64 (Sign.ofBool negative) m e))

/-- A finite value as `± m · 2^e`. -/
structure Dyadic where
  negative : Bool
  mantissa : Nat
  exponent : Int

def Dyadic.isZero (d : Dyadic) : Bool := d.mantissa == 0

/-- `none` for the infinities and for a value that is not a number. -/
def dyadic? (x : Float) : Option Dyadic :=
  match x.toModel.unpack with
  | .infinity _ | .notANumber => none
  | .zero s => some ⟨s == .negative, 0, 0⟩
  | .finite s m e _ => some ⟨s == .negative, m, e⟩

/-- The value of the 32 bits of a single-precision number, all of which are exact here too. -/
def ofSingle (bits : Nat) : Float :=
  let negative := bits / Nat.pow 2 31 % 2 == 1
  let exponent := bits / Nat.pow 2 23 % Nat.pow 2 8
  let fraction := bits % Nat.pow 2 23
  if exponent = 255 then if fraction != 0 then nan else if negative then -infinity else infinity
  else if exponent = 0 then nearest negative fraction (-149)
  else nearest negative (fraction + Nat.pow 2 23) (Int.ofNat exponent - 150)

/-- Whether the sign bit is set, which tells `-0.0` from `0.0`. -/
def isNegative (x : Float) : Bool := Nat.pow 2 63 ≤ x.toBits.toNat

/-- Position in the order of all values, `-0.0` right before `0.0` and not-a-number last. -/
def rank (x : Float) : Int :=
  if isNegative x then Int.pow 2 63 - 1 - (x.toBits.toNat : Int) else x.toBits.toNat

/-- The lesser of two values; one that is not a number gives way, and of equal values, which two zeros
of different sign are, the second is kept. -/
def minimum (a b : Float) : Float := if b.isNaN || a < b then a else b

/-- The greater of two values, by the same rules as `minimum`. -/
def maximum (a b : Float) : Float := if b.isNaN || b < a then a else b

/-- Sum from left to right; the sum of nothing is `-0.0`. -/
def sum (xs : List Float) : Float := xs.foldl (· + ·) (-0.0)

end TrackLayout.Binary64
