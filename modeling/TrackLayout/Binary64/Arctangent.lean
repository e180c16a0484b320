import TrackLayout.Binary64

/-!
# Direction of a vector

The angle of a vector to the positive x axis, rounded to the nearest `Float`.
The angle is computed from below as an integer multiple of a small power of
two, by Euler's series, whose terms are all positive:

  atan t = Σ 2^(2n) (n!)² / (2n+1)! · t^(2n+1) / (1+t²)^(n+1)

Every truncation goes down, so the integer stays below the true angle by far
less than any angle of two `Float` legs is away from a rounding boundary. That
last distance is not proved here.

How exact an angle is differs between platforms, and correct rounding is one
choice of many. Results about all networks use no more of it than that the
same legs always give the same direction; the value itself is only met where a
fixed network is evaluated.
-/
set_option autoImplicit false

namespace TrackLayout.Binary64

/-- Binary digits computed beyond the leading one. -/
def workingBits : Nat := 192

/-- More than the sum of all truncations of one series, in units of the last working digit. -/
def truncation : Nat := 4096

/-- Rest of the series from term `n` on; `ratio` is `t² / (1+t²)` in units of `2^-bits`. -/
def eulerTail (bits ratio : Nat) : Nat → Nat → Nat → Nat
  | 0, _, _ => 0
  | fuel + 1, n, term =>
    if term = 0 then 0
    else term + eulerTail bits ratio fuel (n + 1) (term * (2 * (n + 1)) * ratio / ((2 * n + 3) <<< bits))

/-- `atan (p/q)` in units of `2^-bits`, from below, for `p ≤ q`. -/
def arctangent (bits p q : Nat) : Nat :=
  let square := p * p + q * q
  eulerTail bits (((p * p) <<< bits) / square) (bits + 8) 0 (((p * q) <<< bits) / square)

/-- Half a turn in units of `2^-workingBits`, from below. -/
def halfTurn : Nat := 4 * arctangent workingBits 1 1

/-- The angle of legs `x` and `y`, neither of them zero or infinite, as a magnitude in `(0, π)`. -/
def obliqueAngle (negative : Bool) (x y : Dyadic) : Float :=
  let e := min x.exponent y.exponent
  let across := x.mantissa <<< (x.exponent - e).toNat
  let up := y.mantissa <<< (y.exponent - e).toNat
  if up ≤ across then
    if x.negative then
      nearest negative (halfTurn - (arctangent workingBits up across + truncation)) (-workingBits)
    else
      let bits := workingBits + (across.log2 - up.log2)
      nearest negative (arctangent bits up across) (-bits)
  else
    let small := arctangent workingBits across up
    let angle := if x.negative then halfTurn / 2 + small else halfTurn / 2 - (small + truncation)
    nearest negative angle (-workingBits)

/-- `quarters · π/4` with a sign. -/
def quarterTurns (negative : Bool) (quarters : Nat) : Float :=
  nearest negative (quarters * halfTurn) (-(workingBits + 2))

/-- Angle of the vector `(x, y)` in `[-π, π]`, with the sign of `y` also where `y` is a zero. -/
def direction (y x : Float) : Float :=
  if x.isNaN || y.isNaN then nan
  else
    let below := isNegative y
    match dyadic? x, dyadic? y with
    | none, none => quarterTurns below (if isNegative x then 3 else 1)
    | none, some _ => quarterTurns below (if isNegative x then 4 else 0)
    | some _, none => quarterTurns below 2
    | some a, some b =>
      if b.isZero then quarterTurns below (if a.negative then 4 else 0)
      else if a.isZero then quarterTurns below 2
      else obliqueAngle below a b

end TrackLayout.Binary64
