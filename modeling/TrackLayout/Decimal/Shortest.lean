import TrackLayout.Binary64

/-!
# Shortest decimals

Among the decimals that read back to a given binary64 value, those with the
fewest digits come first, and of these the one nearest to the value. Two
neighbours of the value on each power-of-ten grid are tested in exact integer
arithmetic, from the coarsest grid that has a leading digit to the finest one
that can be needed.
-/
set_option autoImplicit false

namespace TrackLayout

/-- The number `coefficient · 10^exponent`. -/
structure Decimal where
  coefficient : Nat
  exponent : Int
  deriving DecidableEq

/-- Which of two equally near neighbours is taken. -/
inductive Tie where
  | even
  | up
  deriving DecidableEq

namespace Decimal

/-- `n / d`. -/
structure Fraction where
  num : Nat
  den : Nat

/-- `m · 2^e · 10^-k` as a fraction. -/
def Fraction.scaled (m : Nat) (e k : Int) : Fraction where
  num := m * Nat.pow 2 e.toNat * Nat.pow 10 (-k).toNat
  den := Nat.pow 2 (-e).toNat * Nat.pow 10 k.toNat

def Fraction.floor (f : Fraction) : Nat := f.num / f.den

/-- Whether `d` lies above, at or below the fraction. -/
def Fraction.compareNat (f : Fraction) (d : Nat) : Ordering := compare (d * f.den) f.num

/-- Exponent of the leading decimal digit of `m · 2^e`, for `0 < m`. -/
def leading (m : Nat) (e : Int) : Int :=
  let estimate := ((m.log2 + e) * 30103) / 100000
  if (Fraction.scaled m e (estimate + 1)).floor = 0 then
    if (Fraction.scaled m e estimate).floor = 0 then estimate - 1 else estimate
  else estimate + 1

/-- The reals that round to `m · 2^e`; its ends belong to it when `m` is even. -/
structure RoundingInterval where
  mantissa : Nat
  exponent : Int

namespace RoundingInterval

/-- Whether the neighbour below is only half as far away as the one above. -/
def isNarrow (i : RoundingInterval) : Bool := i.mantissa == Nat.pow 2 52 && -1074 < i.exponent

def holds (i : RoundingInterval) (k : Int) (d : Nat) : Bool :=
  let lower := Fraction.scaled (4 * i.mantissa - if i.isNarrow then 1 else 2) (i.exponent - 2) k
  let upper := Fraction.scaled (4 * i.mantissa + 2) (i.exponent - 2) k
  match lower.compareNat d, upper.compareNat d with
  | .gt, .lt => true
  | .eq, _ | _, .eq => i.mantissa % 2 == 0
  | _, _ => false

/-- The multiple of `10^k` inside the interval nearest to its value, if one of the two neighbours is
inside. -/
def onGrid (i : RoundingInterval) (tie : Tie) (k : Int) : Option Nat :=
  let low := (Fraction.scaled i.mantissa i.exponent k).floor
  match i.holds k low, i.holds k (low + 1) with
  | false, false => none
  | true, false => some low
  | false, true => some (low + 1)
  | true, true =>
    match (Fraction.scaled (2 * i.mantissa) i.exponent k).compareNat (2 * low + 1) with
    | .gt => some low
    | .lt => some (low + 1)
    | .eq => some (if tie = .even && low % 2 == 0 then low else low + 1)

/-- First hit on the grids from `10^k` downwards. -/
def search (i : RoundingInterval) (tie : Tie) : Nat → Int → Decimal
  | 0, k => ⟨(Fraction.scaled i.mantissa i.exponent k).floor, k⟩
  | grids + 1, k =>
    match i.onGrid tie k with
    | some d => ⟨d, k⟩
    | none => i.search tie grids (k - 1)

end RoundingInterval

/-- Seventeen digits are enough for every binary64 value. -/
def shortest (tie : Tie) (m : Nat) (e : Int) : Decimal :=
  if m = 0 then ⟨0, 0⟩
  else
    let d := RoundingInterval.search ⟨m, e⟩ tie 17 (leading m e)
    if d.coefficient = 10 then ⟨1, d.exponent + 1⟩ else d

end Decimal

end TrackLayout
