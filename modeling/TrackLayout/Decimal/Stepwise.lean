import TrackLayout.Decimal.Numeral

/-!
# Reading numerals in steps

The value of a numeral in a document is found with one word of digits and one
scaling by a power of ten. The digits that fit are taken as one whole number,
that number is rounded, and the scaled value is rounded again. The result is
the nearest `Float` where the number and the power of ten are exact, that is
for words below `2^53` and powers up to `10^22`; elsewhere it may be some last
places off. This is how serde_json 1.0 reads a number if its feature
`float_roundtrip` is not chosen.
-/
set_option autoImplicit false

namespace TrackLayout

/-- A word of leading digits and the power of ten that scales it. -/
structure Scaled where
  word : Nat
  exponent : Int
  deriving DecidableEq

namespace Scaled

/-- The greatest word. -/
def wordLimit : Nat := Nat.pow 2 64 - 1

/-- Appends digits to a word until one does not fit; the digits from there on are left. -/
def take (word : Nat) : List Digit → Nat × List Digit
  | [] => (word, [])
  | d :: rest =>
    if 10 * word + d.val ≤ wordLimit then take (10 * word + d.val) rest else (word, d :: rest)

/-- Digits before the point that do not fit leave their places behind, those after it leave nothing. -/
def ofNumeral (n : Numeral) : Scaled :=
  let (word, places) := take 0 n.wholeDigits
  let (word, dropped) := take word n.fraction
  ⟨word, n.exponent.getD 0 + places.length - (n.fraction.length - dropped.length)⟩

/-- The greatest power of ten that scales in one step. -/
def greatestPower : Nat := 308

def powerOfTen (n : Nat) : Float := .ofScientific 1 false n

/-- `x · 10^n`, unless it is out of range. -/
def enlarge? (x : Float) (n : Nat) : Option Float :=
  if n ≤ greatestPower then (some (x * powerOfTen n)).filter Float.isFinite
  else if x == 0.0 then some x else none

/-- `x / 10^n` in at most two steps; a word is nothing beside the square of the greatest power. -/
def diminish (x : Float) (n : Nat) : Float :=
  if n ≤ greatestPower then x / powerOfTen n
  else if n ≤ 2 * greatestPower then x / powerOfTen greatestPower / powerOfTen (n - greatestPower)
  else 0.0

/-- The value in steps; none if it is out of range. -/
def toFloat? (s : Scaled) : Option Float :=
  let x := Binary64.nearest false s.word 0
  match s.exponent with
  | .ofNat n => enlarge? x n
  | .negSucc n => some (diminish x (n + 1))

end Scaled

/-- The value of a numeral in a document; none if it is out of range. -/
def Numeral.inSteps? (n : Numeral) : Option Float :=
  (Scaled.ofNumeral n).toFloat?.map fun x => if n.negative then -x else x

end TrackLayout
