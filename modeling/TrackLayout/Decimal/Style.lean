import TrackLayout.Decimal.Numeral
import TrackLayout.Decimal.Shortest

/-!
# Number styles

How a finite `Float` becomes a numeral. All styles write the shortest digits
that read back; they differ in where positional writing ends, in whether a
whole number keeps its point, and in the sign of an exponent.
-/
set_option autoImplicit false

namespace TrackLayout

/-- The last `count` digits of `n`, zeros included. -/
def lastDigits (n : Nat) : Nat → List Digit
  | 0 => []
  | count + 1 => lastDigits (n / 10) count ++ [Fin.ofNat 10 n]

structure NumberStyle where
  /-- Which exponents of the leading digit are written without an exponent. -/
  positional : Int → Bool
  /-- Whether a whole number is written with a point and a zero. -/
  pointed : Bool
  /-- Whether a positive exponent carries a sign. -/
  plus : Bool
  tie : Tie

namespace NumberStyle

/-- Leading exponents from -5 to 15 are positional, `2.0` keeps its point, `1e+16` its sign. -/
def json : NumberStyle := ⟨fun e => -5 ≤ e && e ≤ 15, true, true, .even⟩

/-- As in JSON, but the exponent has no plus sign. -/
def csv : NumberStyle := { json with plus := false }

/-- Numbers in messages: never an exponent, and no point in a whole number. -/
def plain : NumberStyle := ⟨fun _ => true, false, false, .up⟩

def numeral (style : NumberStyle) (negative : Bool) (d : Decimal) : Numeral :=
  let places := (Nat.toDigits 10 d.coefficient).length - 1
  let leading := d.exponent + places
  if style.positional leading then
    if 0 ≤ d.exponent then
      ⟨negative, d.coefficient * Nat.pow 10 d.exponent.toNat, if style.pointed then [Digit.ofChar '0'] else [], none⟩
    else
      let behind := (-d.exponent).toNat
      ⟨negative, d.coefficient / Nat.pow 10 behind, lastDigits d.coefficient behind, none⟩
  else ⟨negative, d.coefficient / Nat.pow 10 places, lastDigits d.coefficient places, some leading⟩

/-- The numeral of a finite value. -/
def numeral? (style : NumberStyle) (x : Float) : Option Numeral :=
  (Binary64.dyadic? x).map fun v => style.numeral v.negative (.shortest style.tie v.mantissa v.exponent)

/-- The names of the values that have no numeral. -/
def nonfinite (x : Float) : String :=
  if x.isNaN then "NaN" else if x < 0.0 then "-inf" else "inf"

def write (style : NumberStyle) (x : Float) : String :=
  match style.numeral? x with
  | some n => .ofList (n.chars style.plus)
  | none => nonfinite x

end NumberStyle

/-- The numeral with one digit after the point nearest to `m · 2^e`, a tie going to the even digit. -/
def Numeral.tenths (v : Binary64.Dyadic) : Numeral :=
  let x := Decimal.Fraction.scaled (10 * v.mantissa) v.exponent 0
  let low := x.num / x.den
  let n := match compare (2 * (x.num % x.den)) x.den with
    | .lt => low
    | .eq => low + low % 2
    | .gt => low + 1
  ⟨v.negative, n / 10, lastDigits n 1, none⟩

/-- A coordinate in a warning. -/
def writeTenths (x : Float) : String :=
  match Binary64.dyadic? x with
  | some v => .ofList ((Numeral.tenths v).chars false)
  | none => NumberStyle.nonfinite x

end TrackLayout
