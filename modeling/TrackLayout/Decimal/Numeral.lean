import TrackLayout.Binary64

/-!
# Decimal numerals

A numeral is a written decimal number: its digits and its exponent, not only
its value. Every text that holds numbers is made of numerals. A numeral has
an exact value, and `toFloat` is the `Float` nearest to it.
-/
set_option autoImplicit false

namespace TrackLayout

abbrev Digit := Fin 10

def Digit.char (d : Digit) : Char := d.val.digitChar

/-- The digit a character stands for; a character that is no digit counts as its code modulo ten. -/
def Digit.ofChar (c : Char) : Digit := Fin.ofNat 10 (c.toNat - '0'.toNat)

structure Numeral where
  negative : Bool
  whole : Nat
  /-- Digits after the point; without any there is no point. -/
  fraction : List Digit
  exponent : Option Int
  deriving DecidableEq

namespace Numeral

def ofNat (n : Nat) : Numeral := ⟨false, n, [], none⟩

def ofInt (n : Int) : Numeral := ⟨n < 0, n.natAbs, [], none⟩

/-- The digits before the point. -/
def wholeDigits (n : Numeral) : List Digit := (Nat.toDigits 10 n.whole).map Digit.ofChar

/-- All digits as one whole number. -/
def coefficient (n : Numeral) : Nat := n.fraction.foldl (fun m d => 10 * m + d.val) n.whole

/-- The power of ten by which `coefficient` is scaled. -/
def scale (n : Numeral) : Int := n.exponent.getD 0 - n.fraction.length

def toFloat (n : Numeral) : Float :=
  let size := Float.ofScientific n.coefficient (n.scale < 0) n.scale.natAbs
  if n.negative then -size else size

/-- The integer a numeral without point and exponent stands for; a negative zero is none. -/
def toInt? (n : Numeral) : Option Int :=
  if !n.fraction.isEmpty || n.exponent.isSome || (n.negative && n.whole == 0) then none
  else some (if n.negative then -(n.whole : Int) else n.whole)

def natChars (n : Nat) : List Char := Nat.toDigits 10 n

/-- The written form; `plus` is whether an exponent of zero or more carries a sign. -/
def chars (plus : Bool) (n : Numeral) : List Char :=
  let sign := if n.negative then ['-'] else []
  let fraction := if n.fraction.isEmpty then [] else '.' :: n.fraction.map Digit.char
  let exponent := match n.exponent with
    | none => []
    | some (.ofNat e) => 'e' :: (if plus then ['+'] else []) ++ natChars e
    | some (.negSucc e) => 'e' :: '-' :: natChars (e + 1)
  sign ++ natChars n.whole ++ fraction ++ exponent

end Numeral

end TrackLayout
