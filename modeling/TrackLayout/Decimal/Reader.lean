import TrackLayout.Decimal.Numeral

/-!
# Numbers that stand alone

The grammar of a text that is one number and nothing else: a sign, digits
around a point, an exponent, or the name of a value without digits. Zeros may
lead, and the point may stand first or last as long as there is a digit. A
format that allows less, as JSON does, has a grammar of its own and shares the
runs of digits and the exponent.
-/
set_option autoImplicit false

namespace TrackLayout

namespace Numeral

def digits (cs : List Char) : List Char × List Char := cs.span Char.isDigit

def exponentDigits? (negative : Bool) (cs : List Char) : Option (Option Int × List Char) :=
  match digits cs with
  | ([], _) => none
  | (ds, rest) =>
    let e : Int := Nat.ofDigitChars 10 ds 0
    some (some (if negative then -e else e), rest)

def exponent? : List Char → Option (Option Int × List Char)
  | c :: rest =>
    if c = 'e' ∨ c = 'E' then
      match rest with
      | '-' :: rest => exponentDigits? true rest
      | '+' :: rest => exponentDigits? false rest
      | rest => exponentDigits? false rest
    else some (none, c :: rest)
  | [] => some (none, [])

/-- The digits on both sides of an optional point, at least one in all. -/
def digitsAroundPoint? (cs : List Char) : Option (List Char × List Char × List Char) :=
  let (whole, rest) := digits cs
  let (fraction, rest) := match rest with
    | '.' :: rest => digits rest
    | rest => ([], rest)
  if whole.isEmpty && fraction.isEmpty then none else some (whole, fraction, rest)

/-- The numeral that all of the characters spell. -/
def ofUnsigned? (negative : Bool) (cs : List Char) : Option Numeral := do
  let (whole, fraction, rest) ← digitsAroundPoint? cs
  let (exponent, rest) ← exponent? rest
  if rest.isEmpty then
    some ⟨negative, Nat.ofDigitChars 10 whole 0, fraction.map Digit.ofChar, exponent⟩
  else none

end Numeral

namespace Binary64

/-- The values that have no digits, whose names may be written in letters of either case. -/
def ofName? (name : String) : Option Float :=
  if name == "inf" || name == "infinity" then some infinity
  else if name == "nan" then some nan
  else none

def ofUnsigned? (negative : Bool) (cs : List Char) : Option Float :=
  match Numeral.ofUnsigned? negative cs with
  | some n => some n.toFloat
  | none =>
    (ofName? (.ofList (cs.map Char.toLower))).map fun x => if negative then -x else x

/-- The `Float` nearest to the number a text is. -/
def ofString? (s : String) : Option Float :=
  match s.toList with
  | '-' :: cs => ofUnsigned? true cs
  | '+' :: cs => ofUnsigned? false cs
  | cs => ofUnsigned? false cs

end Binary64

end TrackLayout
