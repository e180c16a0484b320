import TrackLayout.Decimal.Stepwise
import TrackLayout.Decimal.Style

/-!
# JSON values

A value keeps what its text says: numerals with their digits, members of an
object in order and with repetitions. A string literal may hold an unpaired
surrogate, which no `String` can; its content is then `none`.

What documents look like and which are accepted is that of serde_json 1.0
without its feature `float_roundtrip`. Taken as given of it: numbers are
written with the shortest digits that read back (`NumberStyle.json`) but read
in steps (`Numeral.inSteps?`), so that reading need not give back what was
written; a number that is not finite is written as null; a value that is read
without a type must be plain (`isPlain`), so it may not be nested too deep.
-/
set_option autoImplicit false

namespace TrackLayout

inductive Json where
  | null
  | bool (value : Bool)
  | number (value : Numeral)
  | string (content : Option String)
  | array (items : List Json)
  | object (members : List (Option String × Json))
  deriving Inhabited

namespace Json

def text (s : String) : Json := .string (some s)

def ofNat (n : Nat) : Json := .number (.ofNat n)

def ofInt (n : Int) : Json := .number (.ofInt n)

/-- A number that is not finite has no numeral and is written as null. -/
def ofFloat (x : Float) : Json := (NumberStyle.json.numeral? x).elim .null .number

def ofOption {α : Type} (write : α → Json) (x : Option α) : Json := x.elim .null write

def ofList {α : Type} (write : α → Json) (xs : List α) : Json := .array (xs.map write)

def record (members : List (String × Json)) : Json := .object (members.map fun m => (some m.1, m.2))

/-- Whether the value survives being read without a type: its strings are strings, its numbers are
in range, and it is nested at most `room` deep. -/
def isPlain (room : Nat) : Json → Bool
  | .null | .bool _ => true
  | .number n => n.inSteps?.isSome
  | .string s => s.isSome
  | .array items => match room with
    | 0 => false
    | room + 1 => arePlain room items
  | .object members => match room with
    | 0 => false
    | room + 1 => membersArePlain room members
where
  arePlain (room : Nat) : List Json → Bool
    | [] => true
    | v :: rest => isPlain room v && arePlain room rest
  membersArePlain (room : Nat) : List (Option String × Json) → Bool
    | [] => true
    | (key, v) :: rest => key.isSome && isPlain room v && membersArePlain room rest

end Json

end TrackLayout
