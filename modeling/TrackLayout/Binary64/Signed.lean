import TrackLayout.Binary64.Hypotenuse

/-!
# Undefined values with a sign

A `Float` that is not a number has no sign, yet an order of all values puts
one below every number if it is negative and above every number otherwise.
Here the sign is kept beside the value: given values count as positive, an
operation on numbers without an answer yields a negative one, and what is
computed from an undefined value inherits its sign. The values themselves are
those of `Float`.
-/
set_option autoImplicit false

namespace TrackLayout.Binary64

structure Signed where
  value : Float
  /-- The sign if `value` is not a number, and of no meaning otherwise. -/
  negative : Bool

namespace Signed

def given (x : Float) : Signed := ⟨x, false⟩

/-- An operation on values, the result inheriting from the left operand before the right one. -/
def combine (op : Float → Float → Float) (a b : Signed) : Signed :=
  ⟨op a.value b.value,
    if a.value.isNaN then a.negative else if b.value.isNaN then b.negative else true⟩

/-- Position in the order of all values, those that are not a number at either end by their sign. -/
def rank (a : Signed) : Int := if a.value.isNaN && a.negative then -Int.pow 2 64 else Binary64.rank a.value

instance : Scalar Signed where
  add := combine (· + ·)
  sub := combine (· - ·)
  mul := combine (· * ·)
  div := combine (· / ·)
  neg a := ⟨-a.value, !a.negative⟩
  ofScientific m s e := given (OfScientific.ofScientific m s e)
  below a b := a.value < b.value
  isZero a := a.value == 0.0
  isUndefined a := a.value.isNaN
  abs a := given a.value.abs
  larger a b := if b.value.isNaN || b.value < a.value then a else b
  hypot a b := given (Binary64.hypot a.value b.value)

theorem value_add (a b : Signed) : (a + b).value = a.value + b.value := rfl

theorem value_sub (a b : Signed) : (a - b).value = a.value - b.value := rfl

theorem value_neg (a : Signed) : (-a).value = -a.value := rfl

theorem value_larger (a b : Signed) :
    (Scalar.larger a b).value = Scalar.larger a.value b.value := by
  simp only [Scalar.larger, Binary64.maximum]
  split <;> rfl

/-- The sign decides only among values that are not numbers. -/
theorem rank_of_isNaN_eq_false {a : Signed} (h : a.value.isNaN = false) :
    a.rank = Binary64.rank a.value := by
  rw [rank, h]
  rfl

end Signed

end TrackLayout.Binary64
