/-!
# Scalars

Height rules and distances are formulas over any type with the operations
below. The network evaluates them on `Float`; a law about the formulas
themselves can be stated where arithmetic is exact. No axiom about the
operations is assumed here.
-/
set_option autoImplicit false

namespace TrackLayout

class Scalar (α : Type) extends Add α, Sub α, Mul α, Div α, Neg α, OfScientific α where
  /-- Strictly below; false if either side is undefined. -/
  below : α → α → Bool
  isZero : α → Bool
  /-- Whether a value is the result of an operation without a number as its answer. -/
  isUndefined : α → Bool
  abs : α → α
  larger : α → α → α
  /-- Length of the hypotenuse over two legs. -/
  hypot : α → α → α

end TrackLayout
