import Mathlib.Analysis.Real.Sqrt
import TrackLayout.Proofs.Binary64.Rounding
import TrackLayout.Scalar

/-!
# Exact scalars

The operations of scalars on real numbers, where nothing is rounded and
nothing undefined. A law of a formula that holds here is one of the formula
and not of the numbers it is evaluated on.
-/
set_option autoImplicit false

namespace TrackLayout.Exact

noncomputable scoped instance scalar : Scalar ℝ where
  below a b := decide (a < b)
  isZero a := decide (a = 0)
  isUndefined _ := false
  abs a := |a|
  larger := max
  hypot a b := √(a * a + b * b)

variable (a b : ℝ)

theorem isZero_iff : Scalar.isZero a = true ↔ a = 0 := decide_eq_true_iff

theorem isUndefined_eq_false : Scalar.isUndefined a = false := rfl

theorem abs_eq_abs : Scalar.abs a = |a| := rfl

theorem larger_eq_max : Scalar.larger a b = max a b := rfl

end TrackLayout.Exact
