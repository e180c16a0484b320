import TrackLayout.Heights.Relaxation
import TrackLayout.Proofs.Binary64.Magnitude

/-!
# Costs of moderate rules

A rule is moderate if its lengths, tolerances, ratios and weights are in fixed
ranges. At heights up to a large power of two its weighted cost is an amount:
it may overflow but is a number. An incline rule is unbounded far from the
height of the other node, so a height that some sum of costs prefers is near
that node. This needs no least length: without any length nothing is preferred.
-/
set_option autoImplicit false

namespace TrackLayout

open Binary64

namespace HeightRule

/-- Parameters in range. Nothing is asked of the nodes that the rule names. -/
def Moderate : Rule → Prop
  | .fixedHeight target tolerance weight =>
    (∃ v, Denotes target v) ∧ Inside tolerance (2 ^ (0 : ℤ)) (2 ^ (5 : ℤ)) ∧ ∃ w, Denotes weight w ∧ 0 < w
  | .betweenNodes _ _ ratio weight => Near ratio 165 ∧ Inside weight 0 2
  | .inclineBetween inclines _ length weight =>
    Near (meanIncline inclines) 0 ∧ Inside (halfWidth inclines) (2 ^ (-15 : ℤ)) (2 ^ (0 : ℤ)) ∧
      Inside length (2 ^ (-60 : ℤ)) (2 ^ (22 : ℤ)) ∧ ∃ w, Denotes weight w ∧ 0 < w
  | .linkedTo _ => True

/-- An incline rule on a track of any length up to a bound, also of none. -/
def Tethers : Rule → Prop
  | .inclineBetween inclines _ length weight =>
    Near (meanIncline inclines) 0 ∧ Inside (halfWidth inclines) (2 ^ (-15 : ℤ)) (2 ^ (0 : ℤ)) ∧
      Inside length 0 (2 ^ (22 : ℤ)) ∧ ∃ w, Denotes weight w ∧ 0 < w
  | _ => False

variable {r : Rule} {elevation : NodeId → Option Float} {height : Float}

/-- A square is an amount, and so is its quotient by the square of a tolerance. -/
theorem amount_squaredRatio {deviation tolerance : Float} {t : ℝ} (hDeviation : deviation.isNaN = false)
    (hTolerance : Denotes (tolerance * tolerance) t) (hPos : 0 < t) :
    Amount (squaredRatio deviation tolerance) :=
  (Amount.mul_self hDeviation).div hTolerance hPos

theorem near_lineDelta {ratio first second : Float} (hRatio : Near ratio 165) (hFirst : Near first 320)
    (hSecond : Near second 320) (hHeight : Near height 320) :
    Near (lineDelta ratio first second height) 488 := by
  have hOne : Near (1.0 : Float) 165 := ⟨1, denotes_one, by rw [abs_one]; exact one_le_zpow₀ (by norm_num) (by decide)⟩
  have hTarget : Near ((1.0 - ratio) * first + ratio * second) 487 := by
    have hLeft := (hOne.sub hRatio (by decide) (by decide)).mul hFirst (by decide) (by decide)
    have hRight := hRatio.mul hSecond (by decide) (by decide)
    exact hLeft.add (hRight.mono (by decide)) (by decide) (by decide)
  change Near (if ((1.0 - ratio) * first + ratio * second).isNaN then 0.0
    else (1.0 - ratio) * first + ratio * second - height) 488
  split
  · exact near_rational (by decide +kernel)
  · exact hTarget.sub (hHeight.mono (by decide)) (by decide) (by decide)

theorem inside_betweenTolerance {first second : Float} (hFirst : Near first 320) (hSecond : Near second 320) :
    Inside (Scalar.abs (first - second) / 4.0 + betweenTolerance) (2 ^ (-4 : ℤ)) (2 ^ (322 : ℤ)) := by
  obtain ⟨d, hd, hBound⟩ := hFirst.sub hSecond (by decide) (by decide)
  have hFour : Denotes (4.0 : Float) ((4 : ℚ) : ℝ) := denotes_rational (by decide +kernel)
  obtain ⟨t, ht, hLow, hHigh⟩ : Inside (betweenTolerance : Float) ((2 ^ (-4 : ℤ) : ℚ) : ℝ) ((1 : ℚ) : ℝ) :=
    inside_rational (by decide +kernel)
  push_cast at hFour hLow hHigh
  have hQuotient : |d| / 4 ≤ 2 ^ (321 : ℤ) := (div_le_self (abs_nonneg d) (by norm_num)).trans hBound
  obtain ⟨q, hq, hPos, hq'⟩ := (hd.abs.div hFour (by norm_num)).inside representable_zero
    (representable_two_zpow (by decide)) (div_nonneg (abs_nonneg d) (by norm_num)) hQuotient
    (neg_nonpos.mpr (two_zpow_pos _).le) (zpow_le_zpow_right₀ (by norm_num) (by decide))
  refine (hq.add ht).inside (representable_two_zpow (by decide)) (representable_two_zpow (by decide))
    (by linarith) ?_ ?_ (zpow_le_zpow_right₀ (by norm_num) (by decide))
  · have hOne : (1 : ℝ) ≤ 2 ^ (321 : ℤ) := one_le_zpow₀ (by norm_num) (by decide)
    calc q + t ≤ 2 ^ (321 : ℤ) + 2 ^ (321 : ℤ) := add_le_add hq' (hHigh.trans hOne)
      _ = 2 ^ (321 + 1 : ℤ) := by rw [zpow_add_one₀ (by norm_num), mul_two]
  · exact (neg_nonpos.mpr (two_zpow_pos _).le).trans (two_zpow_pos _).le

theorem amount_mul_betweenNodes {ratio weight first second : Float} (hRatio : Near ratio 165)
    (hWeight : Inside weight 0 2) (hFirst : Near first 320) (hSecond : Near second 320)
    (hHeight : Near height 320) :
    Amount (weight * squaredRatio (lineDelta ratio first second height)
      (Scalar.abs (first - second) / 4.0 + betweenTolerance)) := by
  obtain ⟨w, hw, hPos, hTwo⟩ := hWeight
  obtain ⟨t, ht, hLow, hHigh⟩ := (inside_betweenTolerance hFirst hSecond).mul_self (by decide) (by decide)
  have hDelta := near_lineDelta hRatio hFirst hSecond hHeight
  obtain ⟨v, hv, -⟩ := (hDelta.mul hDelta (by decide) (by decide)).div ht hLow (by decide) (by decide)
  rcases amount_squaredRatio (hDelta.choose_spec.1).isNaN ht ((two_zpow_pos _).trans_le hLow) with
    ⟨q, hq, hPos'⟩ | hInfinite
  · exact (hw.mul hq).amount (mul_nonneg hPos hPos')
  · change Denotes (squaredRatio _ _) v at hv
    rw [Denotes, hInfinite] at hv
    cases hv

/-- A rule costs nothing beside nodes without elevation. -/
theorem amount_mul_zero {w : Float} {v : ℝ} (hw : Denotes w v) : Amount (w * 0.0) := by
  have hZero : Denotes (0.0 : Float) ((0 : ℚ) : ℝ) := denotes_rational (by decide +kernel)
  rw [Rat.cast_zero] at hZero
  exact (hw.mul hZero).amount (by rw [mul_zero])

theorem amount_weight_mul_cost (h : Moderate r) (hHeight : Near height 320)
    (hElevation : ∀ n z, elevation n = some z → Near z 320) : Amount (r.weight * r.cost height elevation) := by
  cases r with
  | linkedTo other =>
    have hZero : Denotes (0.0 : Float) ((0 : ℚ) : ℝ) := denotes_rational (by decide +kernel)
    exact amount_mul_zero hZero
  | fixedHeight target tolerance weight =>
    obtain ⟨⟨v, hTarget⟩, hTolerance, w, hWeight, hPos⟩ := h
    obtain ⟨z, hz, -⟩ := hHeight
    obtain ⟨t, ht, hLow, -⟩ := hTolerance.mul_self (by decide) (by decide)
    exact (amount_squaredRatio (hTarget.sub hz).isNaN ht ((two_zpow_pos _).trans_le hLow)).mul_left hWeight hPos
  | betweenNodes first second ratio weight =>
    obtain ⟨hRatio, hWeight⟩ := h
    have hWeight' := hWeight
    obtain ⟨w, hw, -⟩ := hWeight'
    simp only [HeightRule.weight, cost]
    split
    · next hFirst hSecond =>
      split
      · exact amount_mul_zero hw
      · exact amount_mul_betweenNodes hRatio hWeight (hElevation _ _ hFirst) (hElevation _ _ hSecond) hHeight
    · exact amount_mul_zero hw
  | inclineBetween inclines other length weight =>
    obtain ⟨⟨m, hm, -⟩, ⟨b, hb, hbLow, -⟩, ⟨l, hl, hlLow, -⟩, w, hw, hPos⟩ := h
    simp only [HeightRule.weight, cost]
    split
    · next hOther =>
      obtain ⟨z, hz, -⟩ := hHeight
      obtain ⟨y, hy, -⟩ := hElevation _ _ hOther
      have hSlope := isNaN_div (hy.sub hz).isNaN hl ((two_zpow_pos _).trans_le hlLow)
      have hExcess := isNaN_div (isNaN_sub hSlope hm) hb ((two_zpow_pos _).trans_le hbLow)
      exact (Amount.mul_self (Amount.mul_self hExcess).isNaN).mul_left hw hPos
    · exact amount_mul_zero hw

/-- Far from the node that it names, a tether rates all heights as infinitely bad. -/
theorem unbounded_weight_mul_cost {inclines : InclineRange Float} {other : NodeId} {length weight z : Float}
    (h : Tethers (.inclineBetween inclines other length weight)) (hOther : elevation other = some z)
    (hFar : Far (z - height) 280) :
    Unbounded (weight * (HeightRule.inclineBetween inclines other length weight).cost height elevation) := by
  obtain ⟨⟨m, hm, hMean⟩, ⟨b, hb, hbLow, hbHigh⟩, ⟨l, hl, hlLow, hlHigh⟩, w, hw, hPos⟩ := h
  have hSlope := hFar.div (n := 258) (by decide) hl hlLow hlHigh
  have hExcess := hSlope.sub_right (n := 257) (by decide) hm
    (hMean.trans (zpow_le_zpow_right₀ (by norm_num) (by decide)))
  have hScaled := hExcess.div (n := 257) (k := 0) (by decide) hb ((two_zpow_pos _).le.trans hbLow) hbHigh
  have hSquare := (hScaled.mul_self (by decide)).mono (show (512 : ℤ) ≤ 257 + 257 by decide)
  simp only [cost, hOther]
  exact hSquare.unbounded_mul_self.mul_left hw hPos

end HeightRule

end TrackLayout
