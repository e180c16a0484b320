import Mathlib.Tactic.FieldSimp
import Mathlib.Tactic.Linarith
import Mathlib.Tactic.NormNum
import Mathlib.Tactic.Positivity
import Mathlib.Tactic.Ring
import TrackLayout.Proofs.Heights.Rule
import TrackLayout.Proofs.Scalar

/-!
# Costs and corrections describe one optimum

In exact arithmetic a rule that says anything has a best height. What it
suggests leads there, and what it charges is a power of the distance from it:
a square for heights and a fourth power for inclines. So the two never
disagree about which of two heights is better.
-/
set_option autoImplicit false

namespace TrackLayout.HeightRule

open Exact

/-- A tolerance is not zero, and a range of inclines is kept over some length. -/
def Proper : HeightRule ℝ → Prop
  | .fixedHeight _ tolerance _ => tolerance ≠ 0
  | .inclineBetween inclines _ length _ => inclines.least ≤ inclines.greatest ∧ 0 < length
  | .betweenNodes .. | .linkedTo _ => True

/-- A link says nothing, nor does a rule about a node without elevation. -/
def Silent (rule : HeightRule ℝ) (elevation : NodeId → Option ℝ) : Prop :=
  rule.linked?.isSome ∨ ∃ n ∈ rule.read, elevation n = none

/-- The rule is about the distance from a best height. -/
structure Rates (rule : HeightRule ℝ) (elevation : NodeId → Option ℝ) (best sharpness : ℝ) (power : ℕ) :
    Prop where
  sharp : 0 < sharpness
  power_ne_zero : power ≠ 0
  correction : ∀ height, rule.correction height elevation = best - height
  cost : ∀ height, rule.cost height elevation = (|best - height| * sharpness) ^ power

/-- What the rule charges and what it suggests fit together. -/
structure Agrees (rule : HeightRule ℝ) (elevation : NodeId → Option ℝ) : Prop where
  nonneg : ∀ height, 0 ≤ rule.cost height elevation
  eq_zero_iff : ∀ height, rule.cost height elevation = 0 ↔ rule.correction height elevation = 0
  corrected : ∀ height, rule.cost (height + rule.correction height elevation) elevation = 0
  lt_iff : ∀ h g, rule.cost h elevation < rule.cost g elevation ↔
    |rule.correction h elevation| < |rule.correction g elevation|

section Rates

variable {rule : HeightRule ℝ} {elevation : NodeId → Option ℝ} {best sharpness : ℝ} {power : ℕ}

theorem Rates.agrees (h : rule.Rates elevation best sharpness power) : rule.Agrees elevation where
  nonneg height := by
    rw [h.cost]
    exact pow_nonneg (mul_nonneg (abs_nonneg _) h.sharp.le) power
  eq_zero_iff height := by
    rw [h.cost, h.correction, pow_eq_zero_iff h.power_ne_zero, mul_eq_zero_iff_right h.sharp.ne',
      abs_eq_zero]
  corrected height := by
    rw [h.cost, h.correction, add_sub_cancel, sub_self, abs_zero, zero_mul, zero_pow h.power_ne_zero]
  lt_iff x y := by
    have hNonneg (height : ℝ) : 0 ≤ |best - height| * sharpness := mul_nonneg (abs_nonneg _) h.sharp.le
    rw [h.cost, h.cost, h.correction, h.correction,
      pow_lt_pow_iff_left₀ (hNonneg x) (hNonneg y) h.power_ne_zero, mul_lt_mul_iff_left₀ h.sharp]

end Rates

/-! ## The kinds of rules -/

theorem squaredRatio_eq (deviation tolerance : ℝ) :
    squaredRatio deviation tolerance = (|deviation| * |tolerance|⁻¹) ^ 2 := by
  rw [squaredRatio, ← div_eq_mul_inv, div_pow, sq_abs, sq_abs, sq, sq]

theorem meanIncline_eq (inclines : InclineRange ℝ) :
    meanIncline inclines = (inclines.least + inclines.greatest) / 2 := by
  rw [meanIncline]
  norm_num

theorem halfWidth_eq (inclines : InclineRange ℝ) :
    halfWidth inclines = max ((inclines.greatest - inclines.least) / 2) leastHalfWidth := by
  rw [halfWidth, larger_eq_max, meanIncline_eq]
  congr 1
  ring

theorem halfWidth_pos (inclines : InclineRange ℝ) : 0 < halfWidth inclines := by
  rw [halfWidth_eq]
  refine lt_max_of_lt_right ?_
  unfold leastHalfWidth
  norm_num

theorem betweenTolerance_pos : (0 : ℝ) < betweenTolerance := by
  unfold betweenTolerance
  norm_num

section Kinds

variable {elevation : NodeId → Option ℝ}

theorem rates_fixedHeight {tolerance : ℝ} (hTolerance : tolerance ≠ 0) (target weight : ℝ) :
    (fixedHeight target tolerance weight).Rates elevation target |tolerance|⁻¹ 2 where
  sharp := inv_pos.mpr (abs_pos.mpr hTolerance)
  power_ne_zero := two_ne_zero
  correction _ := rfl
  cost height := squaredRatio_eq (target - height) tolerance

/-- The tolerance grows with the difference of the two heights, so it is never zero. -/
theorem rates_betweenNodes {first second : NodeId} {h₁ h₂ : ℝ} (hFirst : elevation first = some h₁)
    (hSecond : elevation second = some h₂) (ratio weight : ℝ) :
    (betweenNodes first second ratio weight).Rates elevation ((1.0 - ratio) * h₁ + ratio * h₂)
      |(|h₁ - h₂| / 4.0 + betweenTolerance)|⁻¹ 2 := by
  have hCorrection (height : ℝ) : (betweenNodes first second ratio weight).correction height elevation =
      (1.0 - ratio) * h₁ + ratio * h₂ - height := by
    simp only [correction, hFirst, hSecond, lineDelta, isUndefined_eq_false, Bool.false_eq_true, if_false]
  have hTolerance : 0 < |h₁ - h₂| / 4.0 + betweenTolerance :=
    add_pos_of_nonneg_of_pos (by positivity) betweenTolerance_pos
  refine ⟨inv_pos.mpr (abs_pos.mpr hTolerance.ne'), two_ne_zero, hCorrection, fun height => ?_⟩
  have hCost : (betweenNodes first second ratio weight).cost height elevation =
      let delta := (betweenNodes first second ratio weight).correction height elevation
      if delta = 0 then 0.0 else squaredRatio delta (|h₁ - h₂| / 4.0 + betweenTolerance) := by
    simp only [cost, correction, hFirst, hSecond, isZero_iff, abs_eq_abs]
  rw [hCost, hCorrection]
  dsimp only
  split
  · next hBest =>
    rw [hBest]
    norm_num
  · exact squaredRatio_eq _ _

/-- A deviation of height is one of incline, spread over the length. -/
theorem rates_inclineBetween {other : NodeId} {h length : ℝ} (hOther : elevation other = some h)
    (hLength : 0 < length) (inclines : InclineRange ℝ) (weight : ℝ) :
    (inclineBetween inclines other length weight).Rates elevation (h - meanIncline inclines * length)
      (length * halfWidth inclines)⁻¹ 4 := by
  have hWidth := halfWidth_pos inclines
  refine ⟨by positivity, four_ne_zero, fun height => ?_, fun height => ?_⟩
  · simp only [correction, hOther]
  · have hShare : ((h - height) / length - meanIncline inclines) / halfWidth inclines =
        (h - meanIncline inclines * length - height) * (length * halfWidth inclines)⁻¹ := by
      field_simp
      ring
    have hEven : Even 4 := by decide
    simp only [cost, hOther]
    rw [hShare, mul_pow, hEven.pow_abs]
    ring

end Kinds

/-! ## All rules -/

section Rules

variable {rule : HeightRule ℝ} {elevation : NodeId → Option ℝ}

theorem Silent.eq_zero (h : rule.Silent elevation) (height : ℝ) :
    rule.cost height elevation = 0 ∧ rule.correction height elevation = 0 := by
  have hZero : (0.0 : ℝ) = 0 := by norm_num
  cases rule with
  | fixedHeight target tolerance weight => simp [Silent, linked?, read] at h
  | betweenNodes first second ratio weight =>
    simp only [Silent, linked?, read, List.mem_cons, List.not_mem_nil, or_false, Option.isSome_none,
      Bool.false_eq_true, false_or, exists_eq_or_imp, exists_eq_left] at h
    rcases h with h | h
    · simp only [cost, correction, h, hZero, and_self]
    · cases hFirst : elevation first <;> simp only [cost, correction, h, hFirst, hZero, and_self]
  | inclineBetween inclines other length weight =>
    simp only [Silent, linked?, read, List.mem_cons, List.not_mem_nil, or_false, Option.isSome_none,
      Bool.false_eq_true, false_or, exists_eq_left] at h
    simp only [cost, correction, h, hZero, and_self]
  | linkedTo other => exact ⟨hZero, hZero⟩

theorem exists_rates (hProper : rule.Proper) (hSpeaks : ¬ rule.Silent elevation) :
    ∃ best sharpness power, rule.Rates elevation best sharpness power := by
  have hKnown : ∀ n ∈ rule.read, ∃ h, elevation n = some h := fun n hn =>
    Option.ne_none_iff_exists'.mp fun hNone => hSpeaks (.inr ⟨n, hn, hNone⟩)
  cases rule with
  | fixedHeight target tolerance weight => exact ⟨_, _, _, rates_fixedHeight hProper target weight⟩
  | betweenNodes first second ratio weight =>
    obtain ⟨h₁, hFirst⟩ := hKnown first (by simp [read])
    obtain ⟨h₂, hSecond⟩ := hKnown second (by simp [read])
    exact ⟨_, _, _, rates_betweenNodes hFirst hSecond ratio weight⟩
  | inclineBetween inclines other length weight =>
    obtain ⟨h, hOther⟩ := hKnown other (by simp [read])
    exact ⟨_, _, _, rates_inclineBetween hOther hProper.2 inclines weight⟩
  | linkedTo other => exact absurd (.inl rfl) hSpeaks

theorem Silent.agrees (h : rule.Silent elevation) : rule.Agrees elevation where
  nonneg height := (h.eq_zero height).1.ge
  eq_zero_iff height := by rw [(h.eq_zero height).1, (h.eq_zero height).2]
  corrected height := (h.eq_zero _).1
  lt_iff x y := by
    rw [(h.eq_zero x).1, (h.eq_zero x).2, (h.eq_zero y).1, (h.eq_zero y).2, abs_zero]

end Rules

/-- What a proper rule charges agrees with what it suggests, whatever the other elevations are. A silent
rule charges and suggests nothing at any height. -/
theorem agrees_of_proper {rule : HeightRule ℝ} (hProper : rule.Proper) (elevation : NodeId → Option ℝ) :
    rule.Agrees elevation ∧ (rule.Silent elevation →
      ∀ height, rule.cost height elevation = 0 ∧ rule.correction height elevation = 0) := by
  refine ⟨?_, fun hSilent height => hSilent.eq_zero height⟩
  by_cases hSilent : rule.Silent elevation
  · exact hSilent.agrees
  · obtain ⟨best, sharpness, power, hRates⟩ := exists_rates hProper hSilent
    exact hRates.agrees

/-- Over ten metres of a waterway the best height is half of the greatest fall above the outlet. -/
theorem agrees_waterway :
    let rule : HeightRule ℝ := .inclineBetween ⟨-0.3, 0⟩ ⟨1⟩ 10 1
    let elevation : NodeId → Option ℝ := fun _ => some 0
    rule.Proper ∧ rule.correction 0 elevation = 1.5 ∧ rule.cost 1.5 elevation = 0 ∧
      rule.cost 1 elevation < rule.cost 0 elevation := by
  intro rule elevation
  have hProper : rule.Proper := ⟨by norm_num, by norm_num⟩
  have hCorrection (height : ℝ) : rule.correction height elevation = 1.5 - height := by
    change 0 - (-0.3 + 0) / 2.0 * 10 - height = _
    norm_num
  obtain ⟨hAgrees, -⟩ := agrees_of_proper hProper elevation
  refine ⟨hProper, ?_, ?_, ?_⟩
  · rw [hCorrection]
    norm_num
  · rw [hAgrees.eq_zero_iff, hCorrection]
    norm_num
  · rw [hAgrees.lt_iff, hCorrection, hCorrection]
    norm_num [abs_lt]

end TrackLayout.HeightRule
