import Mathlib.Order.Bounds.Basic
import Mathlib.Tactic.FieldSimp
import Mathlib.Tactic.LinearCombination
import Mathlib.Tactic.Linarith
import Mathlib.Tactic.NormNum
import Mathlib.Tactic.Ring
import TrackLayout.Geometry.Segment
import TrackLayout.Proofs.Scalar

/-!
# Distances from segments

In exact arithmetic the frame of a segment turns the plane. Forward and
sideward are therefore the legs of a right triangle, and overhead is what
forward misses the nearest point of the segment by. A segment without length
has a frame all the same, and overhead is then the whole way forward.
-/
set_option autoImplicit false

namespace TrackLayout

open Exact

def PlanarPoint.squareTo (p q : PlanarPoint ℝ) : ℝ := (p.x - q.x) ^ 2 + (p.y - q.y) ^ 2

namespace PlanarSegment

noncomputable def pointAt (s : PlanarSegment ℝ) (r : ℝ) : PlanarPoint ℝ :=
  ⟨s.start.x + r * (s.stop.x - s.start.x), s.start.y + r * (s.stop.y - s.start.y)⟩

/-- The closed segment goes through a point. -/
def Covers (s : PlanarSegment ℝ) (q : PlanarPoint ℝ) : Prop := ∃ r, 0 ≤ r ∧ r ≤ 1 ∧ s.pointAt r = q

/-- Squares of the distances between a point and all points of a segment. -/
def squares (s : PlanarSegment ℝ) (p : PlanarPoint ℝ) : Set ℝ := {d | ∃ q, s.Covers q ∧ d = p.squareTo q}

/-- The frame of a segment tells how far a point is from the segment and from its start. -/
structure Measures (s : PlanarSegment ℝ) (p : PlanarPoint ℝ) (o : SegmentOffset ℝ) : Prop where
  least : IsLeast (s.squares p) o.squaredDistance
  fromStart : o.forward ^ 2 + o.sideward ^ 2 = p.squareTo s.start

variable (s : PlanarSegment ℝ) (p : PlanarPoint ℝ)

/-! ## The frame -/

theorem length_mul_self : s.length * s.length =
    (s.stop.x - s.start.x) * (s.stop.x - s.start.x) + (s.stop.y - s.start.y) * (s.stop.y - s.start.y) := by
  change √_ * √_ = _
  rw [Real.mul_self_sqrt (add_nonneg (mul_self_nonneg _) (mul_self_nonneg _))]
  ring

theorem length_nonneg : 0 ≤ s.length := Real.sqrt_nonneg _

theorem heading_eq : s.heading =
    if 0 < s.length then ⟨(s.stop.x - s.start.x) / s.length, (s.stop.y - s.start.y) / s.length⟩ else ⟨1, 0⟩ := by
  have hBelow : Scalar.below 0.0 s.length = decide (0 < s.length) := by
    rw [show (0 : ℝ) = 0.0 by norm_num]
    rfl
  rw [heading, hBelow]
  simp only [decide_eq_true_eq]
  norm_num

theorem length_mul_heading : s.length * s.heading.x = s.stop.x - s.start.x ∧
    s.length * s.heading.y = s.stop.y - s.start.y := by
  rw [heading_eq]
  split
  · next hPos => exact ⟨mul_div_cancel₀ _ hPos.ne', mul_div_cancel₀ _ hPos.ne'⟩
  · next hPos =>
    have hZero : s.length = 0 := le_antisymm (not_lt.mp hPos) s.length_nonneg
    have hLength := s.length_mul_self
    rw [hZero, zero_mul] at hLength
    constructor <;> nlinarith [mul_self_nonneg (s.stop.x - s.start.x), mul_self_nonneg (s.stop.y - s.start.y)]

theorem heading_unit : s.heading.x * s.heading.x + s.heading.y * s.heading.y = 1 := by
  rw [heading_eq]
  split
  · next hPos =>
    have hLength := s.length_mul_self
    field_simp
    linarith
  · norm_num

theorem offset_overhead : (s.offset p).overhead =
    max (-(s.offset p).forward) 0 + max ((s.offset p).forward - s.length) 0 := by
  rw [show (0 : ℝ) = 0.0 by norm_num]
  rfl

theorem forward_eq : (s.offset p).forward =
    (p.x - s.start.x) * s.heading.x + (p.y - s.start.y) * s.heading.y := rfl

theorem sideward_eq : (s.offset p).sideward =
    s.heading.x * (p.y - s.start.y) - s.heading.y * (p.x - s.start.x) := rfl

theorem squareTo_pointAt (r : ℝ) : p.squareTo (s.pointAt r) =
    ((s.offset p).forward - r * s.length) ^ 2 + (s.offset p).sideward ^ 2 := by
  obtain ⟨hx, hy⟩ := s.length_mul_heading
  rw [PlanarPoint.squareTo, pointAt, ← hx, ← hy, forward_eq, sideward_eq]
  linear_combination
    -((p.x - s.start.x) ^ 2 + (p.y - s.start.y) ^ 2 - (r * s.length) ^ 2) * s.heading_unit

/-! ## The nearest point -/

section Overhead

variable {f l r : ℝ} (hl : 0 ≤ l)
include hl

/-- A point is before a segment, beside it or beyond it. -/
theorem overhead_regions : f ≤ 0 ∧ max (-f) 0 + max (f - l) 0 = -f ∨
    (0 < f ∧ f < l) ∧ max (-f) 0 + max (f - l) 0 = 0 ∨ l ≤ f ∧ max (-f) 0 + max (f - l) 0 = f - l := by
  rcases le_or_gt f 0 with hBefore | hAfter
  · left
    refine ⟨hBefore, ?_⟩
    rw [max_eq_left (neg_nonneg.mpr hBefore), max_eq_right (sub_nonpos.mpr (hBefore.trans hl)), add_zero]
  · right
    rw [max_eq_right (neg_nonpos.mpr hAfter.le), zero_add]
    rcases lt_or_ge f l with hBeside | hBeyond
    · exact .inl ⟨⟨hAfter, hBeside⟩, max_eq_right (sub_nonpos.mpr hBeside.le)⟩
    · exact .inr ⟨hBeyond, max_eq_left (sub_nonneg.mpr hBeyond)⟩

theorem sq_overhead_le (hr : 0 ≤ r) (hr' : r ≤ 1) :
    (max (-f) 0 + max (f - l) 0) ^ 2 ≤ (f - r * l) ^ 2 := by
  have hNonneg : 0 ≤ r * l := mul_nonneg hr hl
  have hLe : r * l ≤ l := mul_le_of_le_one_left hl hr'
  rcases overhead_regions (f := f) hl with ⟨hBefore, hEq⟩ | ⟨-, hEq⟩ | ⟨hBeyond, hEq⟩
  · rw [hEq, sq_le_sq, abs_neg, abs_of_nonpos hBefore, abs_of_nonpos (by linarith)]
    linarith
  · rw [hEq, sq, zero_mul]
    exact sq_nonneg _
  · rw [hEq, sq_le_sq, abs_of_nonneg (sub_nonneg.mpr hBeyond), abs_of_nonneg (by linarith)]
    linarith

theorem exists_ratio : ∃ r, 0 ≤ r ∧ r ≤ 1 ∧ (f - r * l) ^ 2 = (max (-f) 0 + max (f - l) 0) ^ 2 := by
  rcases overhead_regions (f := f) hl with ⟨-, hEq⟩ | ⟨⟨hAfter, hBeside⟩, hEq⟩ | ⟨-, hEq⟩
  · refine ⟨0, le_rfl, zero_le_one, ?_⟩
    rw [hEq]
    ring
  · have hPos : 0 < l := hAfter.trans hBeside
    refine ⟨f / l, (div_pos hAfter hPos).le, (div_le_one hPos).mpr hBeside.le, ?_⟩
    rw [hEq, div_mul_cancel₀ f hPos.ne', sub_self]
  · refine ⟨1, zero_le_one, le_rfl, ?_⟩
    rw [hEq, one_mul]

end Overhead

theorem measures_offset : s.Measures p (s.offset p) where
  least := by
    have hSquare : (s.offset p).squaredDistance = (s.offset p).overhead ^ 2 + (s.offset p).sideward ^ 2 := by
      rw [sq, sq]
      rfl
    rw [hSquare, offset_overhead]
    constructor
    · obtain ⟨r, hr, hr', hEq⟩ := exists_ratio (f := (s.offset p).forward) s.length_nonneg
      exact ⟨_, ⟨r, hr, hr', rfl⟩, by rw [squareTo_pointAt, hEq]⟩
    · rintro d ⟨q, ⟨r, hr, hr', rfl⟩, rfl⟩
      rw [squareTo_pointAt]
      exact add_le_add_left (sq_overhead_le s.length_nonneg hr hr') _
  fromStart := by
    have hStart : s.pointAt 0 = s.start := by simp [pointAt]
    rw [← hStart, squareTo_pointAt]
    ring

end PlanarSegment

end TrackLayout
