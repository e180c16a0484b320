import TrackLayout.Proofs.Geometry.Distance

/-!
# Points that two segments have in common

Along a segment the area beside another one changes evenly, and is zero at a
common point. If such a point is inside both segments, each separates the ends
of the other or all four ends are on one line. On a line one of the ends is on
the other segment. So common points are found at ends and at crossings.
-/
set_option autoImplicit false

namespace TrackLayout

open Exact

/-! ## Areas beside a segment -/

section Area

variable {R : Type} [CommRing R]

/-- Twice the signed area of a triangle. -/
def area (a b p : PlanarPoint R) : R := (b.x - a.x) * (p.y - a.y) - (b.y - a.y) * (p.x - a.x)

variable (a b c d : PlanarPoint R)

theorem area_sub_area : area c d a - area c d b = area a b d - area a b c := by
  simp only [area]
  ring

/-- The areas beside one segment weigh its ends like the areas beside the other one weigh the ends of that. -/
theorem area_mul_sub :
    area c d a * b.x - area c d b * a.x = area a b d * c.x - area a b c * d.x ∧
      area c d a * b.y - area c d b * a.y = area a b d * c.y - area a b c * d.y := by
  simp only [area]
  constructor <;> ring

end Area

namespace PlanarSegment

variable {s t : PlanarSegment ℝ} {q : PlanarPoint ℝ} {r : ℝ}

/-- The box around a segment contains a point. -/
structure Encloses (s : PlanarSegment ℝ) (q : PlanarPoint ℝ) : Prop where
  x : min s.start.x s.stop.x ≤ q.x ∧ q.x ≤ max s.start.x s.stop.x
  y : min s.start.y s.stop.y ≤ q.y ∧ q.y ≤ max s.start.y s.stop.y

/-- The ends of `s` lie strictly on either side of `t`. -/
def SeparatedBy (s t : PlanarSegment ℝ) : Prop :=
  0 < area t.start t.stop s.start ∧ area t.start t.stop s.stop < 0 ∨
    area t.start t.stop s.start < 0 ∧ 0 < area t.start t.stop s.stop

/-! ## Points of one segment -/

theorem covers_start (s : PlanarSegment ℝ) : s.Covers s.start := ⟨0, le_rfl, zero_le_one, by simp [pointAt]⟩

theorem covers_stop (s : PlanarSegment ℝ) : s.Covers s.stop := ⟨1, zero_le_one, le_rfl, by simp [pointAt]⟩

theorem area_pointAt (s t : PlanarSegment ℝ) (r : ℝ) : area t.start t.stop (s.pointAt r) =
    (1 - r) * area t.start t.stop s.start + r * area t.start t.stop s.stop := by
  simp only [area, pointAt]
  ring

theorem area_pointAt_self (s : PlanarSegment ℝ) (r : ℝ) : area s.start s.stop (s.pointAt r) = 0 := by
  simp only [area, pointAt]
  ring

theorem exists_pointAt (hNe : s.start ≠ s.stop) (hArea : area s.start s.stop q = 0) : ∃ r, s.pointAt r = q := by
  obtain ⟨⟨x₀, y₀⟩, x₁, y₁⟩ := s
  obtain ⟨x, y⟩ := q
  simp only [area] at hArea
  by_cases hx : x₁ = x₀
  · subst hx
    have hy : y₁ - y₀ ≠ 0 := fun hy => hNe (by rw [sub_eq_zero.mp hy])
    have hSame : x = x₁ := by
      rw [sub_self, zero_mul, zero_sub, neg_eq_zero, mul_eq_zero, or_iff_right hy] at hArea
      exact sub_eq_zero.mp hArea
    refine ⟨(y - y₀) / (y₁ - y₀), ?_⟩
    simp only [pointAt, div_mul_cancel₀ _ hy, sub_self, mul_zero, hSame]
    simp
  · have hx : x₁ - x₀ ≠ 0 := sub_ne_zero.mpr hx
    refine ⟨(x - x₀) / (x₁ - x₀), ?_⟩
    have hy : (x - x₀) / (x₁ - x₀) * (y₁ - y₀) = y - y₀ := by
      field_simp
      linarith
    simp only [pointAt, div_mul_cancel₀ _ hx, hy]
    simp

theorem between_iff {u v : ℝ} (hNe : u ≠ v) :
    min u v ≤ u + r * (v - u) ∧ u + r * (v - u) ≤ max u v ↔ 0 ≤ r ∧ r ≤ 1 := by
  rcases hNe.lt_or_gt with hLess | hLess
  · rw [min_eq_left hLess.le, max_eq_right hLess.le, le_add_iff_nonneg_right,
      mul_nonneg_iff_of_pos_right (sub_pos.mpr hLess), ← le_sub_iff_add_le', mul_le_iff_le_one_left (sub_pos.mpr hLess)]
  · have hTurn : u + r * (v - u) = v + (1 - r) * (u - v) := by ring
    rw [min_eq_right hLess.le, max_eq_left hLess.le, hTurn, le_add_iff_nonneg_right,
      mul_nonneg_iff_of_pos_right (sub_pos.mpr hLess), ← le_sub_iff_add_le', mul_le_iff_le_one_left (sub_pos.mpr hLess),
      sub_nonneg, sub_le_self_iff, and_comm]

theorem between_of_ratio {u v : ℝ} (hr : 0 ≤ r ∧ r ≤ 1) :
    min u v ≤ u + r * (v - u) ∧ u + r * (v - u) ≤ max u v := by
  by_cases hNe : u = v
  · simp [hNe]
  · exact (between_iff hNe).mpr hr

/-- The points of a segment are those of its line within its box. -/
theorem covers_iff : s.Covers q ↔ area s.start s.stop q = 0 ∧ s.Encloses q := by
  constructor
  · rintro ⟨r, hr, hr', rfl⟩
    exact ⟨s.area_pointAt_self r, between_of_ratio ⟨hr, hr'⟩, between_of_ratio ⟨hr, hr'⟩⟩
  · rintro ⟨hArea, hBox⟩
    by_cases hNe : s.start = s.stop
    · have hSame : q = s.start := by
        obtain ⟨⟨hxLow, hxHigh⟩, hyLow, hyHigh⟩ := hBox
        rw [← hNe, min_self] at hxLow hyLow
        rw [← hNe, max_self] at hxHigh hyHigh
        exact PlanarPoint.ext (le_antisymm hxHigh hxLow) (le_antisymm hyHigh hyLow)
      exact hSame ▸ s.covers_start
    · obtain ⟨r, rfl⟩ := exists_pointAt hNe hArea
      have hRatio : 0 ≤ r ∧ r ≤ 1 := by
        by_cases hx : s.start.x = s.stop.x
        · exact (between_iff fun hy => hNe (PlanarPoint.ext hx hy)).mp hBox.y
        · exact (between_iff hx).mp hBox.x
      exact ⟨r, hRatio.1, hRatio.2, rfl⟩

/-! ## Points of two segments -/

section Opposed

variable {k l : ℝ}

theorem ratio_of_opposed (h : 0 < k ∧ l < 0 ∨ k < 0 ∧ 0 < l) :
    k - l ≠ 0 ∧ 0 ≤ k / (k - l) ∧ k / (k - l) ≤ 1 := by
  rcases h with ⟨hk, hl⟩ | ⟨hk, hl⟩
  · have hPos : 0 < k - l := by linarith
    exact ⟨hPos.ne', (div_pos hk hPos).le, (div_le_one hPos).mpr (by linarith)⟩
  · have hNeg : k - l < 0 := by linarith
    exact ⟨hNeg.ne, (div_pos_of_neg_of_neg hk hNeg).le, (div_le_one_of_neg hNeg).mpr (by linarith)⟩

theorem opposed_or_zero (hr : 0 < r) (hr' : r < 1) (h : (1 - r) * k + r * l = 0) :
    (0 < k ∧ l < 0 ∨ k < 0 ∧ 0 < l) ∨ k = 0 ∧ l = 0 := by
  have hRest : 0 < 1 - r := sub_pos.mpr hr'
  rcases lt_trichotomy k 0 with hk | hk | hk
  · have hl : 0 < r * l := by linarith [mul_neg_of_pos_of_neg hRest hk]
    exact .inl (.inr ⟨hk, pos_of_mul_pos_right hl hr.le⟩)
  · rw [hk, mul_zero, zero_add, mul_eq_zero, or_iff_right hr.ne'] at h
    exact .inr ⟨hk, h⟩
  · have hl : r * l < 0 := by linarith [mul_pos hRest hk]
    exact .inl (.inl ⟨hk, (neg_of_mul_neg_right hl hr.le)⟩)

end Opposed

/-- Weights of one pair that add up to those of another one, with the same sum of weighted values. -/
theorem divided_eq {k l m n a b c d : ℝ} (hNe : k - l ≠ 0) (hTotal : k - l = n - m)
    (hEq : k * b - l * a = n * c - m * d) : a + k / (k - l) * (b - a) = c + m / (m - n) * (d - c) := by
  have hOther : m - n = -(k - l) := by linarith
  rw [hOther, div_neg]
  field_simp
  linear_combination hEq - c * hTotal

theorem exists_crossing (hs : s.SeparatedBy t) (ht : t.SeparatedBy s) : ∃ q, s.Covers q ∧ t.Covers q := by
  obtain ⟨hNe, hr, hr'⟩ := ratio_of_opposed hs
  obtain ⟨-, hRatio, hRatio'⟩ := ratio_of_opposed ht
  have hTotal := area_sub_area s.start s.stop t.start t.stop
  obtain ⟨hx, hy⟩ := area_mul_sub s.start s.stop t.start t.stop
  refine ⟨_, ⟨_, hr, hr', rfl⟩, _, hRatio, hRatio', ?_⟩
  rw [pointAt, pointAt, divided_eq hNe hTotal hx, divided_eq hNe hTotal hy]

theorem pointAt_pointAt {γ δ : ℝ} (hStart : s.pointAt γ = t.start) (hStop : s.pointAt δ = t.stop) (k : ℝ) :
    t.pointAt k = s.pointAt (γ + k * (δ - γ)) := by
  rw [pointAt, ← hStart, ← hStop]
  simp only [pointAt]
  congr 1 <;> ring

theorem pointAt_injective (hNe : s.start ≠ s.stop) {γ δ : ℝ} (h : s.pointAt γ = s.pointAt δ) : γ = δ := by
  by_contra hDiffer
  simp only [pointAt, PlanarPoint.mk.injEq, add_right_inj, mul_eq_mul_right_iff, hDiffer, false_or, sub_eq_zero] at h
  exact hNe (PlanarPoint.ext h.1.symm h.2.symm)

/-- Of two overlapping segments on one line, one goes through an end of the other. -/
theorem covered_end_of_line {k : ℝ} (hr : 0 < r ∧ r < 1) (hk : 0 < k ∧ k < 1) (hSame : s.pointAt r = t.pointAt k)
    (hStart : area s.start s.stop t.start = 0) (hStop : area s.start s.stop t.stop = 0) :
    t.Covers s.start ∨ s.Covers t.start ∨ s.Covers t.stop := by
  by_cases hNe : s.start = s.stop
  · left
    refine ⟨k, hk.1.le, hk.2.le, ?_⟩
    rw [← hSame, pointAt, ← hNe]
    simp
  · obtain ⟨γ, hγ⟩ := exists_pointAt hNe hStart
    obtain ⟨δ, hδ⟩ := exists_pointAt hNe hStop
    have hRatio : r = γ + k * (δ - γ) := pointAt_injective hNe (hSame.trans (pointAt_pointAt hγ hδ k))
    by_cases hInside : 0 ≤ γ ∧ γ ≤ 1
    · exact .inr (.inl ⟨γ, hInside.1, hInside.2, hγ⟩)
    · by_cases hInside' : 0 ≤ δ ∧ δ ≤ 1
      · exact .inr (.inr ⟨δ, hInside'.1, hInside'.2, hδ⟩)
      · -- the ends of `t` lie outside of `s`, and on either side of it
        have hOpposed : 0 < γ ∧ δ < 0 ∨ γ < 0 ∧ 0 < δ := by
          rcases lt_or_ge γ 0 with hLow | hHigh
          · refine .inr ⟨hLow, ?_⟩
            by_contra! hLow'
            nlinarith
          · have hHigh : 1 < γ := not_le.mp fun hLe => hInside ⟨hHigh, hLe⟩
            refine .inl ⟨zero_lt_one.trans hHigh, ?_⟩
            by_contra! hHigh'
            have hHigh' : 1 < δ := not_le.mp fun hLe => hInside' ⟨hHigh', hLe⟩
            nlinarith
        obtain ⟨hDiffer, hLow, hHigh⟩ := ratio_of_opposed hOpposed
        refine .inl ⟨γ / (γ - δ), hLow, hHigh, ?_⟩
        have hZero : γ + γ / (γ - δ) * (δ - γ) = 0 := by
          field_simp
          ring
        rw [pointAt_pointAt hγ hδ, hZero]
        simp [pointAt]

theorem separated_or_covered (hs : s.Covers q) (ht : t.Covers q) : s.SeparatedBy t ∧ t.SeparatedBy s ∨
    t.Covers s.start ∨ t.Covers s.stop ∨ s.Covers t.start ∨ s.Covers t.stop := by
  by_cases hEnds : q = s.start ∨ q = s.stop ∨ q = t.start ∨ q = t.stop
  · right
    rcases hEnds with rfl | rfl | rfl | rfl
    · exact .inl ht
    · exact .inr (.inl ht)
    · exact .inr (.inr (.inl hs))
    · exact .inr (.inr (.inr hs))
  · push Not at hEnds
    obtain ⟨hStart, hStop, hStart', hStop'⟩ := hEnds
    have hInside {u : PlanarSegment ℝ} (hStart : q ≠ u.start) (hStop : q ≠ u.stop) (hu : u.Covers q) :
        ∃ r, (0 < r ∧ r < 1) ∧ u.pointAt r = q := by
      obtain ⟨r, hr, hr', rfl⟩ := hu
      refine ⟨r, ⟨hr.lt_of_ne ?_, hr'.lt_of_ne ?_⟩, rfl⟩
      · rintro rfl
        exact hStart (by simp [pointAt])
      · rintro rfl
        exact hStop (by simp [pointAt])
    obtain ⟨r, hr, hrq⟩ := hInside hStart hStop hs
    obtain ⟨k, hk, hkq⟩ := hInside hStart' hStop' ht
    have hOwn := area_pointAt s t r
    have hOther := area_pointAt t s k
    rw [hrq, ← hkq, area_pointAt_self] at hOwn
    rw [hkq, ← hrq, area_pointAt_self] at hOther
    have hTotal := area_sub_area s.start s.stop t.start t.stop
    rcases opposed_or_zero hk.1 hk.2 hOther.symm with ht | ⟨hZero, hZero'⟩
    · rcases opposed_or_zero hr.1 hr.2 hOwn.symm with hs | ⟨hZero, hZero'⟩
      · exact .inl ⟨hs, ht⟩
      · rcases ht with ⟨hPos, hNeg⟩ | ⟨hNeg, hPos⟩ <;> linarith
    · rcases covered_end_of_line hr hk (hrq.trans hkq.symm) hZero hZero' with h | h | h
      · exact .inr (.inl h)
      · exact .inr (.inr (.inr (.inl h)))
      · exact .inr (.inr (.inr (.inr h)))

theorem common_point_iff : (∃ q, s.Covers q ∧ t.Covers q) ↔ s.SeparatedBy t ∧ t.SeparatedBy s ∨
    t.Covers s.start ∨ t.Covers s.stop ∨ s.Covers t.start ∨ s.Covers t.stop := by
  constructor
  · rintro ⟨q, hs, ht⟩
    exact separated_or_covered hs ht
  · rintro (⟨hs, ht⟩ | h | h | h | h)
    · exact exists_crossing hs ht
    · exact ⟨_, s.covers_start, h⟩
    · exact ⟨_, s.covers_stop, h⟩
    · exact ⟨_, h, t.covers_start⟩
    · exact ⟨_, h, t.covers_stop⟩

end PlanarSegment

end TrackLayout
