import TrackLayout.Binary64.Hypotenuse
import TrackLayout.Proofs.Binary64.Magnitude

/-!
# Bounds of a hypotenuse

The length over two legs of moderate size is a number from zero on. Very short
legs are stretched and never lost.
-/
set_option autoImplicit false

namespace TrackLayout.Binary64

variable {x y : Float}

theorem Nearest.inside_zero_two_zpow {z : Float} {r : ℝ} {n : ℤ} (h : Nearest z r) (hPos : 0 ≤ r)
    (hr : r ≤ 2 ^ n) (hLeast : -1074 ≤ n) (hGreatest : n ≤ 1023) : Inside z 0 (2 ^ n) :=
  h.inside representable_zero (representable_two_zpow hLeast) hPos hr
    (neg_nonpos.mpr (two_zpow_pos _).le) (zpow_le_zpow_right₀ (by norm_num) hGreatest)

/-- The root of two squares. -/
theorem inside_root {n : ℤ} (hx : Near x n) (hy : Near y n) (hLeast : -500 ≤ n) (hGreatest : n ≤ 500) :
    Inside (Float.sqrt (x * x + y * y)) 0 (2 ^ (n + 1)) := by
  obtain ⟨v, hv, hvBound⟩ := hx
  obtain ⟨w, hw, hwBound⟩ := hy
  have hSquare {a : ℝ} (ha : |a| ≤ 2 ^ n) : a * a ≤ 2 ^ (n + n) := by
    rw [← abs_mul_abs_self a, zpow_add₀ (by norm_num)]
    exact mul_le_mul ha ha (abs_nonneg a) (two_zpow_pos n).le
  obtain ⟨p, hp, hpPos, hpBound⟩ := (hv.mul hv).inside_zero_two_zpow (mul_self_nonneg v) (hSquare hvBound)
    (by omega) (by omega)
  obtain ⟨q, hq, hqPos, hqBound⟩ := (hw.mul hw).inside_zero_two_zpow (mul_self_nonneg w) (hSquare hwBound)
    (by omega) (by omega)
  have hSum : p + q ≤ 2 ^ (n + n + 2) := by
    rw [zpow_add₀ (by norm_num)]
    linarith [two_zpow_pos (n + n)]
  obtain ⟨s, hs, hsPos, hsBound⟩ := (hp.add hq).inside_zero_two_zpow (add_nonneg hpPos hqPos) hSum
    (by omega) (by omega)
  have hRoot : √s ≤ 2 ^ (n + 1) := by
    rw [Real.sqrt_le_left (two_zpow_pos _).le, ← zpow_natCast, ← zpow_mul]
    refine hsBound.trans_eq ?_
    congr 1
    push_cast
    omega
  exact (hs.sqrt hsPos).inside_zero_two_zpow (Real.sqrt_nonneg s) hRoot (by omega) (by omega)

theorem denotes_maximum {a b : ℝ} (hx : Denotes x a) (hy : Denotes y b) : Denotes (maximum x y) (max a b) := by
  rw [maximum_eq hy.isNaN]
  split
  · next h => rwa [max_eq_left ((hy.lt_iff hx).mp h).le]
  · next h => rwa [max_eq_right (not_lt.mp fun hLess => h ((hy.lt_iff hx).mpr hLess))]

/-! ## Scales -/

theorem rational_scales : rational? longLeg = some (2 ^ (500 : ℤ)) ∧ rational? shortLeg = some (2 ^ (-400 : ℤ)) ∧
    rational? stretch = some (2 ^ (600 : ℤ)) ∧ rational? shrink = some (2 ^ (-600 : ℤ)) := by
  decide +kernel

theorem denotes_of_rational_eq {x : Float} {n : ℤ} (h : rational? x = some (2 ^ n)) : Denotes x (2 ^ n) := by
  have hReal := denotes_rational h
  rwa [Rat.cast_zpow, Rat.cast_ofNat] at hReal

theorem denotes_longLeg : Denotes longLeg (2 ^ (500 : ℤ)) := denotes_of_rational_eq rational_scales.1

theorem denotes_shortLeg : Denotes shortLeg (2 ^ (-400 : ℤ)) := denotes_of_rational_eq rational_scales.2.1

theorem denotes_stretch : Denotes stretch (2 ^ (600 : ℤ)) := denotes_of_rational_eq rational_scales.2.2.1

theorem denotes_shrink : Denotes shrink (2 ^ (-600 : ℤ)) := denotes_of_rational_eq rational_scales.2.2.2

/-! ## Lengths -/

theorem inside_hypot (hx : Near x 21) (hy : Near y 21) : Inside (hypot x y) 0 (2 ^ (22 : ℤ)) := by
  have hNear := inside_root hx hy (by decide) (by decide)
  obtain ⟨v, hv, hvBound⟩ := hx
  obtain ⟨w, hw, hwBound⟩ := hy
  have hLongest := denotes_maximum hv.abs hw.abs
  have hStretch : Near stretch 600 := ⟨_, denotes_stretch, (abs_of_pos (two_zpow_pos _)).le⟩
  rw [hypot, hv.isInf, hw.isInf]
  simp only [Bool.or_self, Bool.false_eq_true, ↓reduceIte]
  have hModerate : ¬longLeg < maximum x.abs y.abs := by
    rw [denotes_longLeg.lt_iff hLongest, not_lt]
    exact (max_le hvBound hwBound).trans (zpow_le_zpow_right₀ (by norm_num) (by decide))
  rw [if_neg hModerate]
  split
  · next hTiny =>
    have hTiny' := (hLongest.lt_iff denotes_shortLeg).mp hTiny
    have hx : Near (x * stretch) 200 := by
      have hLeg : Near x (-400) := ⟨v, hv, (le_max_left _ _).trans hTiny'.le⟩
      exact hLeg.mul hStretch (by decide) (by decide)
    have hy : Near (y * stretch) 200 := by
      have hLeg : Near y (-400) := ⟨w, hw, (le_max_right _ _).trans hTiny'.le⟩
      exact hLeg.mul hStretch (by decide) (by decide)
    obtain ⟨r, hr, hrPos, hrBound⟩ := inside_root hx hy (by decide) (by decide)
    refine (hr.mul denotes_shrink).inside_zero_two_zpow (mul_nonneg hrPos (two_zpow_pos _).le) ?_ (by decide)
      (by decide)
    calc r * 2 ^ (-600 : ℤ) ≤ 2 ^ (201 : ℤ) * 2 ^ (-600 : ℤ) :=
          mul_le_mul_of_nonneg_right hrBound (two_zpow_pos _).le
      _ = 2 ^ (-399 : ℤ) := (zpow_add₀ (by norm_num) _ _).symm
      _ ≤ 2 ^ (22 : ℤ) := zpow_le_zpow_right₀ (by norm_num) (by decide)
  · exact hNear

/-- A length is never below zero. It may be infinite, or undefined where a leg is. -/
theorem amount_hypot (h : (hypot x y).isNaN = false) : Amount (hypot x y) := by
  have hScaled {root factor : Float} {b : ℝ} (hFactor : Denotes factor b) (hPos : 0 < b)
      (hNumber : (root.sqrt * factor).isNaN = false) : Amount (root.sqrt * factor) := by
    cases hRoot : root.sqrt.isNaN with
    | false => exact (Amount.sqrt hRoot).mul_right hFactor hPos
    | true =>
      rw [isNaN_mul_of_isNaN hRoot] at hNumber
      cases hNumber
  rw [hypot] at h ⊢
  split at h
  · rename_i hInfinite
    rw [if_pos hInfinite]
    exact .inr rfl
  · rename_i hFinite
    rw [if_neg hFinite]
    dsimp only at h ⊢
    split at h
    · rename_i hLong
      rw [if_pos hLong]
      exact hScaled denotes_stretch (two_zpow_pos _) h
    · rename_i hLong
      rw [if_neg hLong]
      split at h
      · rename_i hShort
        rw [if_pos hShort]
        exact hScaled denotes_shrink (two_zpow_pos _) h
      · rename_i hShort
        rw [if_neg hShort]
        exact .sqrt h

end TrackLayout.Binary64
