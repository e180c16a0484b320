import TrackLayout.Proofs.Binary64.Magnitude

/-!
# Relative errors

How far a computed positive number may be from the exact one, in roundings. A
product of numbers that are some roundings off is as many roundings off as both
together, and one more.
-/
set_option autoImplicit false

namespace TrackLayout.Binary64

/-- The relative error of some roundings. -/
noncomputable def roundings (k : ℕ) : ℝ := k * 2 ^ (-53 : ℤ)

theorem roundings_nonneg (k : ℕ) : 0 ≤ roundings k := mul_nonneg (Nat.cast_nonneg k) (two_zpow_pos _).le

theorem roundings_mono {k l : ℕ} (h : k ≤ l) : roundings k ≤ roundings l :=
  mul_le_mul_of_nonneg_right (Nat.cast_le.mpr h) (two_zpow_pos _).le

theorem roundings_add (k l : ℕ) : roundings (k + l) = roundings k + roundings l := by
  rw [roundings, Nat.cast_add, add_mul]
  rfl

/-- Errors of errors are less than one rounding. -/
theorem roundings_mul_le {k l : ℕ} (hk : k ≤ 16) (hl : l ≤ 17) : roundings k * roundings l ≤ roundings 1 := by
  calc roundings k * roundings l ≤ roundings 16 * roundings 17 :=
        mul_le_mul (roundings_mono hk) (roundings_mono hl) (roundings_nonneg l) (roundings_nonneg 16)
    _ ≤ roundings 1 := by
      rw [roundings, roundings, roundings]
      norm_num

theorem roundings_lt_one {k : ℕ} (h : k ≤ 17) : roundings k < 1 := by
  refine (roundings_mono h).trans_lt ?_
  rw [roundings]
  norm_num

/-- `y` is at most `k` roundings off the positive number `x`. -/
structure Close (k : ℕ) (x y : ℝ) : Prop where
  pos : 0 < x
  le : x * (1 - roundings k) ≤ y
  ge : y ≤ x * (1 + roundings k)

namespace Close

variable {k l : ℕ} {x y z w : ℝ}

theorem mono (h : Close k x y) (hkl : k ≤ l) : Close l x y := by
  have hMore := roundings_mono hkl
  exact ⟨h.pos, (mul_le_mul_of_nonneg_left (by linarith) h.pos.le).trans h.le,
    h.ge.trans (mul_le_mul_of_nonneg_left (by linarith) h.pos.le)⟩

theorem of_abs_sub_le (hx : 0 < x) (h : |y - x| ≤ x * roundings k) : Close k x y := by
  obtain ⟨hLow, hHigh⟩ := abs_le.mp h
  exact ⟨hx, by linarith, by linarith⟩

theorem abs_sub_le (h : Close k x y) : |y - x| ≤ x * roundings k :=
  abs_le.mpr ⟨by linarith [h.le], by linarith [h.ge]⟩

theorem mul_left (h : Close k x y) (hz : 0 < z) : Close k (z * x) (z * y) := by
  refine ⟨mul_pos hz h.pos, ?_, ?_⟩
  · rw [mul_assoc]
    exact mul_le_mul_of_nonneg_left h.le hz.le
  · rw [mul_assoc]
    exact mul_le_mul_of_nonneg_left h.ge hz.le

section Small

variable (h : Close k x y) (hk : k ≤ 16)

include h hk

theorem pos_right : 0 < y :=
  (mul_pos h.pos (sub_pos.mpr (roundings_lt_one (by omega)))).trans_le h.le

theorem trans (h' : Close l y z) (hl : l ≤ 16) : Close (k + l + 1) x z := by
  have hBoth := roundings_mul_le hk (Nat.le_succ_of_le hl)
  have hNone := mul_nonneg (roundings_nonneg k) (roundings_nonneg l)
  have hOne := roundings_nonneg 1
  refine ⟨h.pos, ?_, ?_⟩
  · calc x * (1 - roundings (k + l + 1)) ≤ x * ((1 - roundings k) * (1 - roundings l)) := by
          refine mul_le_mul_of_nonneg_left ?_ h.pos.le
          rw [roundings_add, roundings_add]
          linarith
      _ = x * (1 - roundings k) * (1 - roundings l) := (mul_assoc _ _ _).symm
      _ ≤ y * (1 - roundings l) := mul_le_mul_of_nonneg_right h.le (sub_pos.mpr (roundings_lt_one (by omega))).le
      _ ≤ z := h'.le
  · calc z ≤ y * (1 + roundings l) := h'.ge
      _ ≤ x * (1 + roundings k) * (1 + roundings l) :=
        mul_le_mul_of_nonneg_right h.ge (by linarith [roundings_nonneg l])
      _ = x * ((1 + roundings k) * (1 + roundings l)) := mul_assoc _ _ _
      _ ≤ x * (1 + roundings (k + l + 1)) := by
        refine mul_le_mul_of_nonneg_left ?_ h.pos.le
        rw [roundings_add, roundings_add]
        linarith

theorem mul (h' : Close l z w) (hl : l ≤ 16) : Close (k + l + 1) (x * z) (y * w) := by
  have hFirst := h.mul_left h'.pos
  have hSecond := h'.mul_left (h.pos_right hk)
  rw [mul_comm z, mul_comm z] at hFirst
  exact hFirst.trans hk hSecond hl

theorem inv : Close (k + 1) x⁻¹ y⁻¹ := by
  have hy := h.pos_right hk
  have hSmall := roundings_mul_le (l := k + 1) hk (by omega)
  have hBoth := mul_nonneg (roundings_nonneg k) (roundings_nonneg (k + 1))
  have hOne := roundings_nonneg 1
  have hTotal := roundings_add k 1
  refine ⟨inv_pos.mpr h.pos, ?_, ?_⟩
  · rw [inv_mul_eq_div, inv_eq_one_div, div_le_div_iff₀ h.pos hy, one_mul]
    calc (1 - roundings (k + 1)) * y ≤ (1 - roundings (k + 1)) * (x * (1 + roundings k)) :=
          mul_le_mul_of_nonneg_left h.ge (sub_pos.mpr (roundings_lt_one (by omega))).le
      _ = x * ((1 - roundings (k + 1)) * (1 + roundings k)) := mul_left_comm _ _ _
      _ ≤ x * 1 := mul_le_mul_of_nonneg_left (by linarith) h.pos.le
      _ = x := mul_one x
  · rw [inv_mul_eq_div, inv_eq_one_div, div_le_div_iff₀ hy h.pos, one_mul]
    calc x = x * 1 := (mul_one x).symm
      _ ≤ x * ((1 + roundings (k + 1)) * (1 - roundings k)) := mul_le_mul_of_nonneg_left (by linarith) h.pos.le
      _ = (1 + roundings (k + 1)) * (x * (1 - roundings k)) := mul_left_comm _ _ _
      _ ≤ (1 + roundings (k + 1)) * y :=
        mul_le_mul_of_nonneg_left h.le (by linarith [roundings_nonneg (k + 1)])

theorem div (h' : Close l z w) (hl : l + 1 ≤ 16) : Close (k + l + 2) (x / z) (y / w) := by
  rw [div_eq_mul_inv, div_eq_mul_inv]
  exact h.mul hk (h'.inv (by omega)) hl

end Small

end Close

/-! ## Rounded numbers -/

theorem Rounds.eq_of_representable {x v : ℝ} (h : Rounds x v) (hx : Representable x) : v = x :=
  le_antisymm (h.le_of_le hx le_rfl) (h.ge_of_ge hx le_rfl)

/-- The error of rounding, also where the last place is the least one. -/
theorem Rounds.abs_sub_le_add {x v : ℝ} (h : Rounds x v) : |v - x| ≤ |x| * roundings 1 + 2 ^ (-1075 : ℤ) := by
  have hLeast := two_zpow_pos (-1075)
  by_cases hNormal : 2 ^ (-1022 : ℤ) ≤ |x|
  · have hNear := h.abs_sub_le le_rfl hNormal
    rw [roundings, Nat.cast_one, one_mul]
    linarith
  · obtain ⟨t, r, hPlace, rfl, hNear, -⟩ := h
    have hPlaceLeast : t = -1074 := by
      refine hPlace.le.resolve_left fun hFull => ?_
      have hLess := (zpow_lt_zpow_iff_right₀ (show (1 : ℝ) < 2 by norm_num)).mp
        (hFull.trans_lt (not_le.mp hNormal))
      have := hPlace.least
      omega
    have hHalf : (2 : ℝ) ^ t / 2 = 2 ^ (-1075 : ℤ) := by
      rw [hPlaceLeast, div_eq_mul_inv, ← zpow_sub_one₀ (by norm_num)]
      rfl
    rw [hHalf] at hNear
    have hSize := mul_nonneg (abs_nonneg x) (roundings_nonneg 1)
    linarith

theorem Rounds.eq_natCast {c : ℕ} {v : ℝ} (h : Rounds c v) (hc : c ≤ 2 ^ 53) : v = c := by
  have hWhole := representable_intCast (r := (c : ℤ)) (by rw [Nat.abs_cast]; exact_mod_cast hc)
  rw [Int.cast_natCast] at hWhole
  exact h.eq_of_representable hWhole

theorem Rounds.close {x v : ℝ} (h : Rounds x v) (hx : 2 ^ (-1022 : ℤ) ≤ x) : Close 1 x v := by
  have hPos := (two_zpow_pos _).trans_le hx
  refine .of_abs_sub_le hPos ?_
  rw [roundings, Nat.cast_one, one_mul]
  exact h.abs_sub_le (abs_of_pos hPos).le hx

/-- Rounding does not overflow before half a last place beyond the greatest value. -/
theorem Rounds.abs_lt {x v : ℝ} (h : Rounds x v) (hx : |x| < 2 ^ (1024 : ℤ) - 2 ^ (970 : ℤ)) :
    |v| < 2 ^ (1024 : ℤ) := by
  obtain ⟨t, r, hPlace, rfl, hNear, -⟩ := h
  have hTop : t ≤ 971 := by
    rcases hPlace.le with hFull | rfl
    · have hLess : (2 : ℝ) ^ (t + 52) < 2 ^ (1024 : ℤ) :=
        hFull.trans_lt (hx.trans (sub_lt_self _ (two_zpow_pos 970)))
      have := (zpow_lt_zpow_iff_right₀ (show (1 : ℝ) < 2 by norm_num)).mp hLess
      omega
    · decide
  have hHalf : (2 : ℝ) ^ t / 2 ≤ 2 ^ (970 : ℤ) := by
    rw [div_eq_mul_inv, ← zpow_sub_one₀ (by norm_num)]
    exact zpow_le_zpow_right₀ (by norm_num) (by omega)
  have hSize := abs_sub_abs_le_abs_sub ((r : ℝ) * 2 ^ t) x
  linarith

theorem Nearest.exists_rounds_of_lt {z : Float} {x : ℝ} (h : Nearest z x)
    (hx : |x| < 2 ^ (1024 : ℤ) - 2 ^ (970 : ℤ)) : ∃ v, Rounds x v ∧ Denotes z v := by
  cases h with
  | finite v hRounds hValue => exact ⟨v, hRounds, hValue⟩
  | overflow s v hRounds hBeyond hValue =>
    have hSize := (le_abs_self (signed s v)).trans_lt ((abs_signed s v).trans_lt (hRounds.abs_lt hx))
    exact absurd hBeyond (not_le.mpr hSize)

end TrackLayout.Binary64
