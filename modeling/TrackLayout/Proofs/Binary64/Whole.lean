import Mathlib.Tactic.Linarith
import TrackLayout.Proofs.Binary64.Hypotenuse

/-!
# Exact arithmetic of whole numbers

Differences and products of whole numbers are computed without rounding as long
as they fit into the mantissa. The bound that is set on whole coordinates leaves
room for the difference of two products of differences.
-/
set_option autoImplicit false

namespace TrackLayout.Binary64

variable {x y : Float} {m n : ℤ}

/-- A whole number of at most 24 bits. -/
def IsWhole (x : Float) : Prop := ∃ n : ℤ, rational? x = some (n : ℚ) ∧ |n| ≤ 2 ^ 24

instance (x : Float) : Decidable (IsWhole x) :=
  decidable_of_iff ((rational? x).any (fun q => q.den = 1 ∧ |q.num| ≤ 2 ^ 24) = true) <| by
    rw [Option.any_eq_true]
    constructor
    · rintro ⟨q, hq, hWhole⟩
      obtain ⟨hDen, hSmall⟩ := of_decide_eq_true hWhole
      exact ⟨q.num, by rw [hq, Rat.coe_int_num_of_den_eq_one hDen], hSmall⟩
    · rintro ⟨n, hn, hSmall⟩
      exact ⟨n, hn, decide_eq_true ⟨Rat.den_intCast n, by rwa [Rat.num_intCast]⟩⟩

theorem IsWhole.exists_denotes (h : IsWhole x) : ∃ n : ℤ, Denotes x n ∧ |n| ≤ 2 ^ 24 := by
  obtain ⟨n, hn, hSmall⟩ := h
  have hDenotes := denotes_rational hn
  rw [Rat.cast_intCast] at hDenotes
  exact ⟨n, hDenotes, hSmall⟩

/-- A whole number that fits into the mantissa is not rounded. -/
theorem Nearest.exact (h : Nearest x (n : ℝ)) (hn : |n| ≤ 2 ^ 53) : Denotes x n := by
  have hExact : Representable (n : ℝ) := representable_intCast hn
  have hReal : |(n : ℝ)| ≤ 2 ^ (1023 : ℤ) := by
    calc |(n : ℝ)| = ((|n| : ℤ) : ℝ) := (Int.cast_abs).symm
      _ ≤ ((2 ^ 53 : ℤ) : ℝ) := Int.cast_le.mpr hn
      _ = 2 ^ (53 : ℤ) := by norm_cast
      _ ≤ 2 ^ (1023 : ℤ) := zpow_le_zpow_right₀ (by norm_num) (by decide)
  obtain ⟨v, hRounds, hv⟩ := h.exists_rounds hReal
  rwa [← le_antisymm (hRounds.le_of_le hExact le_rfl) (hRounds.ge_of_ge hExact le_rfl)]

theorem Denotes.sub_whole (hx : Denotes x m) (hy : Denotes y n) (hFits : |m - n| ≤ 2 ^ 53) :
    Denotes (x - y) ((m - n : ℤ) : ℝ) := by
  have hNearest := hx.sub hy
  rw [← Int.cast_sub] at hNearest
  exact hNearest.exact hFits

theorem Denotes.mul_whole (hx : Denotes x m) (hy : Denotes y n) (hFits : |m * n| ≤ 2 ^ 53) :
    Denotes (x * y) ((m * n : ℤ) : ℝ) := by
  have hNearest := hx.mul hy
  rw [← Int.cast_mul] at hNearest
  exact hNearest.exact hFits

theorem denotes_toUInt64 {k : ℕ} (hk : k < 2 ^ 53) : Denotes k.toUInt64.toFloat ((k : ℤ) : ℝ) := by
  have hWord : k.toUInt64.toNat = k := by
    change k % 2 ^ 64 = k
    omega
  have hStored : Nearest k.toUInt64.toFloat ((k.toUInt64.toNat : ℤ) : ℝ) := by
    have h := nearest_pack (computes_normalize k.toUInt64.toNat 0 .positive)
    rw [zpow_zero, mul_one] at h
    exact h
  have hFits : |(k : ℤ)| ≤ 2 ^ 53 := by
    rw [Nat.abs_cast]
    exact_mod_cast hk.le
  rw [hWord] at hStored
  exact hStored.exact hFits

/-- A count is stored as it is. -/
theorem denotes_toFloat {k : ℕ} (hk : k < 2 ^ 53) : Denotes k.toFloat ((k : ℤ) : ℝ) := by
  have hScaled : k.toFloat = k.toUInt64.toFloat * 1.0 := by
    change Float.ofScientific k false 0 = _
    rw [Float.ofScientific, dif_pos ⟨hk, by decide⟩]
    rfl
  have hFits : |(k : ℤ) * 1| ≤ 2 ^ 53 := by
    rw [mul_one, Nat.abs_cast]
    exact_mod_cast hk.le
  have hOne : Denotes (1.0 : Float) ((1 : ℤ) : ℝ) := by exact_mod_cast denotes_one
  have hWhole := (denotes_toUInt64 hk).mul_whole hOne hFits
  rwa [← hScaled, mul_one] at hWhole

theorem denotes_minimum {a b : ℝ} (hx : Denotes x a) (hy : Denotes y b) : Denotes (minimum x y) (min a b) := by
  rw [minimum_eq hy.isNaN]
  split
  · next h => rwa [min_eq_left ((hx.lt_iff hy).mp h).le]
  · next h => rwa [min_eq_right (not_lt.mp fun hLess => h ((hx.lt_iff hy).mpr hLess))]

end TrackLayout.Binary64
