import TrackLayout.Decimal.Shortest
import TrackLayout.Proofs.Binary64.Rounding

/-!
# Rounding intervals

The test whether a decimal lies in the rounding interval of a value is exact,
and what lies in the interval rounds to the value.
-/
set_option autoImplicit false

namespace TrackLayout

/-- A number with its decimal point moved by some places. -/
noncomputable def movePoint (x : ℝ) (places : ℤ) : ℝ := x * 10 ^ places

theorem movePoint_natCast (x : ℝ) (n : ℕ) : movePoint x n = x * 10 ^ n := by rw [movePoint, zpow_natCast]

theorem movePoint_neg (x : ℝ) (n : ℕ) : movePoint x (-n) = x / 10 ^ n := by
  rw [movePoint, zpow_neg, zpow_natCast, div_eq_mul_inv]

namespace Decimal

open Binary64

/-! ## Fractions -/

namespace Fraction

noncomputable def real (f : Fraction) : ℝ := f.num / f.den

theorem zpow_mul_pow_toNat {b : ℝ} (hb : b ≠ 0) (e : ℤ) : b ^ e * b ^ (-e).toNat = b ^ e.toNat := by
  rw [← zpow_natCast, ← zpow_natCast, ← zpow_add₀ hb]
  congr 1
  omega

variable (m : ℕ) (e k : ℤ)

theorem den_scaled_pos : 0 < (scaled m e k).den :=
  Nat.mul_pos (Nat.pow_pos (by decide)) (Nat.pow_pos (by decide))

theorem real_scaled : (scaled m e k).real = m * 2 ^ e / 10 ^ k := by
  have hDen : ((scaled m e k).den : ℝ) ≠ 0 := Nat.cast_ne_zero.mpr (den_scaled_pos m e k).ne'
  have hTwo := zpow_mul_pow_toNat (show (2 : ℝ) ≠ 0 by norm_num) e
  have hTen := zpow_mul_pow_toNat (show (10 : ℝ) ≠ 0 by norm_num) (-k)
  have hPow : (10 : ℝ) ^ k ≠ 0 := zpow_ne_zero k (by norm_num)
  rw [neg_neg, zpow_neg, inv_mul_eq_div, div_eq_iff hPow] at hTen
  rw [real, div_eq_div_iff hDen hPow]
  change ((m * 2 ^ e.toNat * 10 ^ (-k).toNat : ℕ) : ℝ) * 10 ^ k =
    m * 2 ^ e * ((2 ^ (-e).toNat * 10 ^ k.toNat : ℕ) : ℝ)
  push_cast
  rw [hTen, ← hTwo]
  ring

variable {f : Fraction} (hDen : 0 < f.den)

include hDen

theorem floor_bounds : (f.floor : ℝ) ≤ f.real ∧ f.real < f.floor + 1 := by
  have hPos : (0 : ℝ) < f.den := Nat.cast_pos.mpr hDen
  rw [real, le_div_iff₀ hPos, div_lt_iff₀ hPos]
  constructor
  · exact_mod_cast Nat.div_mul_le_self f.num f.den
  · rw [mul_comm]
    exact_mod_cast Nat.lt_mul_div_succ f.num hDen

theorem compareNat_eq_lt (d : ℕ) : f.compareNat d = .lt ↔ (d : ℝ) < f.real := by
  rw [compareNat, compare_lt_iff_lt, real, lt_div_iff₀ (Nat.cast_pos.mpr hDen)]
  exact_mod_cast Iff.rfl

theorem compareNat_eq_gt (d : ℕ) : f.compareNat d = .gt ↔ f.real < d := by
  rw [compareNat, compare_gt_iff_gt, real, div_lt_iff₀ (Nat.cast_pos.mpr hDen)]
  exact_mod_cast Iff.rfl

theorem compareNat_eq_eq (d : ℕ) : f.compareNat d = .eq ↔ (d : ℝ) = f.real := by
  rw [compareNat, compare_eq_iff_eq, real, eq_div_iff (Nat.cast_pos.mpr hDen).ne']
  exact_mod_cast Iff.rfl

end Fraction

/-! ## Rounding intervals -/

namespace RoundingInterval

/-- What the ends of the interval are multiples of `2 ^ (exponent - 2)` by. -/
def ends (i : RoundingInterval) : ℕ × ℕ := (4 * i.mantissa - if i.isNarrow then 1 else 2, 4 * i.mantissa + 2)

noncomputable def lower (i : RoundingInterval) : ℝ := i.ends.1 * 2 ^ (i.exponent - 2)

noncomputable def upper (i : RoundingInterval) : ℝ := i.ends.2 * 2 ^ (i.exponent - 2)

noncomputable def value (i : RoundingInterval) : ℝ := i.mantissa * 2 ^ i.exponent

variable {i : RoundingInterval} {k : ℤ} {d : ℕ}

theorem ten_zpow_pos (k : ℤ) : (0 : ℝ) < 10 ^ k := zpow_pos (by norm_num) k

/-- The two comparisons that `holds` makes. -/
theorem holds_eq (i : RoundingInterval) (k : ℤ) (d : ℕ) : i.holds k d =
    match (Fraction.scaled i.ends.1 (i.exponent - 2) k).compareNat d,
      (Fraction.scaled i.ends.2 (i.exponent - 2) k).compareNat d with
    | .gt, .lt => true
    | .eq, _ | _, .eq => i.mantissa % 2 == 0
    | _, _ => false := rfl

theorem compare_end (n : ℕ) (e k : ℤ) (d : ℕ) :
    ((Fraction.scaled n e k).compareNat d = .lt ↔ (d : ℝ) * 10 ^ k < n * 2 ^ e) ∧
      ((Fraction.scaled n e k).compareNat d = .gt ↔ (n : ℝ) * 2 ^ e < d * 10 ^ k) ∧
      ((Fraction.scaled n e k).compareNat d = .eq ↔ (d : ℝ) * 10 ^ k = n * 2 ^ e) := by
  have hDen := Fraction.den_scaled_pos n e k
  have hPow := ten_zpow_pos k
  rw [Fraction.compareNat_eq_lt hDen, Fraction.compareNat_eq_gt hDen, Fraction.compareNat_eq_eq hDen,
    Fraction.real_scaled, lt_div_iff₀ hPow, div_lt_iff₀ hPow, eq_div_iff hPow.ne']
  exact ⟨.rfl, .rfl, .rfl⟩

theorem lower_lt_upper (i : RoundingInterval) : i.lower < i.upper := by
  have hEnds : i.ends.1 < i.ends.2 := by
    rw [ends]
    omega
  exact mul_lt_mul_of_pos_right (Nat.cast_lt.mpr hEnds) (two_zpow_pos _)

/-- The ends belong to the interval only if the mantissa is even. -/
structure Contains (i : RoundingInterval) (x : ℝ) : Prop where
  lower_le : i.lower ≤ x
  le_upper : x ≤ i.upper
  even : x = i.lower ∨ x = i.upper → Even i.mantissa

theorem contains_of_holds (h : i.holds k d = true) : i.Contains (d * 10 ^ k) := by
  obtain ⟨hBelow, hAbove, hAt⟩ := compare_end i.ends.1 (i.exponent - 2) k d
  obtain ⟨hBelow', hAbove', hAt'⟩ := compare_end i.ends.2 (i.exponent - 2) k d
  have hEnds := i.lower_lt_upper
  rw [holds_eq] at h
  split at h
  · next hFirst hSecond =>
    have hLow := hAbove.mp hFirst
    have hHigh := hBelow'.mp hSecond
    refine ⟨hLow.le, hHigh.le, ?_⟩
    rintro (hSame | hSame)
    · exact absurd hSame hLow.ne'
    · exact absurd hSame hHigh.ne
  · next hFirst =>
    have hLow := hAt.mp hFirst
    exact ⟨hLow.ge, hLow.trans_le hEnds.le, fun _ => Nat.even_iff.mpr (eq_of_beq h)⟩
  · next hSecond _ =>
    have hHigh := hAt'.mp hSecond
    exact ⟨hEnds.le.trans hHigh.ge, hHigh.le, fun _ => Nat.even_iff.mpr (eq_of_beq h)⟩
  · cases h

theorem holds_of_lt (hLower : i.lower < d * 10 ^ k) (hUpper : (d : ℝ) * 10 ^ k < i.upper) :
    i.holds k d = true := by
  obtain ⟨-, hAbove, -⟩ := compare_end i.ends.1 (i.exponent - 2) k d
  obtain ⟨hBelow, -, -⟩ := compare_end i.ends.2 (i.exponent - 2) k d
  rw [holds_eq, hAbove.mpr hLower, hBelow.mpr hUpper]

/-! ## What is inside rounds back -/

/-- The mantissa and the exponent of a finite value other than zero. -/
structure Canonical (i : RoundingInterval) : Prop where
  pos : 0 < i.mantissa
  lt : i.mantissa < 2 ^ 53
  least : -1074 ≤ i.exponent
  full : 2 ^ 52 ≤ i.mantissa ∨ i.exponent = -1074

theorem isNarrow_iff : i.isNarrow = true ↔ i.mantissa = 2 ^ 52 ∧ -1074 < i.exponent := by
  rw [isNarrow, Bool.and_eq_true, beq_iff_eq, decide_eq_true_eq]
  exact Iff.rfl

theorem quarter (e : ℤ) : (2 : ℝ) ^ e = 4 * 2 ^ (e - 2) := by
  rw [zpow_sub₀ (by norm_num)]
  norm_num
  ring

theorem upper_eq (i : RoundingInterval) : i.upper = i.value + 2 ^ i.exponent / 2 := by
  rw [upper, value, ends, quarter i.exponent]
  push_cast
  ring

theorem lower_eq (h : i.Canonical) (hNarrow : i.isNarrow = false) : i.lower = i.value - 2 ^ i.exponent / 2 := by
  have hPos := h.pos
  rw [lower, value, ends, hNarrow, quarter i.exponent]
  push_cast [show 2 ≤ 4 * i.mantissa by omega]
  ring

theorem lower_eq_narrow (h : i.Canonical) (hNarrow : i.isNarrow = true) : i.lower = i.value - 2 ^ i.exponent / 4 := by
  have hPos := h.pos
  rw [lower, value, ends, hNarrow, if_pos rfl, quarter i.exponent]
  push_cast [show 1 ≤ 4 * i.mantissa by omega]
  ring

/-- The lower end is at least half a unit away, at most a whole one. -/
theorem lower_bounds (h : i.Canonical) :
    i.value - 2 ^ i.exponent / 2 ≤ i.lower ∧ i.lower ≤ i.value - 2 ^ i.exponent / 4 := by
  have hPow := two_zpow_pos i.exponent
  cases hNarrow : i.isNarrow with
  | false =>
    rw [lower_eq h hNarrow]
    constructor <;> linarith
  | true =>
    rw [lower_eq_narrow h hNarrow]
    constructor <;> linarith

theorem Canonical.value_pos (h : i.Canonical) : 0 < i.value := mul_pos (Nat.cast_pos.mpr h.pos) (two_zpow_pos _)

theorem lower_pos (h : i.Canonical) : 0 < i.lower := by
  have hPow := two_zpow_pos i.exponent
  have hOne : (1 : ℝ) ≤ i.mantissa := by exact_mod_cast h.pos
  have hValue : (2 : ℝ) ^ i.exponent ≤ i.value := by
    rw [value]
    linarith [mul_le_mul_of_nonneg_right hOne hPow.le]
  linarith [(lower_bounds h).1]

section Inside

variable (h : i.Canonical) {x : ℝ} (hx : i.Contains x)

include h hx

theorem Contains.pos : 0 < x := (lower_pos h).trans_le hx.lower_le

theorem lt_two_zpow : |x| < 2 ^ (i.exponent + 53) := by
  have hPow := two_zpow_pos i.exponent
  have hMantissa : (i.mantissa : ℝ) + 1 ≤ 2 ^ 53 := by exact_mod_cast h.lt
  have hUpper := hx.le_upper
  rw [abs_of_pos (hx.pos h), zpow_add₀ (by norm_num)]
  rw [upper_eq, value] at hUpper
  have hScaled := mul_le_mul_of_nonneg_right hMantissa hPow.le
  norm_num at hScaled ⊢
  linarith

/-- A number that is as large as the mantissa promises has the last place of the value. -/
theorem rounds_of_full (hFull : 2 ^ (i.exponent + 52) ≤ x ∨ i.exponent = -1074) : Rounds x i.value := by
  have hPow := two_zpow_pos i.exponent
  have hPos := hx.pos h
  have hLower := hx.lower_le
  have hUpper := hx.le_upper
  obtain ⟨hNear, hFar⟩ := lower_bounds h
  have hUp := upper_eq i
  refine ⟨i.exponent, i.mantissa, ⟨h.least, lt_two_zpow h hx, ?_⟩, by rw [value, Int.cast_natCast],
    abs_le.mpr ⟨by linarith, by linarith⟩, fun hTie => ?_⟩
  · rwa [abs_of_pos hPos]
  · rw [Int.even_coe_nat]
    rcases abs_eq (half_pos hPow).le |>.mp hTie with hBelow | hAbove
    · exact hx.even (.inl (le_antisymm (by linarith) hLower))
    · exact hx.even (.inr (by linarith))

/-- A smaller number is just below a power of two and has half the last place. -/
theorem rounds_of_narrow (hSmall : x < 2 ^ (i.exponent + 52)) (hLeast : i.exponent ≠ -1074) :
    Rounds x i.value := by
  have hPow := two_zpow_pos i.exponent
  have hPos := hx.pos h
  have hLower := hx.lower_le
  have hExponent := h.least
  have hMantissa := h.full.resolve_right hLeast
  have hPower : (2 : ℝ) ^ (i.exponent + 52) = 2 ^ 52 * 2 ^ i.exponent := by
    rw [zpow_add₀ (by norm_num), mul_comm]
    norm_num
  have hTop : i.mantissa = 2 ^ 52 := by
    by_contra hMore
    have hCast : (2 : ℝ) ^ 52 + 1 ≤ i.mantissa := by exact_mod_cast (show 2 ^ 52 + 1 ≤ i.mantissa by omega)
    have hScaled := mul_le_mul_of_nonneg_right hCast hPow.le
    have hNear := (lower_bounds h).1
    rw [value] at hNear
    linarith
  have hNarrow := isNarrow_iff.mpr ⟨hTop, by omega⟩
  have hValue : i.value = 2 ^ (i.exponent + 52) := by
    rw [hPower, value, hTop]
    norm_num
  have hHalf : (2 : ℝ) ^ i.exponent = 2 * 2 ^ (i.exponent - 1) := by
    rw [zpow_sub_one₀ (by norm_num)]
    ring
  have hLow := lower_eq_narrow h hNarrow
  refine ⟨i.exponent - 1, 2 ^ 53, ⟨by omega, ?_, .inl ?_⟩, ?_, ?_, fun _ => by decide⟩
  · rw [abs_of_pos hPos]
    exact hSmall.trans_eq (congrArg _ (by omega))
  · rw [abs_of_pos hPos, show i.exponent - 1 + 52 = i.exponent + 51 by omega]
    have hLess : (2 : ℝ) ^ (i.exponent + 51) = 2 ^ 51 * 2 ^ i.exponent := by
      rw [zpow_add₀ (by norm_num), mul_comm]
      norm_num
    rw [hLess]
    linarith
  · rw [hValue, hPower, hHalf]
    push_cast
    ring
  · rw [abs_of_nonneg (by linarith)]
    linarith

end Inside

/-- What lies in the interval rounds to the value. -/
theorem rounds_value (h : i.Canonical) {x : ℝ} (hx : i.Contains x) : Rounds x i.value := by
  by_cases hFull : 2 ^ (i.exponent + 52) ≤ x ∨ i.exponent = -1074
  · exact rounds_of_full h hx hFull
  · rw [not_or, not_le] at hFull
    exact rounds_of_narrow h hx hFull.1 hFull.2

end RoundingInterval

end Decimal

end TrackLayout
