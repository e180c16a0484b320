import TrackLayout.Proofs.Binary64.Identity
import TrackLayout.Proofs.Binary64.Magnitude
import TrackLayout.Proofs.Binary64.Whole
import TrackLayout.Proofs.Decimal.Style

/-!
# The nearest value to a numeral

The value of a numeral is rounded once, so what is read is the nearest value to
what is written. The shortest digits of a finite value lie in its rounding
interval, and with them the sign of the value, that of a zero included, so the
nearest value to them is that value again.
-/
set_option autoImplicit false

namespace TrackLayout

open Binary64
open Float.Model Float.Model.UnpackedFloat

/-! ## Scaling by a power of ten -/

/-- A product of any two whole numbers, one of them widened, is computed with enough bits. -/
theorem computes_enlarged {m t : ℕ} (hm : 0 < m) (ht : 52 ≤ t) (n : ℕ) {hLeft : 0 < m <<< t} {hRight : 0 < 10 ^ n} :
    Computes (UnpackedFloat.mul .binary64 (.finite .positive (m <<< t) (-t) hLeft)
      (.finite .positive (10 ^ n) 0 hRight)) (m * 10 ^ n) := by
  refine computes_roundWithAccuracy (.positive * .positive) (x := m * 10 ^ n) ?_ (.inl ?_)
  · have hWord : ((m <<< t : ℕ) : ℝ) * 2 ^ (-(t : ℤ)) = m := by
      rw [Nat.shiftLeft_eq, Nat.cast_mul, Nat.cast_pow, Nat.cast_two, zpow_neg, zpow_natCast, mul_assoc,
        mul_inv_cancel₀ (pow_ne_zero t (by norm_num)), mul_one]
    change _ = (((m <<< t) * 10 ^ n : ℕ) : ℝ)
    rw [div_eq_iff (two_zpow_pos _).ne', add_zero, Nat.cast_mul, mul_right_comm, hWord, Nat.cast_pow, Nat.cast_ofNat]
  · rw [Nat.shiftLeft_eq]
    calc 2 ^ 52 ≤ 2 ^ t := Nat.pow_le_pow_right (by decide) ht
      _ ≤ m * 2 ^ t := Nat.le_mul_of_pos_left _ hm
      _ ≤ m * 2 ^ t * 10 ^ n := Nat.le_mul_of_pos_right _ hRight

/-- A whole number scaled by a power of ten is rounded once. -/
theorem computes_ofScientific (m : ℕ) {e : ℤ} (he : e.natAbs ≤ 2 ^ 11) :
    Computes (UnpackedFloat.ofScientific .binary64 m e) (movePoint m e) := by
  have hHigh : ¬e > 2 ^ Format.binary64.exponentBits := by
    change ¬e > 2 ^ 11
    omega
  have hLow : ¬e < -((2 ^ Format.binary64.exponentBits : ℤ) + m.log2) := by
    change ¬e < -(2 ^ 11 + (m.log2 : ℤ))
    omega
  rw [UnpackedFloat.ofScientific]
  by_cases hm : m = 0
  · rw [dif_pos hm, hm, movePoint, Nat.cast_zero, zero_mul]
    exact computes_self trivial rfl
  · have hPos : 0 < m := Nat.pos_of_ne_zero hm
    rw [dif_neg hm, if_neg hHigh, if_neg hLow]
    by_cases hWhole : 0 ≤ e
    · have hTen : movePoint m e = m * 10 ^ e.toNat := by
        rw [← movePoint_natCast, Int.toNat_of_nonneg hWhole]
      rw [if_pos hWhole, hTen]
      exact computes_enlarged hPos (by decide) e.toNat
    · have hTen : movePoint m e = m / (10 ^ (-e).toNat : ℕ) := by
        rw [Nat.cast_pow, Nat.cast_ofNat, ← movePoint_neg, Int.toNat_of_nonneg (by omega), neg_neg]
      have hQuotient := computes_quotient .positive .positive hPos (n := 10 ^ (-e).toNat) (Nat.pow_pos (by decide)) 0 0
      rw [signed, signed, zpow_zero, mul_one, mul_one] at hQuotient
      rwa [if_neg hWhole, hTen]

theorem rational_power : ∀ n ≤ 22, Float.exactlyRepresentablePowersOfTen[n]?.bind rational? = some (10 ^ n) := by
  decide +kernel

/-- The powers of ten that need no rounding are those they are meant to be. -/
theorem denotes_power {n : ℕ} (hn : n ≤ 22) (h : n < Float.exactlyRepresentablePowersOfTen.size) :
    Denotes (Float.exactlyRepresentablePowersOfTen[n]) (10 ^ n) := by
  have hPower := rational_power n hn
  rw [Array.getElem?_eq_getElem h, Option.bind_some] at hPower
  exact_mod_cast denotes_rational hPower

theorem nearest_ofScientific (m : ℕ) {e : ℤ} (he : e.natAbs ≤ 2 ^ 11) :
    Nearest (Float.ofScientific m (e < 0) e.natAbs) (movePoint m e) := by
  rw [Float.ofScientific]
  split
  · next hFast =>
    have hWord := denotes_toUInt64 hFast.1
    rw [Int.cast_natCast] at hWord
    have hPower := denotes_power hFast.2 (by simp [Float.exactlyRepresentablePowersOfTen]; omega)
    split
    · next hNegative =>
      have hExponent : e = -(e.natAbs : ℤ) := by
        rw [decide_eq_true_eq] at hNegative
        omega
      have hTen : (10 : ℝ) ^ e.natAbs ≠ 0 := pow_ne_zero _ (by norm_num)
      have hScaled := hWord.div hPower hTen
      rw [← movePoint_neg, ← hExponent] at hScaled
      exact hScaled
    · next hWhole =>
      have hExponent : e = (e.natAbs : ℤ) := by
        rw [decide_eq_true_eq] at hWhole
        omega
      have hScaled := hWord.mul hPower
      rw [← movePoint_natCast, ← hExponent] at hScaled
      exact hScaled
  · have hExponent : (if decide (e < 0) = true then Int.negOfNat e.natAbs else Int.ofNat e.natAbs) = e := by
      split
      · next hNegative =>
        rw [decide_eq_true_eq] at hNegative
        rw [Int.negOfNat_eq]
        change -(e.natAbs : ℤ) = e
        omega
      · next hWhole =>
        rw [decide_eq_true_eq] at hWhole
        change (e.natAbs : ℤ) = e
        omega
    dsimp only
    rw [hExponent]
    exact nearest_pack (computes_ofScientific m he)

/-! ## Values told by their digits -/

namespace Decimal

/-- The value that a sign and a magnitude make up. -/
theorem denotes_signed {y : Float} {w : ℝ} (hy : Denotes y w) (negative : Bool) :
    Denotes (if negative then -y else y) (if negative then -w else w) := by
  cases negative
  · exact hy
  · exact hy.neg

/-- The parts of a finite value other than zero. -/
theorem exists_parts {x : Float} {v : ℝ} (hx : Denotes x v) (hv : v ≠ 0) :
    ∃ (negative : Bool) (i : RoundingInterval),
      i.Canonical ∧ i.exponent ≤ 971 ∧ dyadic? x = some ⟨negative, i.mantissa, i.exponent⟩ ∧
        v = if negative then -i.value else i.value := by
  have hCanonical := canonical x
  have hClamp := clamp_unpack x
  obtain ⟨s, m, e, hm, h, rfl⟩ := hx.unpack_cases.resolve_left fun h => hv h.1
  rw [h] at hCanonical hClamp
  obtain ⟨hLess, hLeast, hFull⟩ := hCanonical
  refine ⟨s == .negative, ⟨m, e⟩, ⟨hm, hLess, hLeast, hFull⟩, exponent_le_of_clamp hClamp, ?_, ?_⟩
  · rw [dyadic?, h]
  · cases s <;> rfl

end Decimal

open Decimal

section Digits

variable {i : RoundingInterval} (h : i.Canonical) (hGreatest : i.exponent ≤ 971)

include h hGreatest

theorem natAbs_scale_le (negative : Bool) :
    (NumberStyle.json.numeral negative (shortest .even i.mantissa i.exponent)).scale.natAbs ≤ 2 ^ 11 := by
  obtain ⟨hInside, hFew⟩ := shortest_spec .even h hGreatest
  obtain ⟨hLow, hHigh⟩ := NumberStyle.scale_numeral_bounds negative (le_exponent h hInside hFew)
    (exponent_le h hInside hGreatest)
  omega

/-- The shortest digits of a value are read as that value, and so is its sign. -/
theorem denotes_toFloat_numeral (negative : Bool) (hSize : |i.value| < 2 ^ (1024 : ℤ)) :
    Denotes (NumberStyle.json.numeral negative (shortest .even i.mantissa i.exponent)).toFloat
      (if negative then -i.value else i.value) := by
  have hNearest := nearest_ofScientific
    (NumberStyle.json.numeral negative (shortest .even i.mantissa i.exponent)).coefficient
    (natAbs_scale_le h hGreatest negative)
  rw [← Numeral.magnitude, NumberStyle.magnitude_numeral] at hNearest
  have hRounds := RoundingInterval.rounds_value h (shortest_spec .even h hGreatest).1
  rw [Numeral.toFloat, NumberStyle.negative_numeral]
  exact denotes_signed (hNearest.denotes_of_rounds hRounds hSize) negative

end Digits

theorem toFloat_zero (s : Sign) : (NumberStyle.json.numeral? (.ofModel (.pack (.zero s)))).map Numeral.toFloat =
    some (.ofModel (.pack (.zero s))) := by
  cases s <;> rfl

/-- A finite value is the nearest one to its numeral. -/
theorem toFloat_numeral? {x : Float} (h : x.isFinite = true) :
    (NumberStyle.json.numeral? x).map Numeral.toFloat = some x := by
  obtain ⟨v, hx⟩ := exists_denotes h
  by_cases hv : v = 0
  · obtain ⟨s, hs⟩ := Denotes.eq_zero (hv ▸ hx)
    rw [hs, toFloat_zero]
  · obtain ⟨negative, i, hCanonical, hGreatest, hParts, hValue⟩ := exists_parts hx hv
    have hSize : |i.value| < 2 ^ (1024 : ℤ) := by
      have hBound := hx.abs_lt
      rw [hValue] at hBound
      split at hBound
      · rwa [abs_neg] at hBound
      · exact hBound
    have hRead := denotes_toFloat_numeral hCanonical hGreatest negative hSize
    rw [← hValue] at hRead
    rw [NumberStyle.numeral?, hParts, Option.map_some, Option.map_some]
    exact congrArg some (hRead.eq hx hv)

end TrackLayout
