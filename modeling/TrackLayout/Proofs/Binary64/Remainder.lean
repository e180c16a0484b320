import TrackLayout.Binary64.Remainder
import TrackLayout.Proofs.Binary64.Error

/-!
# Remainders of finite values

The remainder of a truncating division has the sign of the dividend and needs
no rounding, however far the sizes of the operands are apart. A remainder that
is moved up by the divisor may be rounded to the divisor itself, so that the
range it lies in is closed at both ends.
-/
set_option autoImplicit false

namespace TrackLayout.Binary64

open Float.Model.UnpackedFloat (Sign)

variable {x y : Float} {v w : ℝ}

namespace Dyadic

/-- The number without its sign. -/
noncomputable def size (d : Dyadic) : ℝ := d.mantissa * 2 ^ d.exponent

/-- How many times a lesser power of two the number is. -/
def units (d : Dyadic) (t : ℤ) : ℕ := d.mantissa <<< (d.exponent - t).toNat

/-- A value that is stored. -/
structure Fits (d : Dyadic) : Prop where
  mantissa : d.mantissa < 2 ^ 53
  exponent : -1074 ≤ d.exponent

variable {c d : Dyadic} {t : ℤ}

theorem size_nonneg (d : Dyadic) : 0 ≤ d.size := mul_nonneg (Nat.cast_nonneg _) (two_zpow_pos _).le

theorem units_mul (ht : t ≤ d.exponent) : d.units t * 2 ^ t = d.size := shiftLeft_mul d.mantissa ht

theorem units_self (d : Dyadic) : d.units d.exponent = d.mantissa := by
  rw [units, sub_self, Int.toNat_zero, Nat.shiftLeft_zero]

theorem units_pos (h : d.size ≠ 0) (t : ℤ) : 0 < d.units t := by
  have hMantissa : d.mantissa ≠ 0 := fun hZero => h (by rw [size, hZero, Nat.cast_zero, zero_mul])
  rw [units, Nat.shiftLeft_eq]
  exact Nat.mul_pos (Nat.pos_of_ne_zero hMantissa) (Nat.two_pow_pos _)

/-- One of two numbers keeps its mantissa when both are counted in the lesser of their units. -/
theorem units_mod_le (hd : d.Fits) (hc : c.Fits) (hZero : c.size ≠ 0) (ht : t = min d.exponent c.exponent) :
    d.units t % c.units t ≤ 2 ^ 53 := by
  rcases min_choice d.exponent c.exponent with hLeast | hLeast
  · rw [ht, hLeast, units_self]
    exact (Nat.mod_le _ _).trans hd.mantissa.le
  · have hMod := Nat.mod_lt (d.units t) (units_pos hZero t)
    rw [ht, hLeast, units_self] at hMod ⊢
    exact hMod.le.trans hc.mantissa.le

end Dyadic

theorem exists_dyadic? (hx : Denotes x v) :
    ∃ d, dyadic? x = some d ∧ d.Fits ∧ v = signed (Sign.ofBool d.negative) d.size := by
  have hCanonical := canonical x
  obtain ⟨rfl, s, h⟩ | ⟨s, m, e, hm, h, rfl⟩ := hx.unpack_cases
  · refine ⟨⟨s == .negative, 0, 0⟩, by rw [dyadic?, h], ⟨Nat.two_pow_pos 53, Int.neg_ofNat_le_ofNat 1074 0⟩, ?_⟩
    cases s <;> simp [signed, Sign.ofBool, Dyadic.size]
  · rw [h] at hCanonical
    refine ⟨⟨s == .negative, m, e⟩, by rw [dyadic?, h], ⟨hCanonical.1, hCanonical.2.1⟩, ?_⟩
    cases s <;> rfl

/-- A number in reach of a value is stored as it is if it needs no rounding. -/
theorem Nearest.denotes {z : Float} {r : ℝ} (h : Nearest z r) (hExact : Representable r) (hy : Denotes y w)
    (hr : |r| ≤ |w|) : Denotes z r := by
  obtain ⟨hLow, hHigh⟩ := abs_le.mp hr
  obtain ⟨u, hu, -⟩ := h.inside_of_denotes hy.abs.neg hy.abs hLow hHigh
  rwa [(h.rounds hu).eq_of_representable hExact] at hu

theorem representable_signed {m : ℕ} {t : ℤ} (s : Sign) (hm : m ≤ 2 ^ 53) (ht : -1074 ≤ t) :
    Representable (signed s (m * 2 ^ t)) := by
  have hWhole : Representable (((m : ℤ) : ℝ) * 2 ^ t) :=
    representable_intCast_mul (by rw [Nat.abs_cast]; exact_mod_cast hm) ht
  rw [Int.cast_natCast] at hWhole
  cases s
  · exact hWhole.neg
  · exact hWhole

/-- The size of the dividend is a multiple of the divisor and the size of the remainder, which is less than the
divisor and has the sign of the dividend. -/
theorem denotes_remainder (hx : Denotes x v) (hy : Denotes y w) (hw : w ≠ 0) :
    ∃ (s : Sign) (q : ℕ) (r : ℝ), v = signed s (q * |w| + r) ∧ 0 ≤ r ∧ r < |w| ∧
      Denotes (remainder x y) (signed s r) := by
  obtain ⟨d, hLeft, hd, hv⟩ := exists_dyadic? hx
  obtain ⟨c, hRight, hc, hDivisor⟩ := exists_dyadic? hy
  have hSize : |w| = c.size := by rw [hDivisor, abs_signed, abs_of_nonneg c.size_nonneg]
  have hZero : c.size ≠ 0 := by rwa [← hSize, abs_ne_zero]
  -- both are counted in the lesser of their units
  obtain ⟨t, ht⟩ : ∃ t, t = min d.exponent c.exponent := ⟨_, rfl⟩
  have hPow := two_zpow_pos t
  have hUnits : d.units t * 2 ^ t = d.size := Dyadic.units_mul (by omega)
  have hUnits' : c.units t * 2 ^ t = c.size := Dyadic.units_mul (by omega)
  have hFits := Dyadic.units_mod_le hd hc hZero ht
  have hLess : ((d.units t % c.units t : ℕ) : ℝ) * 2 ^ t < |w| := by
    rw [hSize, ← hUnits']
    exact mul_lt_mul_of_pos_right (Nat.cast_lt.mpr (Nat.mod_lt _ (Dyadic.units_pos hZero t))) hPow
  have hPos : (0 : ℝ) ≤ (d.units t % c.units t : ℕ) * 2 ^ t := mul_nonneg (Nat.cast_nonneg _) hPow.le
  have hRemainder : remainder x y = nearest d.negative (d.units t % c.units t) t := by
    have hMantissa : c.isZero = false := by
      rw [Dyadic.isZero, beq_eq_false_iff_ne]
      intro hNone
      apply hZero
      rw [Dyadic.size, hNone, Nat.cast_zero, zero_mul]
    rw [remainder, hLeft, hRight]
    dsimp only
    rw [hMantissa, ht]
    rfl
  refine ⟨Sign.ofBool d.negative, d.units t / c.units t, (d.units t % c.units t : ℕ) * 2 ^ t, ?_, hPos, hLess, ?_⟩
  · have hSplit : ((c.units t * (d.units t / c.units t) + d.units t % c.units t : ℕ) : ℝ) = d.units t := by
      rw [Nat.div_add_mod]
    rw [hv, hSize, ← hUnits, ← hUnits', ← hSplit]
    push_cast
    congr 1
    ring
  · rw [hRemainder]
    have hLeast : -1074 ≤ t := ht ▸ le_min hd.exponent hc.exponent
    refine (nearest_nearest d.negative _ hLeast).denotes (representable_signed _ hFits hLeast) hy ?_
    rw [abs_signed, abs_of_nonneg hPos]
    exact hLess.le

/-- Whatever the sign, the remainder is moved into a range that is closed at both ends. -/
theorem inside_floorRemainder (hx : Denotes x v) (hy : Denotes y w) (hw : w ≠ 0) :
    Inside (floorRemainder x y) 0 |w| := by
  obtain ⟨s, q, r, -, hPos, hLess, hr⟩ := denotes_remainder hx hy hw
  have hZero : Denotes (0.0 : Float) 0 := rfl
  obtain ⟨hLow, hHigh⟩ := abs_le.mp ((abs_signed s r).trans (abs_of_nonneg hPos)).le
  rw [floorRemainder]
  split
  · next hNegative =>
    have hBelow := (hr.lt_iff hZero).mp hNegative
    exact (hr.add hy.abs).inside_of_denotes hZero hy.abs (by linarith) (by linarith)
  · next hNotNegative =>
    have hAbove := not_lt.mp fun hBelow => hNotNegative ((hr.lt_iff hZero).mpr hBelow)
    exact ⟨_, hr, hAbove, by linarith⟩

end TrackLayout.Binary64
