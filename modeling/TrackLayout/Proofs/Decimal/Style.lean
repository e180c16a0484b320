import TrackLayout.Decimal.Style
import TrackLayout.Proofs.Decimal.Shortest

/-!
# Numerals of decimals

A numeral has the value of the decimal it is made of. A whole number that is
written in digits alone has one more of them, the zero behind its point, and
is short enough for that one not to count.
-/
set_option autoImplicit false

namespace TrackLayout

open Decimal

theorem lastDigits_succ (n count : ℕ) :
    lastDigits n (count + 1) = lastDigits (n / 10) count ++ [Fin.ofNat 10 n] := rfl

theorem length_lastDigits (n count : ℕ) : (lastDigits n count).length = count := by
  induction count generalizing n with
  | zero => rfl
  | succ count ih => rw [lastDigits_succ, List.length_append, ih, List.length_singleton]

/-- The last digits behind the others make up the number. -/
theorem foldl_lastDigits (n count : ℕ) :
    (lastDigits n count).foldl (fun m d => 10 * m + d.val) (n / 10 ^ count) = n := by
  induction count generalizing n with
  | zero => exact Nat.div_one n
  | succ count ih =>
    rw [lastDigits_succ, List.foldl_append, pow_succ', ← Nat.div_div_eq_div_mul, ih]
    change 10 * (n / 10) + n % 10 = n
    omega

/-- The value of a numeral without its sign. -/
noncomputable def Numeral.magnitude (n : Numeral) : ℝ := movePoint n.coefficient n.scale

namespace NumberStyle

theorem negative_numeral (style : NumberStyle) (negative : Bool) (d : Decimal) :
    (style.numeral negative d).negative = negative := by
  rw [numeral]
  split
  · split <;> rfl
  · rfl

/-- A numeral keeps the digits and the exponent, or is a whole number of at most sixteen digits. -/
theorem json_numeral_cases (negative : Bool) (d : Decimal) :
    ((json.numeral negative d).coefficient = d.coefficient ∧ (json.numeral negative d).scale = d.exponent) ∨
      0 ≤ d.exponent ∧ d.coefficient * 10 ^ d.exponent.toNat < 10 ^ 16 ∧
        (json.numeral negative d).coefficient = 10 * (d.coefficient * 10 ^ d.exponent.toNat) ∧
        (json.numeral negative d).scale = -1 := by
  obtain ⟨places, hPlaces⟩ : ∃ places, places = (Nat.toDigits 10 d.coefficient).length - 1 := ⟨_, rfl⟩
  rw [numeral, ← hPlaces]
  dsimp only
  split
  · next hPositional =>
    split
    · next hWhole =>
      right
      refine ⟨hWhole, ?_, rfl, rfl⟩
      have hTop : d.exponent + places ≤ 15 := by
        rw [json, Bool.and_eq_true, decide_eq_true_eq, decide_eq_true_eq] at hPositional
        exact hPositional.2
      have hDigits : d.coefficient < 10 ^ (places + 1) := by
        refine (Nat.length_toDigits_le_iff (by decide) (Nat.succ_pos _)).mp ?_
        omega
      calc d.coefficient * 10 ^ d.exponent.toNat < 10 ^ (places + 1) * 10 ^ d.exponent.toNat :=
            Nat.mul_lt_mul_of_pos_right hDigits (Nat.pow_pos (by decide))
        _ = 10 ^ (places + 1 + d.exponent.toNat) := (pow_add _ _ _).symm
        _ ≤ 10 ^ 16 := Nat.pow_le_pow_right (by decide) (by omega)
    · next hFraction =>
      refine .inl ⟨foldl_lastDigits _ _, ?_⟩
      rw [Numeral.scale, length_lastDigits, Option.getD_none]
      omega
  · refine .inl ⟨foldl_lastDigits _ _, ?_⟩
    rw [Numeral.scale, length_lastDigits, Option.getD_some]
    omega

variable (negative : Bool) (d : Decimal)

theorem magnitude_numeral : (json.numeral negative d).magnitude = d.real := by
  rw [Numeral.magnitude, real]
  rcases json_numeral_cases negative d with ⟨hCoefficient, hScale⟩ | ⟨hWhole, -, hCoefficient, hScale⟩
  · rw [hCoefficient, hScale]
  · have hPower : movePoint d.coefficient d.exponent = d.coefficient * 10 ^ d.exponent.toNat := by
      rw [← movePoint_natCast, Int.toNat_of_nonneg hWhole]
    rw [hCoefficient, hScale, hPower, movePoint]
    push_cast
    rw [zpow_neg_one]
    ring

variable {d}

theorem coefficient_numeral_le (hFew : d.coefficient ≤ 10 ^ 17) :
    (json.numeral negative d).coefficient ≤ 10 ^ 17 := by
  rcases json_numeral_cases negative d with ⟨hCoefficient, -⟩ | ⟨-, hShort, hCoefficient, -⟩
  · rwa [hCoefficient]
  · omega

theorem scale_numeral_bounds (hLow : -341 ≤ d.exponent) (hHigh : d.exponent ≤ 308) :
    -341 ≤ (json.numeral negative d).scale ∧ (json.numeral negative d).scale ≤ 308 := by
  rcases json_numeral_cases negative d with ⟨-, hScale⟩ | ⟨-, -, -, hScale⟩
  · rw [hScale]
    exact ⟨hLow, hHigh⟩
  · rw [hScale]
    decide

end NumberStyle

end TrackLayout
