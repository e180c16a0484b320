import TrackLayout.Document
import TrackLayout.Proofs.Decimal.Stepwise

/-!
# Numbers that come back

A finite value that is written with its shortest digits and read in steps comes
back with its sign and but for its last places. Where the digits are a number
that needs no rounding, and neither does the power of ten, it comes back as it
was. No other value comes back.
-/
set_option autoImplicit false

namespace TrackLayout.Json

open Binary64 Decimal
open Float.Model Float.Model.UnpackedFloat

/-- What a value comes back as. -/
def reread? (x : Float) : Option Float := (NumberStyle.json.numeral? x).bind Numeral.inSteps?

theorem float?_ofFloat (x : Float) : (ofFloat x).float? = reread? x := by
  rw [ofFloat, reread?]
  cases NumberStyle.json.numeral? x <;> rfl

/-- The digits are a number that needs no rounding, and so is the power of ten. -/
def FewDigits (x : Float) : Prop :=
  (NumberStyle.json.numeral? x).any (fun n => n.coefficient ≤ 2 ^ 53 && n.scale.natAbs ≤ 22) = true

instance (x : Float) : Decidable (FewDigits x) := inferInstanceAs (Decidable (_ = true))

/-- The same value but for its last places. -/
def Near (x y : Float) : Prop :=
  ∃ v w, Denotes x v ∧ Denotes y w ∧ 0 ≤ v * w ∧ |w - v| ≤ |v| * 2 ^ (-49 : ℤ) + 2 ^ (-1073 : ℤ)

/-! ## The digits of a value -/

theorem shortest_greatest : shortest .even (2 ^ 53 - 1) 971 = ⟨17976931348623157, 292⟩ := by decide +kernel

/-- The way of a value through its numeral: what the digits are scaled to, and what that is rounded to. -/
structure Trip (i : RoundingInterval) (n : Numeral) (z w : ℝ) : Prop where
  canonical : i.Canonical
  contains : i.Contains n.magnitude
  coefficient_pos : 0 < n.coefficient
  coefficient_le : n.coefficient ≤ 10 ^ 17
  close : Close 13 n.magnitude z
  rounds : Rounds z w
  word : n.scale.natAbs ≤ 22 → ∃ X, Rounds n.coefficient X ∧ z = movePoint X n.scale

section Digits

variable {i : RoundingInterval} (h : i.Canonical) (hGreatest : i.exponent ≤ 971)

include h hGreatest

omit h hGreatest in
theorem mul_zpow_le_of_nat {a b n k : ℕ} (hNat : a * 2 ^ n ≤ b * 10 ^ k) :
    (a : ℝ) * 2 ^ (n : ℤ) ≤ b * 10 ^ (k : ℤ) := by
  exact_mod_cast hNat

/-- The interval of every value but the greatest ends below the digits of that one. -/
theorem upper_le (hLess : ¬(i.mantissa = 2 ^ 53 - 1 ∧ i.exponent = 971)) :
    i.upper ≤ 17976931348623157 * 10 ^ (292 : ℤ) := by
  have hTop : (18014398509481981 : ℝ) * 2 ^ (970 : ℤ) ≤ 17976931348623157 * 10 ^ (292 : ℤ) := by
    have hNat := mul_zpow_le_of_nat (a := 18014398509481981) (b := 17976931348623157) (n := 970) (k := 292)
      (by decide +kernel)
    rwa [Nat.cast_ofNat, Nat.cast_ofNat, Nat.cast_ofNat, Nat.cast_ofNat] at hNat
  have hPow := two_zpow_pos i.exponent
  have hUpper : i.upper = (2 * i.mantissa + 1 : ℕ) * (2 ^ i.exponent / 2) := by
    rw [RoundingInterval.upper_eq, RoundingInterval.value]
    push_cast
    ring
  rw [hUpper, div_eq_mul_inv, ← zpow_sub_one₀ (by norm_num)]
  refine le_trans ?_ hTop
  have hMantissa := h.lt
  rcases hGreatest.lt_or_eq with hBelow | hExponent
  · have hDigits : ((2 * i.mantissa + 1 : ℕ) : ℝ) ≤ 2 * 9007199254740992 := by
      exact_mod_cast (show 2 * i.mantissa + 1 ≤ 2 * 9007199254740992 by omega)
    have hPlace : (2 : ℝ) ^ (i.exponent - 1) * 2 ≤ 2 ^ (970 : ℤ) := by
      rw [← zpow_add_one₀ (by norm_num)]
      exact zpow_le_zpow_right₀ (by norm_num) (by omega)
    calc ((2 * i.mantissa + 1 : ℕ) : ℝ) * 2 ^ (i.exponent - 1)
        ≤ 2 * 9007199254740992 * 2 ^ (i.exponent - 1) := mul_le_mul_of_nonneg_right hDigits (two_zpow_pos _).le
      _ = 9007199254740992 * (2 ^ (i.exponent - 1) * 2) := by ring
      _ ≤ 18014398509481981 * 2 ^ (970 : ℤ) := mul_le_mul (by norm_num) hPlace (by positivity) (by norm_num)
  · have hFew : 2 * i.mantissa + 1 ≤ 18014398509481981 := by omega
    rw [hExponent]
    exact mul_le_mul_of_nonneg_right (by exact_mod_cast hFew) (two_zpow_pos _).le

/-- No digits that are written stand for more than those of the greatest value. -/
theorem real_shortest_le : (shortest .even i.mantissa i.exponent).real ≤ 17976931348623157 * 10 ^ (292 : ℤ) := by
  by_cases hTop : i.mantissa = 2 ^ 53 - 1 ∧ i.exponent = 971
  · rw [hTop.1, hTop.2, shortest_greatest, real]
    push_cast
    rfl
  · exact (shortest_spec .even h hGreatest).1.le_upper.trans (upper_le h hGreatest hTop)

/-- The numeral of a value is read in steps. -/
theorem exists_trip (negative : Bool) {n : Numeral}
    (hn : n = NumberStyle.json.numeral negative (shortest .even i.mantissa i.exponent)) :
    ∃ y z w, n.inSteps? = some (if negative then -y else y) ∧ Denotes y w ∧ Trip i n z w := by
  obtain ⟨hInside, hFew⟩ := shortest_spec .even h hGreatest
  have hMagnitude := NumberStyle.magnitude_numeral negative (shortest .even i.mantissa i.exponent)
  have hWord := NumberStyle.coefficient_numeral_le negative hFew
  obtain ⟨hLow, hHigh⟩ := NumberStyle.scale_numeral_bounds negative (le_exponent h hInside hFew)
    (exponent_le h hInside hGreatest)
  have hSign := NumberStyle.negative_numeral .json negative (shortest .even i.mantissa i.exponent)
  rw [← hn] at hMagnitude hWord hLow hHigh hSign
  have hPos : 0 < n.coefficient := by
    rw [Nat.pos_iff_ne_zero]
    intro hZero
    have hReal := hInside.pos h
    rw [← hMagnitude, Numeral.magnitude, movePoint, hZero, Nat.cast_zero, zero_mul] at hReal
    exact hReal.false
  have hFits : Scaled.Fits n.coefficient n.scale := by
    rw [Scaled.Fits]
    exact hMagnitude.trans_le (real_shortest_le h hGreatest)
  obtain ⟨y, hRead, z, w, hClose, hRounds, hy, hExact⟩ := Scaled.exists_toFloat? hPos hWord (by omega) hHigh hFits
  refine ⟨y, z, w, ?_, hy, h, hMagnitude ▸ hInside, hPos, hWord, hClose, hRounds, hExact⟩
  rw [Numeral.inSteps?, Scaled.ofNumeral_eq (hWord.trans (by decide)), hRead, hSign]
  rfl

end Digits

/-! ## Finite values -/

/-- How far what is read may be from a value, with the decimal between them. -/
theorem abs_sub_le_of_close {d v z w : ℝ} (hv : Rounds d v) (hPos : 0 < v) (hClose : Close 13 d z)
    (hw : Rounds z w) : |w - v| ≤ |v| * 2 ^ (-49 : ℤ) + 2 ^ (-1073 : ℤ) := by
  have hLeast := two_zpow_pos (-1075)
  have hFour : (2 : ℝ) ^ (-1073 : ℤ) = 4 * 2 ^ (-1075 : ℤ) := by
    rw [show (-1073 : ℤ) = 2 + -1075 by decide, zpow_add₀ (by norm_num)]
    norm_num
  have hSixteen : roundings 16 = 2 ^ (-49 : ℤ) := by
    rw [roundings]
    norm_num
  have hUnits : roundings 13 + 2 * roundings 1 + roundings 13 * roundings 1 ≤ (1 - roundings 1) * roundings 16 := by
    rw [roundings, roundings, roundings]
    norm_num
  have hOne := roundings_nonneg 1
  have hLast := hw.abs_sub_le_add
  have hFirst := hv.abs_sub_le_add
  rw [abs_of_pos (hClose.pos_right (by decide))] at hLast
  rw [abs_of_pos hClose.pos] at hFirst
  have hSmall := roundings_lt_one (show 16 ≤ 17 by decide)
  rw [abs_of_pos hPos, ← hSixteen, hFour]
  have hDecimal : d * (1 - roundings 1) ≤ v + 2 ^ (-1075 : ℤ) := by linarith [(abs_le.mp hFirst).1]
  calc |w - v| = |(w - z) + (z - d) + (d - v)| := by ring_nf
    _ ≤ |w - z| + |z - d| + |v - d| := by
      rw [abs_sub_comm v d]
      exact abs_add_three _ _ _
    _ ≤ z * roundings 1 + 2 ^ (-1075 : ℤ) + d * roundings 13 + (d * roundings 1 + 2 ^ (-1075 : ℤ)) := by
      linarith [hClose.abs_sub_le]
    _ ≤ d * (roundings 13 + 2 * roundings 1 + roundings 13 * roundings 1) + 2 * 2 ^ (-1075 : ℤ) := by
      linarith [mul_le_mul_of_nonneg_right hClose.ge hOne]
    _ ≤ d * ((1 - roundings 1) * roundings 16) + 2 * 2 ^ (-1075 : ℤ) := by
      linarith [mul_le_mul_of_nonneg_left hUnits hClose.pos.le]
    _ = d * (1 - roundings 1) * roundings 16 + 2 * 2 ^ (-1075 : ℤ) := by rw [mul_assoc]
    _ ≤ (v + 2 ^ (-1075 : ℤ)) * roundings 16 + 2 * 2 ^ (-1075 : ℤ) := by
      linarith [mul_le_mul_of_nonneg_right hDecimal (roundings_nonneg 16)]
    _ ≤ v * roundings 16 + 4 * 2 ^ (-1075 : ℤ) := by
      linarith [mul_le_mul_of_nonneg_left hSmall.le hLeast.le]

namespace Trip

variable {i : RoundingInterval} {n : Numeral} {z w : ℝ} (h : Trip i n z w)

include h

theorem decimal : Rounds n.magnitude i.value := RoundingInterval.rounds_value h.canonical h.contains

theorem nonneg : 0 ≤ w := h.rounds.ge_of_ge representable_zero (h.close.pos_right (by decide)).le

theorem abs_sub_le : |w - i.value| ≤ |i.value| * 2 ^ (-49 : ℤ) + 2 ^ (-1073 : ℤ) :=
  abs_sub_le_of_close h.decimal h.canonical.value_pos h.close h.rounds

/-- Only the last rounding is left where the digits and the power of ten are exact. -/
theorem eq_value (hWord : n.coefficient ≤ 2 ^ 53) (hScale : n.scale.natAbs ≤ 22) : w = i.value := by
  obtain ⟨X, hX, hz⟩ := h.word hScale
  have hRounds := h.rounds
  rw [hz, hX.eq_natCast hWord] at hRounds
  exact hRounds.unique h.decimal

end Trip

theorem near_self {x : Float} {v : ℝ} (hx : Denotes x v) : Near x x := by
  refine ⟨v, v, hx, hx, mul_self_nonneg v, ?_⟩
  rw [sub_self, abs_zero]
  exact add_nonneg (mul_nonneg (abs_nonneg v) (two_zpow_pos _).le) (two_zpow_pos _).le

theorem reread?_zero (s : Sign) : reread? (.ofModel (.pack (.zero s))) = some (.ofModel (.pack (.zero s))) := by
  cases s <;> decide +kernel

section Finite

variable {x : Float} {v : ℝ} (hx : Denotes x v)

include hx

/-- Every value other than zero makes the trip, apart from its sign. -/
theorem exists_trip_of_ne_zero (hv : v ≠ 0) :
    ∃ (negative : Bool) (i : RoundingInterval) (n : Numeral) (z w : ℝ) (y : Float),
      NumberStyle.json.numeral? x = some n ∧ reread? x = some y ∧ Trip i n z w ∧
        v = (if negative then -i.value else i.value) ∧ Denotes y (if negative then -w else w) := by
  obtain ⟨negative, i, h, hGreatest, hParts, hValue⟩ := exists_parts hx hv
  obtain ⟨n, hn⟩ : ∃ n, n = NumberStyle.json.numeral negative (shortest .even i.mantissa i.exponent) := ⟨_, rfl⟩
  have hNumeral : NumberStyle.json.numeral? x = some n := by
    rw [NumberStyle.numeral?, hParts, hn]
    rfl
  obtain ⟨y, z, w, hRead, hy, hTrip⟩ := exists_trip h hGreatest negative hn
  refine ⟨negative, i, n, z, w, _, hNumeral, ?_, hTrip, hValue, denotes_signed hy negative⟩
  rw [reread?, hNumeral, Option.bind_some, hRead]

theorem exists_reread?_of_ne_zero (hv : v ≠ 0) : ∃ y, reread? x = some y ∧ Near x y ∧ (FewDigits x → y = x) := by
  obtain ⟨negative, i, n, z, w, y, hNumeral, hRead, hTrip, hValue, hy⟩ := exists_trip_of_ne_zero hx hv
  refine ⟨y, hRead, ⟨v, _, hx, hy, ?_, ?_⟩, fun hFew => ?_⟩
  · have hBoth := mul_nonneg hTrip.canonical.value_pos.le hTrip.nonneg
    cases negative
    · rw [hValue]
      exact hBoth
    · rw [hValue]
      exact (neg_mul_neg _ _).ge.trans' hBoth
  · have hError := hTrip.abs_sub_le
    cases negative
    · rw [hValue]
      exact hError
    · rw [hValue, if_pos rfl, if_pos rfl, abs_neg, neg_sub_neg, abs_sub_comm]
      exact hError
  · rw [FewDigits, hNumeral, Option.any_some, Bool.and_eq_true, decide_eq_true_eq, decide_eq_true_eq] at hFew
    rw [hTrip.eq_value hFew.1 hFew.2, ← hValue] at hy
    exact hy.eq hx hv

/-- Every finite value comes back, but for its last places, and as it was if it has few digits. -/
theorem exists_reread? : ∃ y, reread? x = some y ∧ Near x y ∧ (FewDigits x → y = x) := by
  by_cases hv : v = 0
  · obtain ⟨s, hs⟩ := Denotes.eq_zero (hv ▸ hx)
    exact ⟨x, by rw [hs, reread?_zero], near_self hx, fun _ => rfl⟩
  · exact exists_reread?_of_ne_zero hx hv

end Finite

/-- What is not finite has no numeral. -/
theorem numeral?_eq_none {x : Float} (h : x.isFinite = false) : NumberStyle.json.numeral? x = none := by
  change x.toModel.unpack.isFinite = false at h
  rw [NumberStyle.numeral?, dyadic?]
  cases hUnpack : x.toModel.unpack with
  | infinity s => rfl
  | notANumber => rfl
  | zero s =>
    rw [hUnpack] at h
    cases h
  | finite s m e hm =>
    rw [hUnpack] at h
    cases h

theorem reread?_eq_none {x : Float} (h : x.isFinite = false) : reread? x = none := by
  rw [reread?, numeral?_eq_none h, Option.bind_none]

/-- What a finite value comes back as. -/
def reread (x : Float) : Float := (reread? x).getD x

section Reread

variable {x : Float} (h : x.isFinite = true)

include h

theorem reread?_eq : reread? x = some (reread x) := by
  obtain ⟨v, hv⟩ := exists_denotes h
  obtain ⟨y, hy, -⟩ := exists_reread? hv
  rw [reread, hy, Option.getD_some]

theorem near_reread : Near x (reread x) := by
  obtain ⟨v, hv⟩ := exists_denotes h
  obtain ⟨y, hy, hNear, -⟩ := exists_reread? hv
  rwa [reread, hy, Option.getD_some]

end Reread

/-- Few digits come back as they were. -/
theorem FewDigits.reread_eq {x : Float} (h : FewDigits x) : reread x = x := by
  cases hFinite : x.isFinite with
  | false => rw [reread, reread?_eq_none hFinite, Option.getD_none]
  | true =>
    obtain ⟨v, hv⟩ := exists_denotes hFinite
    obtain ⟨y, hy, -, hExact⟩ := exists_reread? hv
    rw [reread, hy, Option.getD_some, hExact h]

end TrackLayout.Json
