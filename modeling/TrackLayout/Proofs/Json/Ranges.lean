import TrackLayout.Proofs.Json.Reread

/-!
# Ranges that numbers keep

A number that comes back lies on the same side of zero and of one as before,
although its last places may differ. Near one this holds because sixteen places
behind the point are scaled by an exact power of ten.
-/
set_option autoImplicit false

namespace TrackLayout.Json

open Binary64 Decimal

theorem representable_one : Representable 1 := by
  have hOne := representable_intCast (r := 1) (by decide)
  rwa [Int.cast_one] at hOne

/-- From one to two the last place is the same. -/
theorem lastPlace_one {x : ℝ} {t : ℤ} (h : LastPlace x t) (hLow : 1 ≤ x) (hHigh : x < 2) : t = -52 := by
  have hSize : |x| = x := abs_of_nonneg (by linarith)
  have hAbove : (2 : ℝ) ^ (0 : ℤ) < 2 ^ (t + 53) := by
    rw [zpow_zero]
    exact hLow.trans_lt (hSize ▸ h.lt)
  have hUp := (zpow_lt_zpow_iff_right₀ (show (1 : ℝ) < 2 by norm_num)).mp hAbove
  rcases h.le with hFull | rfl
  · have hBelow : (2 : ℝ) ^ (t + 52) < 2 ^ (1 : ℤ) := by
      rw [zpow_one]
      exact (hSize ▸ hFull).trans_lt hHigh
    have hDown := (zpow_lt_zpow_iff_right₀ (show (1 : ℝ) < 2 by norm_num)).mp hBelow
    omega
  · omega

/-- From one to two rounding moves a number by half the last place at most. -/
theorem exists_one_le {x v : ℝ} (h : Rounds x v) (hLow : 1 ≤ x) (hHigh : x < 2) :
    ∃ r : ℤ, v = r * 2 ^ (-52 : ℤ) ∧ |v - x| ≤ 2 ^ (-53 : ℤ) := by
  obtain ⟨t, r, hPlace, hv, hNear, -⟩ := h
  obtain rfl := lastPlace_one hPlace hLow hHigh
  refine ⟨r, hv, hNear.trans_eq ?_⟩
  rw [div_eq_mul_inv, ← zpow_sub_one₀ (by norm_num)]
  rfl

theorem one_lt_of_rounds {x v : ℝ} (h : Rounds x v) (hx : 1 + 2 ^ (-53 : ℤ) < x) : 1 < v := by
  have hHalf := two_zpow_pos (-53)
  rcases lt_or_ge x 2 with hLess | hMore
  · obtain ⟨r, -, hNear⟩ := exists_one_le h (by linarith) hLess
    linarith [(abs_le.mp hNear).1]
  · have hTwo := h.ge_of_ge (representable_two_zpow (e := 1) (by decide)) (by rwa [zpow_one])
    rw [zpow_one] at hTwo
    linarith

/-- What rounds to more than one is not before the middle between one and the next value. -/
theorem le_of_rounds {x v : ℝ} (h : Rounds x v) (hv : 1 < v) : 1 + 2 ^ (-53 : ℤ) ≤ x := by
  have hLow : 1 ≤ x := by
    by_contra hBelow
    exact absurd (h.le_of_le representable_one (not_le.mp hBelow).le) (not_le.mpr hv)
  rcases lt_or_ge x 2 with hLess | hMore
  · obtain ⟨r, rfl, hNear⟩ := exists_one_le h hLow hLess
    have hUnit : (1 : ℝ) = 2 ^ 52 * 2 ^ (-52 : ℤ) := by norm_num
    have hLast : (2 : ℝ) ^ (-52 : ℤ) = 2 * 2 ^ (-53 : ℤ) := by norm_num
    rw [hUnit] at hv
    have hMantissa : (2 : ℝ) ^ 52 < r := lt_of_mul_lt_mul_right hv (two_zpow_pos _).le
    have hWhole : (2 : ℤ) ^ 52 < r := by exact_mod_cast hMantissa
    have hNext : (2 : ℝ) ^ 52 + 1 ≤ r := by exact_mod_cast hWhole
    have hValue := mul_le_mul_of_nonneg_right hNext (two_zpow_pos (-52)).le
    rw [add_mul, ← hUnit, one_mul] at hValue
    linarith [(abs_le.mp hNear).2]
  · have hSmall : (2 : ℝ) ^ (-53 : ℤ) ≤ 1 := zpow_le_one_of_nonpos₀ (by norm_num) (by decide)
    linarith

/-- A word beyond the middle between a power of ten and the next value is still beyond it when it is rounded. -/
theorem exists_representable_le {c m : ℕ} (hm : m ≤ 16) (h : (1 + 2 ^ (-53 : ℤ)) * 10 ^ m ≤ (c : ℝ)) :
    ∃ u : ℝ, Representable u ∧ u ≤ c ∧ (1 + 2 ^ (-53 : ℤ)) * 10 ^ m < u := by
  have hPow : (0 : ℝ) < 10 ^ m := pow_pos (by norm_num) m
  have hHalf := two_zpow_pos (-53)
  rcases Nat.lt_or_eq_of_le hm with hLess | rfl
  · have hNext : 10 ^ m + 1 ≤ c := by
      have hMore : (10 : ℝ) ^ m < c := by linarith [mul_pos hHalf hPow]
      exact_mod_cast hMore
    have hSmall : 10 ^ m + 1 ≤ 2 ^ 53 := by
      have hTop : 10 ^ m ≤ 10 ^ 15 := Nat.pow_le_pow_right (by decide) (Nat.le_of_lt_succ hLess)
      omega
    have hWhole := representable_intCast (r := ((10 ^ m + 1 : ℕ) : ℤ)) (by rw [Nat.abs_cast]; exact_mod_cast hSmall)
    rw [Int.cast_natCast] at hWhole
    refine ⟨(10 ^ m + 1 : ℕ), hWhole, Nat.cast_le.mpr hNext, ?_⟩
    have hTop : (10 : ℝ) ^ m ≤ 10 ^ 15 := pow_le_pow_right₀ (by norm_num) (Nat.le_of_lt_succ hLess)
    have hUnit : (2 : ℝ) ^ (-53 : ℤ) * 10 ^ m ≤ 2 ^ (-53 : ℤ) * 10 ^ 15 := mul_le_mul_of_nonneg_left hTop hHalf.le
    have hLess : (2 : ℝ) ^ (-53 : ℤ) * 10 ^ 15 < 1 := by norm_num
    push_cast
    linarith
  · have hNext : 10000000000000002 ≤ c := by
      have hMore : (10000000000000001 : ℝ) < c := by
        refine lt_of_lt_of_le ?_ h
        norm_num
      exact_mod_cast hMore
    refine ⟨((5000000000000001 : ℤ) : ℝ) * 2 ^ (1 : ℤ), representable_intCast_mul (by decide) (by decide), ?_, ?_⟩
    · refine le_trans ?_ (Nat.cast_le.mpr hNext)
      norm_num
    · norm_num

namespace Trip

variable {i : RoundingInterval} {n : Numeral} {z w : ℝ} (h : Trip i n z w)

include h

theorem one_le : (1 : ℝ) ≤ n.coefficient := Nat.one_le_cast.mpr h.coefficient_pos

theorem le_one (hLess : i.value < 1) : w ≤ 1 := by
  have hDecimal : n.magnitude ≤ 1 := by
    by_contra hMore
    exact absurd (h.decimal.ge_of_ge representable_one (not_le.mp hMore).le) (not_le.mpr hLess)
  have hScale : n.scale ≤ 0 := by
    have hPower := (le_mul_of_one_le_left (zpow_nonneg (by norm_num) n.scale) h.one_le).trans hDecimal
    rw [← zpow_zero (10 : ℝ)] at hPower
    exact (zpow_le_zpow_iff_right₀ (by norm_num)).mp hPower
  refine h.rounds.le_of_le representable_one ?_
  obtain ⟨m, hm⟩ : ∃ m : ℕ, n.scale = -m := ⟨n.scale.natAbs, by omega⟩
  by_cases hSmall : m ≤ 22
  · -- the word is at most an exact power of ten, and stays so when it is rounded
    obtain ⟨X, hX, rfl⟩ := h.word (by omega)
    have hPow : (0 : ℝ) < 10 ^ m := pow_pos (by norm_num) m
    rw [Numeral.magnitude, hm, movePoint_neg, div_le_one hPow] at hDecimal
    rw [hm, movePoint_neg, div_le_one hPow]
    exact hX.le_of_le (Scaled.denotes_powerOfTen hSmall).representable hDecimal
  · have hTiny : n.magnitude ≤ 1 / 2 := by
      calc n.magnitude ≤ 10 ^ (17 : ℤ) * 10 ^ (-23 : ℤ) :=
            mul_le_mul (by exact_mod_cast h.coefficient_le) (zpow_le_zpow_right₀ (by norm_num) (by omega))
              (zpow_nonneg (by norm_num) _) (by norm_num)
        _ ≤ 1 / 2 := by norm_num
    have hOne := (roundings_lt_one (show 13 ≤ 17 by decide)).le
    calc z ≤ n.magnitude * (1 + roundings 13) := h.close.ge
      _ ≤ 1 / 2 * 2 := mul_le_mul hTiny (by linarith) (by linarith [roundings_nonneg 13]) (by norm_num)
      _ = 1 := by norm_num

theorem one_lt (hMore : 1 < i.value) : 1 < w := by
  have hDecimal := le_of_rounds h.decimal hMore
  refine one_lt_of_rounds h.rounds ?_
  have hHalf : (2 : ℝ) ^ (-53 : ℤ) < 1 / 2 := by norm_num
  rcases lt_or_ge n.scale 0 with hPlaces | hWhole
  · obtain ⟨m, hm⟩ : ∃ m : ℕ, n.scale = -m := ⟨n.scale.natAbs, by omega⟩
    have hPow : (0 : ℝ) < 10 ^ m := pow_pos (by norm_num) m
    rw [Numeral.magnitude, hm, movePoint_neg, le_div_iff₀ hPow] at hDecimal
    have hFew : m ≤ 16 := by
      have hLess : (10 : ℝ) ^ m < 10 ^ 17 := by
        have hMore : (10 : ℝ) ^ m < n.coefficient := by linarith [mul_pos (two_zpow_pos (-53)) hPow]
        exact hMore.trans_le (by exact_mod_cast h.coefficient_le)
      have hDigits := (pow_lt_pow_iff_right₀ (show (1 : ℝ) < 10 by norm_num)).mp hLess
      omega
    obtain ⟨X, hX, rfl⟩ := h.word (by omega)
    obtain ⟨u, hu, hLess, hMiddle⟩ := exists_representable_le hFew hDecimal
    rw [hm, movePoint_neg, lt_div_iff₀ hPow]
    exact hMiddle.trans_le (hX.ge_of_ge hu hLess)
  · have hTwo : 2 ≤ n.magnitude := by
      have hNat : n.magnitude = ((n.coefficient * 10 ^ n.scale.toNat : ℕ) : ℝ) := by
        rw [Numeral.magnitude, ← Int.toNat_of_nonneg hWhole, movePoint_natCast, Int.toNat_natCast]
        push_cast
        rfl
      have hOne : (1 : ℝ) < n.magnitude := by linarith [two_zpow_pos (-53)]
      rw [hNat] at hOne ⊢
      exact_mod_cast hOne
    have hUnits : roundings 13 ≤ 1 / 4 := by
      rw [roundings]
      norm_num
    calc 1 + (2 : ℝ) ^ (-53 : ℤ) < 2 * (1 - 1 / 4) := by linarith
      _ ≤ n.magnitude * (1 - roundings 13) := mul_le_mul hTwo (by linarith) (by norm_num) h.close.pos.le
      _ ≤ z := h.close.le

/-- Only the least value could vanish. -/
theorem pos (hMore : ¬(i.mantissa = 1 ∧ i.exponent = -1074)) : 0 < w := by
  have hLeast := h.canonical.least
  have hPow := two_zpow_pos i.exponent
  have hMantissa : (2 : ℝ) ≤ i.mantissa := by
    have hTwo : 2 ≤ i.mantissa := by
      have hPos := h.canonical.pos
      have hFull := h.canonical.full
      omega
    exact_mod_cast hTwo
  have hLast : (2 : ℝ) ^ (-1074 : ℤ) ≤ 2 ^ i.exponent := zpow_le_zpow_right₀ (by norm_num) hLeast
  have hLower : 3 / 2 * 2 ^ (-1074 : ℤ) ≤ n.magnitude := by
    have hValue := mul_le_mul_of_nonneg_right hMantissa hPow.le
    have hNear := (RoundingInterval.lower_bounds h.canonical).1
    rw [RoundingInterval.value] at hNear
    linarith [h.contains.lower_le]
  have hUnits : roundings 13 ≤ 1 / 3 := by
    rw [roundings]
    norm_num
  have hz : (2 : ℝ) ^ (-1074 : ℤ) ≤ z := by
    calc (2 : ℝ) ^ (-1074 : ℤ) = 3 / 2 * 2 ^ (-1074 : ℤ) * (1 - 1 / 3) := by ring
      _ ≤ n.magnitude * (1 - roundings 13) :=
        mul_le_mul hLower (by linarith) (by norm_num) h.close.pos.le
      _ ≤ z := h.close.le
  exact (two_zpow_pos _).trans_le (h.rounds.ge_of_ge (representable_two_zpow le_rfl) hz)

end Trip

/-! ## Values -/

/-- The least positive value. -/
def least : Float := .ofBits 1

theorem denotes_least : Denotes least (2 ^ (-1074 : ℤ)) := by
  have hRational := denotes_rational (show rational? least = some (2 ^ (-1074 : ℤ)) by decide +kernel)
  rwa [Rat.cast_zpow, Rat.cast_ofNat] at hRational

theorem denotes_one : Denotes 1.0 1 := by
  have hRational := denotes_rational (show rational? 1.0 = some 1 by decide +kernel)
  rwa [Rat.cast_one] at hRational

section Values

variable {x : Float} (h : x.isFinite = true)

include h

theorem exists_trip_of_pos (hx : 0.0 < x) : ∃ (i : RoundingInterval) (n : Numeral) (z w : ℝ),
    Denotes x i.value ∧ Denotes (reread x) w ∧ Trip i n z w := by
  obtain ⟨v, hv⟩ := exists_denotes h
  have hPos := (denotes_zero.lt_iff hv).mp hx
  obtain ⟨negative, i, n, z, w, y, -, hRead, hTrip, hValue, hy⟩ := exists_trip_of_ne_zero hv hPos.ne'
  rw [reread, hRead, Option.getD_some]
  cases negative with
  | false =>
    rw [hValue] at hv
    exact ⟨i, n, z, w, hv, hy, hTrip⟩
  | true =>
    rw [hValue, if_pos rfl] at hPos
    exact absurd hTrip.canonical.value_pos (not_lt.mpr (neg_pos.mp hPos).le)

theorem pos_reread (hx : 0.0 < x) : 0.0 < reread x := by
  obtain ⟨i, n, z, w, hv, hw, hTrip⟩ := exists_trip_of_pos h hx
  by_cases hLeast : i.mantissa = 1 ∧ i.exponent = -1074
  · have hValue : i.value = 2 ^ (-1074 : ℤ) := by
      rw [RoundingInterval.value, hLeast.1, hLeast.2, Nat.cast_one, one_mul]
    rw [hValue] at hv
    rw [hv.eq denotes_least (Binary64.two_zpow_pos _).ne']
    decide +kernel
  · exact (denotes_zero.lt_iff hw).mpr (hTrip.pos hLeast)

theorem nonneg_reread (hx : 0.0 ≤ x) : 0.0 ≤ reread x := by
  obtain ⟨v, hv⟩ := exists_denotes h
  rcases ((denotes_zero.le_iff hv).mp hx).lt_or_eq with hPos | hZero
  · exact Binary64.le_of_lt (pos_reread h ((denotes_zero.lt_iff hv).mpr hPos))
  · obtain ⟨s, rfl⟩ := Denotes.eq_zero (hZero ▸ hv)
    cases s <;> decide +kernel

theorem le_one_reread (hx : 0.0 < x) (hOne : x ≤ 1.0) : reread x ≤ 1.0 := by
  obtain ⟨i, n, z, w, hv, hw, hTrip⟩ := exists_trip_of_pos h hx
  rcases ((hv.le_iff denotes_one).mp hOne).lt_or_eq with hLess | hSame
  · exact (hw.le_iff denotes_one).mpr (hTrip.le_one hLess)
  · rw [hSame] at hv
    rw [hv.eq denotes_one one_ne_zero]
    decide +kernel

theorem one_lt_reread (hx : 1.0 < x) : 1.0 < reread x := by
  have hPos : 0.0 < x := Binary64.lt_of_le_of_lt (by decide +kernel) hx
  obtain ⟨i, n, z, w, hv, hw, hTrip⟩ := exists_trip_of_pos h hPos
  exact (denotes_one.lt_iff hw).mpr (hTrip.one_lt ((denotes_one.lt_iff hv).mp hx))

end Values

end TrackLayout.Json
