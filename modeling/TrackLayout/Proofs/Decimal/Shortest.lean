import TrackLayout.Proofs.Decimal.Interval

/-!
# Shortest decimals round back

The decimal found for a finite value lies in the interval of the reals that
round to it. One of the finest seventeen grids has a point in that interval,
for the interval is wider than the steps of the last of them, so the search
always ends with a hit and no decimal has more than seventeen digits.
-/
set_option autoImplicit false

namespace TrackLayout.Decimal

open Binary64 Fraction RoundingInterval

/-! ## The leading digit -/

theorem zpow_le_zpow_of_toNat {a b : ℕ} {x y : ℤ} (ha : 0 < a) (hb : 0 < b)
    (h : a ^ x.toNat * b ^ (-y).toNat ≤ b ^ y.toNat * a ^ (-x).toNat) : (a : ℝ) ^ x ≤ b ^ y := by
  have ha' : (0 : ℝ) < a := Nat.cast_pos.mpr ha
  have hb' : (0 : ℝ) < b := Nat.cast_pos.mpr hb
  have hScale : (0 : ℝ) < a ^ (-x).toNat * b ^ (-y).toNat := mul_pos (pow_pos ha' _) (pow_pos hb' _)
  have hCast : (a : ℝ) ^ x.toNat * b ^ (-y).toNat ≤ b ^ y.toNat * a ^ (-x).toNat := by exact_mod_cast h
  refine le_of_mul_le_mul_right ?_ hScale
  calc (a : ℝ) ^ x * (a ^ (-x).toNat * b ^ (-y).toNat) = a ^ x.toNat * b ^ (-y).toNat := by
        rw [← mul_assoc, zpow_mul_pow_toNat ha'.ne']
    _ ≤ b ^ y.toNat * a ^ (-x).toNat := hCast
    _ = b ^ y * (a ^ (-x).toNat * b ^ (-y).toNat) := by
      rw [mul_comm ((a : ℝ) ^ (-x).toNat), ← mul_assoc, zpow_mul_pow_toNat hb'.ne']

/-- The estimate of the leading digit from the power of two below a value. -/
def estimate (n : ℤ) : ℤ := n * 30103 / 100000

/-- The estimate is off by one at most, for every power of two that has a value. -/
theorem estimate_check : ((List.range 2098).map fun i : ℕ => (i : ℤ) - 1074).all (fun n =>
    decide (10 ^ (estimate n - 1).toNat * 2 ^ (-n).toNat ≤ 2 ^ n.toNat * 10 ^ (-(estimate n - 1)).toNat) &&
    decide (2 ^ (n + 1).toNat * 10 ^ (-(estimate n + 2)).toNat ≤
      10 ^ (estimate n + 2).toNat * 2 ^ (-(n + 1)).toNat)) = true := by
  decide +kernel

theorem estimate_bounds {n : ℤ} (hLeast : -1074 ≤ n) (hGreatest : n ≤ 1023) :
    (10 : ℝ) ^ (estimate n - 1) ≤ 2 ^ n ∧ (2 : ℝ) ^ (n + 1) ≤ 10 ^ (estimate n + 2) := by
  have hMem : n ∈ (List.range 2098).map fun i : ℕ => (i : ℤ) - 1074 :=
    List.mem_map.mpr ⟨(n + 1074).toNat, List.mem_range.mpr (by omega), by omega⟩
  have hBoth := List.all_eq_true.mp estimate_check n hMem
  rw [Bool.and_eq_true, decide_eq_true_eq, decide_eq_true_eq] at hBoth
  have hLow := zpow_le_zpow_of_toNat (by decide) (by decide) hBoth.1
  have hHigh := zpow_le_zpow_of_toNat (by decide) (by decide) hBoth.2
  exact ⟨by exact_mod_cast hLow, by exact_mod_cast hHigh⟩

section Leading

variable {m : ℕ} {e : ℤ}

theorem floor_scaled_eq_zero (k : ℤ) : (scaled m e k).floor = 0 ↔ (m : ℝ) * 2 ^ e < 10 ^ k := by
  have hDen := den_scaled_pos m e k
  obtain ⟨hLow, hHigh⟩ := floor_bounds hDen
  rw [real_scaled] at hLow hHigh
  rw [← div_lt_one (ten_zpow_pos k)]
  constructor
  · intro hZero
    rwa [hZero, Nat.cast_zero, zero_add] at hHigh
  · intro hLess
    have hOne := hLow.trans_lt hLess
    exact Nat.lt_one_iff.mp (by exact_mod_cast hOne)

theorem two_zpow_log2_le (hm : 0 < m) :
    (2 : ℝ) ^ (m.log2 + e) ≤ m * 2 ^ e ∧ (m : ℝ) * 2 ^ e < 2 ^ (m.log2 + e + 1) := by
  have hPow := two_zpow_pos e
  have hLow : ((2 ^ m.log2 : ℕ) : ℝ) ≤ m := by exact_mod_cast Nat.log2_self_le hm.ne'
  have hHigh : (m : ℝ) < ((2 ^ (m.log2 + 1) : ℕ) : ℝ) := by exact_mod_cast Nat.lt_log2_self
  rw [add_right_comm, zpow_add₀ (by norm_num), zpow_add₀ (by norm_num) _ e, ← Int.natCast_succ, zpow_natCast,
    zpow_natCast]
  push_cast at hLow hHigh
  exact ⟨mul_le_mul_of_nonneg_right hLow hPow.le, mul_lt_mul_of_pos_right hHigh hPow⟩

theorem leading_eq (m : ℕ) (e : ℤ) : leading m e =
    if (scaled m e (estimate (m.log2 + e) + 1)).floor = 0 then
      if (scaled m e (estimate (m.log2 + e))).floor = 0 then estimate (m.log2 + e) - 1
      else estimate (m.log2 + e)
    else estimate (m.log2 + e) + 1 := rfl

/-- The leading digit of a value stands where it is said to. -/
theorem leading_bounds (hm : 0 < m) (hLeast : -1074 ≤ (m.log2 : ℤ) + e) (hGreatest : (m.log2 : ℤ) + e ≤ 1023) :
    (10 : ℝ) ^ leading m e ≤ m * 2 ^ e ∧ (m : ℝ) * 2 ^ e < 10 ^ (leading m e + 1) := by
  obtain ⟨hLow, hHigh⟩ := estimate_bounds hLeast hGreatest
  obtain ⟨hBelow, hAbove⟩ := two_zpow_log2_le (e := e) hm
  rw [leading_eq]
  split
  · next hNext =>
    rw [floor_scaled_eq_zero] at hNext
    split
    · next hSame =>
      rw [floor_scaled_eq_zero] at hSame
      rw [sub_add_cancel]
      exact ⟨hLow.trans hBelow, hSame⟩
    · next hSame =>
      rw [floor_scaled_eq_zero] at hSame
      exact ⟨not_lt.mp hSame, hNext⟩
  · next hNext =>
    rw [floor_scaled_eq_zero] at hNext
    refine ⟨not_lt.mp hNext, hAbove.trans_le (hHigh.trans_eq ?_)⟩
    rw [add_assoc]
    rfl

end Leading

/-! ## Grids -/

namespace RoundingInterval

variable {i : RoundingInterval} {tie : Tie} {k : ℤ} {d : ℕ}

theorem onGrid_spec (h : i.onGrid tie k = some d) :
    i.holds k d = true ∧ d ≤ (scaled i.mantissa i.exponent k).floor + 1 := by
  rw [onGrid] at h
  split at h
  · cases h
  · next hLow _ =>
    cases h
    exact ⟨hLow, Nat.le_succ _⟩
  · next _ hHigh =>
    cases h
    exact ⟨hHigh, le_rfl⟩
  · next hLow hHigh =>
    split at h
    · cases h
      exact ⟨hLow, Nat.le_succ _⟩
    · cases h
      exact ⟨hHigh, le_rfl⟩
    · cases h
      split
      · exact ⟨hLow, Nat.le_succ _⟩
      · exact ⟨hHigh, le_rfl⟩

/-- On a grid finer than the interval one of the two neighbours of the value is inside. -/
theorem exists_onGrid (h : i.Canonical) (tie : Tie) (hStep : (10 : ℝ) ^ k < i.upper - i.lower) :
    ∃ d, i.onGrid tie k = some d := by
  have hPow := ten_zpow_pos k
  have hHalf := two_zpow_pos i.exponent
  obtain ⟨hLow, hHigh⟩ := floor_bounds (den_scaled_pos i.mantissa i.exponent k)
  rw [real_scaled, le_div_iff₀ hPow] at hLow
  rw [real_scaled, div_lt_iff₀ hPow] at hHigh
  have hUpper := upper_eq i
  have hLower := (lower_bounds h).2
  change _ ≤ i.value at hLow
  change i.value < _ at hHigh
  refine Option.ne_none_iff_exists'.mp fun hNone => ?_
  rw [onGrid] at hNone
  split at hNone
  · next hOut hOutNext =>
    have hBelow : ((scaled i.mantissa i.exponent k).floor : ℝ) * 10 ^ k ≤ i.lower := by
      by_contra hInside
      rw [holds_of_lt (not_le.mp hInside) (by linarith)] at hOut
      cases hOut
    refine absurd (holds_of_lt (i := i) (k := k) (d := (scaled i.mantissa i.exponent k).floor + 1) ?_ ?_)
      (Bool.eq_false_iff.mp hOutNext)
    · push_cast
      linarith
    · push_cast
      linarith
  · cases hNone
  · cases hNone
  · split at hNone <;> cases hNone

/-- Seventeen digits reach a grid finer than the interval. -/
theorem step_lt (h : i.Canonical) (hk : (10 : ℝ) ^ (k + 16) ≤ i.value) : (10 : ℝ) ^ k < i.upper - i.lower := by
  have hPow := two_zpow_pos i.exponent
  rw [zpow_add₀ (by norm_num), value] at hk
  norm_num at hk
  rw [upper_eq]
  cases hNarrow : i.isNarrow with
  | false =>
    have hMantissa : (i.mantissa : ℝ) ≤ 2 ^ 53 := by exact_mod_cast h.lt.le
    have hScaled := mul_le_mul_of_nonneg_right hMantissa hPow.le
    rw [lower_eq h hNarrow]
    norm_num at hScaled
    linarith
  | true =>
    have hMantissa : (i.mantissa : ℝ) = 2 ^ 52 := by exact_mod_cast (isNarrow_iff.mp hNarrow).1
    rw [lower_eq_narrow h hNarrow]
    rw [hMantissa] at hk
    norm_num at hk
    linarith

/-- A search that gets as far as a grid finer than the interval ends with a hit. -/
theorem exists_search (h : i.Canonical) (tie : Tie) (grids : ℕ)
    (hStep : (10 : ℝ) ^ (k - grids) < i.upper - i.lower) :
    ∃ k' d, i.search tie (grids + 1) k = ⟨d, k'⟩ ∧ k - grids ≤ k' ∧ i.onGrid tie k' = some d := by
  induction grids generalizing k with
  | zero =>
    rw [Nat.cast_zero, sub_zero] at hStep
    obtain ⟨d, hd⟩ := exists_onGrid h tie hStep
    exact ⟨k, d, by rw [search, hd], by omega, hd⟩
  | succ grids ih =>
    rw [search]
    cases hd : i.onGrid tie k with
    | some d => exact ⟨k, d, rfl, by omega, hd⟩
    | none =>
      obtain ⟨k', d, hSearch, hFine, hHit⟩ := ih (k := k - 1) (by rwa [sub_sub, add_comm, ← Nat.cast_succ])
      exact ⟨k', d, hSearch, by omega, hHit⟩

end RoundingInterval

/-! ## The decimal that is found -/

noncomputable def real (d : Decimal) : ℝ := movePoint d.coefficient d.exponent

theorem shortest_eq (tie : Tie) {i : RoundingInterval} (h : 0 < i.mantissa) {d : ℕ} {k : ℤ}
    (hSearch : i.search tie 17 (leading i.mantissa i.exponent) = ⟨d, k⟩) :
    shortest tie i.mantissa i.exponent = if d = 10 then ⟨1, k + 1⟩ else ⟨d, k⟩ := by
  rw [shortest, if_neg h.ne']
  change (if (i.search tie 17 (leading i.mantissa i.exponent)).coefficient = 10 then _ else
    i.search tie 17 (leading i.mantissa i.exponent)) = _
  rw [hSearch]

/-- The decimal of a finite value other than zero rounds to it and has seventeen digits at most. -/
theorem shortest_spec (tie : Tie) {i : RoundingInterval} (h : i.Canonical) (hGreatest : i.exponent ≤ 971) :
    i.Contains (shortest tie i.mantissa i.exponent).real ∧
      (shortest tie i.mantissa i.exponent).coefficient ≤ 10 ^ 17 := by
  have hLog : (i.mantissa.log2 : ℤ) ≤ 52 := by
    have hLt := (Nat.log2_lt h.pos.ne').mpr h.lt
    omega
  have hTop : -1074 ≤ (i.mantissa.log2 : ℤ) + i.exponent := by
    have hLeast := h.least
    omega
  obtain ⟨hLow, hHigh⟩ := leading_bounds h.pos hTop (by omega)
  have hStep : (10 : ℝ) ^ (leading i.mantissa i.exponent - (16 : ℕ)) < i.upper - i.lower :=
    step_lt h (by rwa [Nat.cast_ofNat, sub_add_cancel])
  obtain ⟨k, d, hSearch, hFine, hHit⟩ := exists_search h tie 16 hStep
  obtain ⟨hHolds, hNext⟩ := onGrid_spec hHit
  have hInside := contains_of_holds hHolds
  have hFew : d ≤ 10 ^ 17 := by
    have hFloor := (floor_bounds (den_scaled_pos i.mantissa i.exponent k)).1
    rw [real_scaled] at hFloor
    have hLess : ((scaled i.mantissa i.exponent k).floor : ℝ) < 10 ^ 17 := by
      refine hFloor.trans_lt ?_
      rw [div_lt_iff₀ (ten_zpow_pos k), ← zpow_natCast, ← zpow_add₀ (by norm_num)]
      refine hHigh.trans_le (zpow_le_zpow_right₀ (by norm_num) ?_)
      omega
    have hFloorLess : (scaled i.mantissa i.exponent k).floor < 10 ^ 17 := by exact_mod_cast hLess
    omega
  rw [shortest_eq tie h.pos hSearch]
  split
  · next hTen =>
    have hSame : (⟨1, k + 1⟩ : Decimal).real = d * 10 ^ k := by
      rw [real, movePoint, hTen, zpow_add_one₀ (by norm_num)]
      push_cast
      ring
    rw [hSame]
    exact ⟨hInside, Nat.one_le_pow _ _ (by decide)⟩
  · exact ⟨hInside, hFew⟩

section Inside

variable {i : RoundingInterval} (h : i.Canonical) {d : Decimal} (hd : i.Contains d.real)

include h hd

theorem coefficient_pos : 0 < d.coefficient := by
  rw [Nat.pos_iff_ne_zero]
  intro hZero
  have hPos := hd.pos h
  rw [real, movePoint, hZero, Nat.cast_zero, zero_mul] at hPos
  exact hPos.false

theorem exponent_le (hGreatest : i.exponent ≤ 971) : d.exponent ≤ 308 := by
  have hPow := ten_zpow_pos d.exponent
  have hOne : (1 : ℝ) ≤ d.coefficient := by exact_mod_cast coefficient_pos h hd
  have hLess := lt_two_zpow h hd
  rw [abs_of_pos (hd.pos h)] at hLess
  have hPowers : ((2 : ℕ) : ℝ) ^ (1024 : ℤ) ≤ (10 : ℕ) ^ (309 : ℤ) :=
    zpow_le_zpow_of_toNat (by decide) (by decide) (by decide +kernel)
  have hTop : (10 : ℝ) ^ d.exponent < 10 ^ (309 : ℤ) := by
    calc (10 : ℝ) ^ d.exponent ≤ d.coefficient * 10 ^ d.exponent := le_mul_of_one_le_left hPow.le hOne
      _ < 2 ^ (i.exponent + 53) := hLess
      _ ≤ 2 ^ (1024 : ℤ) := zpow_le_zpow_right₀ (by norm_num) (by omega)
      _ ≤ 10 ^ (309 : ℤ) := by exact_mod_cast hPowers
  have hBelow := (zpow_lt_zpow_iff_right₀ (by norm_num)).mp hTop
  omega

theorem le_exponent (hFew : d.coefficient ≤ 10 ^ 17) : -341 ≤ d.exponent := by
  have hHalf := two_zpow_pos i.exponent
  have hSeventeen : (d.coefficient : ℝ) ≤ 10 ^ (17 : ℤ) := by exact_mod_cast hFew
  have hOne : (1 : ℝ) ≤ i.mantissa := by exact_mod_cast h.pos
  have hValue : (2 : ℝ) ^ i.exponent ≤ i.value := le_mul_of_one_le_left hHalf.le hOne
  have hPowers : ((10 : ℕ) : ℝ) ^ (-324 : ℤ) ≤ (2 : ℕ) ^ (-1075 : ℤ) :=
    zpow_le_zpow_of_toNat (by decide) (by decide) (by decide +kernel)
  have hBottom : (10 : ℝ) ^ (-324 : ℤ) ≤ 10 ^ (17 + d.exponent) := by
    calc (10 : ℝ) ^ (-324 : ℤ) ≤ 2 ^ (-1075 : ℤ) := by exact_mod_cast hPowers
      _ ≤ 2 ^ (i.exponent - 1) := zpow_le_zpow_right₀ (by norm_num) (by have := h.least; omega)
      _ = 2 ^ i.exponent / 2 := by rw [zpow_sub_one₀ (by norm_num), div_eq_mul_inv]
      _ ≤ i.lower := by linarith [(lower_bounds h).1]
      _ ≤ d.coefficient * 10 ^ d.exponent := hd.lower_le
      _ ≤ 10 ^ (17 : ℤ) * 10 ^ d.exponent := mul_le_mul_of_nonneg_right hSeventeen (ten_zpow_pos _).le
      _ = 10 ^ (17 + d.exponent) := (zpow_add₀ (by norm_num) _ _).symm
  have hAbove := (zpow_le_zpow_iff_right₀ (by norm_num)).mp hBottom
  omega

end Inside

end TrackLayout.Decimal
