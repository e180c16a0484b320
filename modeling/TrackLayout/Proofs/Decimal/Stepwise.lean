import TrackLayout.Decimal.Stepwise
import TrackLayout.Proofs.Binary64.Error
import TrackLayout.Proofs.Decimal.Nearest

/-!
# Numerals read in steps

The word, the power of ten and the value scaled by it are each rounded once, so
what is read is a few roundings off. It is exact before the last rounding if
the word and the power are. A quotient never overflows, and a product does not
as long as the digits are those of a value.
-/
set_option autoImplicit false

namespace TrackLayout

open Binary64

namespace Scaled

/-! ## Words -/

/-- Appends a digit to a number. -/
def append (m : ℕ) (d : Digit) : ℕ := 10 * m + d.val

theorem le_foldl_append (ds : List Digit) (m : ℕ) : m ≤ ds.foldl append m := by
  induction ds generalizing m with
  | nil => exact le_rfl
  | cons d ds ih =>
    have hFirst : m ≤ append m d := by
      rw [append]
      omega
    exact hFirst.trans (ih (append m d))

/-- Digits that all fit are all taken. -/
theorem take_eq {ds : List Digit} {m : ℕ} (h : ds.foldl append m ≤ wordLimit) :
    take m ds = (ds.foldl append m, []) := by
  induction ds generalizing m with
  | nil => rfl
  | cons d ds ih =>
    have hFits : 10 * m + d.val ≤ wordLimit := (le_foldl_append ds (append m d)).trans h
    rw [take, if_pos hFits]
    exact ih h

theorem foldl_append_ofChar {cs : List Char} (h : ∀ c ∈ cs, c.isDigit = true) (m : ℕ) :
    (cs.map Digit.ofChar).foldl append m = Nat.ofDigitChars 10 cs m := by
  induction cs generalizing m with
  | nil => rfl
  | cons c cs ih =>
    obtain ⟨hFirst, hRest⟩ := List.forall_mem_cons.mp h
    have hDigit : (Digit.ofChar c).val = c.toNat - '0'.toNat := by
      rw [Char.isDigit, Bool.and_eq_true, decide_eq_true_eq, decide_eq_true_eq] at hFirst
      have hTop : c.toNat ≤ '9'.toNat := UInt32.le_iff_toNat_le.mp hFirst.2
      have hZero : '0'.toNat = 48 := rfl
      have hNine : '9'.toNat = 57 := rfl
      exact Nat.mod_eq_of_lt (by omega)
    rw [List.map_cons, List.foldl_cons, ih hRest, append, hDigit]
    rfl

theorem foldl_wholeDigits (n : Numeral) : n.wholeDigits.foldl append 0 = n.whole := by
  rw [Numeral.wholeDigits, foldl_append_ofChar fun _ hc => Nat.isDigit_of_mem_toDigits (by decide) (by decide) hc]
  exact Nat.ofDigitChars_ten_toDigits

/-- A numeral whose digits fit into a word is taken as it is. -/
theorem ofNumeral_eq {n : Numeral} (h : n.coefficient ≤ wordLimit) :
    ofNumeral n = ⟨n.coefficient, n.scale⟩ := by
  have hWhole : take 0 n.wholeDigits = (n.whole, []) := by
    have hFits : n.wholeDigits.foldl append 0 ≤ wordLimit := by
      rw [foldl_wholeDigits]
      exact (le_foldl_append n.fraction n.whole).trans h
    rw [take_eq hFits, foldl_wholeDigits]
  have hFraction : take n.whole n.fraction = (n.coefficient, []) := take_eq h
  rw [ofNumeral, hWhole]
  dsimp only
  rw [hFraction]
  dsimp only
  rw [Numeral.scale, List.length_nil]
  congr 1
  omega

/-! ## Powers of ten -/

theorem nearest_word (m : ℕ) : Nearest (nearest false m 0) m := by
  have hWord := nearest_nearest false m (e := 0) (by decide)
  rwa [zpow_zero, mul_one] at hWord

theorem nearest_powerOfTen {n : ℕ} (h : n ≤ greatestPower) : Nearest (powerOfTen n) (10 ^ n) := by
  have hPower := nearest_ofScientific 1 (e := n) (h.trans (by decide))
  rw [decide_eq_false (by omega), movePoint_natCast, Nat.cast_one, one_mul] at hPower
  exact hPower

theorem denotes_powerOfTen {n : ℕ} (h : n ≤ 22) : Denotes (powerOfTen n) (10 ^ n) := by
  have hPower := denotes_power h (h.trans_lt (by decide))
  exact (nearest_powerOfTen (h.trans (by decide))).denotes_of_rounds hPower.rounds hPower.abs_lt

theorem greatestPower_le : (10 : ℝ) ^ greatestPower ≤ 5 * 2 ^ (1021 : ℤ) := by
  exact_mod_cast (show 10 ^ greatestPower ≤ 5 * 2 ^ 1021 by decide +kernel)

/-- Three roundings beyond the greatest power of ten nothing overflows. -/
theorem greatestPower_mul_lt : (10 : ℝ) ^ greatestPower * (3 / 2) < 2 ^ (1024 : ℤ) - 2 ^ (970 : ℤ) := by
  have hPower := greatestPower_le
  have hTop : (2 : ℝ) ^ (1024 : ℤ) = 8 * 2 ^ (1021 : ℤ) := by
    rw [show (1024 : ℤ) = 3 + 1021 by decide, zpow_add₀ (by norm_num)]
    norm_num
  have hLast : (2 : ℝ) ^ (970 : ℤ) ≤ 2 ^ (1021 : ℤ) / 4 := by
    rw [show (1021 : ℤ) = 1019 + 2 by decide, zpow_add₀ (by norm_num)]
    refine (zpow_le_zpow_right₀ (by norm_num) (by decide : (970 : ℤ) ≤ 1019)).trans_eq ?_
    norm_num
  have hPos := two_zpow_pos 1021
  rw [hTop]
  -- the powers are too great to be computed
  generalize (10 : ℝ) ^ greatestPower = a at hPower ⊢
  generalize (2 : ℝ) ^ (1021 : ℤ) = b at hPower hLast hPos ⊢
  generalize (2 : ℝ) ^ (970 : ℤ) = c at hLast ⊢
  linarith

section Steps

variable {c n : ℕ}

theorem exists_word (hFew : c ≤ 10 ^ 17) : ∃ X, Denotes (nearest false c 0) X ∧ Rounds c X := by
  have hSmall : |(c : ℝ)| ≤ 2 ^ (1023 : ℤ) := by
    rw [abs_of_nonneg (Nat.cast_nonneg c)]
    calc (c : ℝ) ≤ (10 ^ 17 : ℕ) := Nat.cast_le.mpr hFew
      _ ≤ 2 ^ (57 : ℤ) := by norm_num
      _ ≤ 2 ^ (1023 : ℤ) := zpow_le_zpow_right₀ (by norm_num) (by decide)
  obtain ⟨X, hRounds, hDenotes⟩ := (nearest_word c).exists_rounds hSmall
  exact ⟨X, hDenotes, hRounds⟩

theorem exists_power (h : n ≤ greatestPower) : ∃ P, Denotes (powerOfTen n) P ∧ Rounds (10 ^ n) P := by
  have hTop : (10 : ℝ) ^ greatestPower < 2 ^ (1024 : ℤ) - 2 ^ (970 : ℤ) :=
    (le_mul_of_one_le_right (pow_pos (by norm_num) _).le (by norm_num)).trans_lt greatestPower_mul_lt
  have hSmall : |(10 : ℝ) ^ n| < 2 ^ (1024 : ℤ) - 2 ^ (970 : ℤ) := by
    rw [abs_of_pos (pow_pos (by norm_num) n)]
    exact (pow_le_pow_right₀ (by norm_num) h).trans_lt hTop
  obtain ⟨P, hRounds, hDenotes⟩ := (nearest_powerOfTen h).exists_rounds_of_lt hSmall
  exact ⟨P, hDenotes, hRounds⟩

theorem normal_of_one_le {x : ℝ} (h : 1 ≤ x) : 2 ^ (-1022 : ℤ) ≤ x := by
  refine le_trans ?_ h
  exact zpow_le_one_of_nonpos₀ (by norm_num) (by decide)

theorem one_le_power (n : ℕ) : (1 : ℝ) ≤ 10 ^ n := one_le_pow₀ (by norm_num)

/-! ## Products -/

/-- The greatest words for the greatest powers of ten do not overflow. -/
theorem product_check : ((List.range 17).all fun j : ℕ => (rational? (powerOfTen (292 + j))).any fun p =>
    decide (((17976931348623156 / 10 ^ j : ℕ) : ℚ) * p < 2 ^ 1024 - 2 ^ 970)) = true := by decide +kernel

/-- The digits of the greatest value are a tie. -/
theorem word_check : rational? (nearest false 17976931348623157 0) = some 17976931348623156 := by decide +kernel

theorem representable_greatest (j : ℕ) : Representable ((17976931348623156 / 10 ^ j : ℕ) : ℝ) := by
  cases j with
  | zero =>
    have hEven : ((17976931348623156 / 10 ^ 0 : ℕ) : ℝ) = ((8988465674311578 : ℤ) : ℝ) * 2 ^ (1 : ℤ) := by norm_num
    rw [hEven]
    exact representable_intCast_mul (by decide) (by decide)
  | succ j =>
    have hSmall : 17976931348623156 / 10 ^ (j + 1) ≤ 2 ^ 53 := by
      have hTen : 10 ≤ 10 ^ (j + 1) := Nat.le_self_pow (Nat.succ_ne_zero j) 10
      exact (Nat.div_le_div_left hTen (by decide)).trans (by decide)
    have hWhole := representable_intCast (r := ((17976931348623156 / 10 ^ (j + 1) : ℕ) : ℤ))
      (by rw [Nat.abs_cast]; exact_mod_cast hSmall)
    rwa [Int.cast_natCast] at hWhole

theorem product_lt_great {j : ℕ} {X P : ℝ} (hj : j ≤ 16) (hX : X ≤ (17976931348623156 / 10 ^ j : ℕ)) (hPos : 0 ≤ P)
    (hP : Denotes (powerOfTen (292 + j)) P) : X * P < 2 ^ (1024 : ℤ) - 2 ^ (970 : ℤ) := by
  have hCheck := List.all_eq_true.mp product_check j (List.mem_range.mpr (by omega))
  obtain ⟨p, hp, hLess⟩ := (Option.any_eq_true _ _).mp hCheck
  have hSame := hP.unique (denotes_rational hp)
  have hCast := Rat.cast_lt (K := ℝ) |>.mpr (of_decide_eq_true hLess)
  rw [hSame]
  rw [hSame] at hPos
  refine (mul_le_mul_of_nonneg_right hX hPos).trans_lt ?_
  exact_mod_cast hCast

/-- What the product of a word and a power of ten may be, so that it is no greater than the digits of the
greatest value. -/
def Fits (c : ℕ) (k : ℤ) : Prop := movePoint c k ≤ movePoint 17976931348623157 292

theorem Fits.mul_le (h : Fits c (292 + n : ℕ)) : c * 10 ^ n ≤ 17976931348623157 := by
  rw [Fits, movePoint, movePoint, Nat.cast_add, Nat.cast_ofNat, zpow_add₀ (by norm_num),
    mul_comm ((10 : ℝ) ^ (292 : ℤ)), ← mul_assoc,
    zpow_natCast] at h
  have hCast : (c : ℝ) * 10 ^ n ≤ 17976931348623157 :=
    le_of_mul_le_mul_right h (Decimal.RoundingInterval.ten_zpow_pos _)
  exact_mod_cast hCast

/-- Only the greatest digits round up to something that overflows, and they round down. -/
theorem word_le (hFits : Fits c (292 + n : ℕ)) {X : ℝ} (hX : Denotes (nearest false c 0) X) (hRounds : Rounds c X) :
    X ≤ (17976931348623156 / 10 ^ n : ℕ) := by
  have hTop := hFits.mul_le
  rcases Nat.lt_or_eq_of_le hTop with hLess | hGreatest
  · have hWord : c ≤ 17976931348623156 / 10 ^ n :=
      (Nat.le_div_iff_mul_le (Nat.pow_pos (by decide))).mpr (Nat.le_of_lt_succ hLess)
    exact hRounds.le_of_le (representable_greatest n) (Nat.cast_le.mpr hWord)
  · cases n with
    | zero =>
      rw [pow_zero, mul_one] at hGreatest
      rw [hGreatest] at hX
      rw [hX.unique (denotes_rational word_check)]
      norm_num
    | succ n =>
      rw [pow_succ, ← mul_assoc] at hGreatest
      omega

theorem product_lt (hPos : 0 < c) (hFew : c ≤ 10 ^ 17) (hn : n ≤ greatestPower) (hFits : Fits c n) {X P : ℝ}
    (hX : Denotes (nearest false c 0) X) (hRounds : Rounds c X) (hP : Denotes (powerOfTen n) P)
    (hRoundsPower : Rounds (10 ^ n) P) : X * P < 2 ^ (1024 : ℤ) - 2 ^ (970 : ℤ) := by
  have hPower := hRoundsPower.close (normal_of_one_le (one_le_power n))
  have hWord := hRounds.close (normal_of_one_le (Nat.one_le_cast.mpr hPos))
  rcases Nat.lt_or_ge n 292 with hSmall | hGreat
  · have hHalf : roundings (1 + 1 + 1) ≤ 1 / 2 := by
      rw [roundings]
      norm_num
    have hScale : (c : ℝ) * 10 ^ n ≤ 10 ^ greatestPower := by
      have hExponent : 17 + n ≤ greatestPower := by
        rw [greatestPower]
        omega
      calc (c : ℝ) * 10 ^ n ≤ 10 ^ 17 * 10 ^ n :=
            mul_le_mul_of_nonneg_right (by exact_mod_cast hFew) (zero_le_one.trans (one_le_power n))
        _ = 10 ^ (17 + n) := (pow_add _ _ _).symm
        _ ≤ 10 ^ greatestPower := pow_le_pow_right₀ (by norm_num) hExponent
    have hOne := one_le_power greatestPower
    calc X * P ≤ c * 10 ^ n * (1 + roundings (1 + 1 + 1)) :=
          (hWord.mul (by decide) hPower (by decide)).ge
      _ ≤ 10 ^ greatestPower * (3 / 2) :=
        mul_le_mul hScale (by linarith) (by linarith [roundings_nonneg (1 + 1 + 1)]) (by linarith)
      _ < 2 ^ (1024 : ℤ) - 2 ^ (970 : ℤ) := greatestPower_mul_lt
  · obtain ⟨j, rfl⟩ := Nat.exists_eq_add_of_le hGreat
    rw [greatestPower] at hn
    exact product_lt_great (by omega) (word_le hFits hX hRounds) (hPower.pos_right (by decide)).le hP

end Steps

/-! ## Scaling -/

/-- A value that is read: before the last rounding it was at most thirteen roundings off, and only the word
was rounded if the power of ten is exact. -/
def Reads (s : Scaled) (y : Float) : Prop :=
  ∃ z w, Close 13 (movePoint s.word s.exponent) z ∧ Rounds z w ∧ Denotes y w ∧
    (s.exponent.natAbs ≤ 22 → ∃ X, Rounds s.word X ∧ z = movePoint X s.exponent)

theorem power_exact {n : ℕ} {P : ℝ} (hP : Denotes (powerOfTen n) P) (h : n ≤ 22) : P = 10 ^ n :=
  hP.unique (denotes_powerOfTen h)

section Scale

variable {c : ℕ} (hPos : 0 < c) (hFew : c ≤ 10 ^ 17)

include hPos hFew

omit hPos in
/-- A quotient of a word is far from overflowing. -/
theorem quotient_le {k n : ℕ} {z : ℝ} (h : Close k (c / 10 ^ n) z) (hk : k ≤ 16) : |z| ≤ 2 ^ (1023 : ℤ) := by
  have hOne := roundings_lt_one (Nat.le_succ_of_le hk)
  have hWord : (c : ℝ) ≤ 2 ^ (57 : ℤ) := by
    calc (c : ℝ) ≤ (10 ^ 17 : ℕ) := Nat.cast_le.mpr hFew
      _ ≤ 2 ^ (57 : ℤ) := by norm_num
  rw [abs_of_pos (h.pos_right hk)]
  calc z ≤ c / 10 ^ n * (1 + roundings k) := h.ge
    _ ≤ c * 2 := by
      refine mul_le_mul (div_le_self (Nat.cast_nonneg c) (one_le_power n)) (by linarith) ?_ (Nat.cast_nonneg c)
      linarith [roundings_nonneg k]
    _ ≤ 2 ^ (57 : ℤ) * 2 := mul_le_mul_of_nonneg_right hWord zero_le_two
    _ = 2 ^ (58 : ℤ) := (zpow_add_one₀ (by norm_num) 57).symm
    _ ≤ 2 ^ (1023 : ℤ) := zpow_le_zpow_right₀ (by norm_num) (by decide)

theorem exists_enlarge? {n : ℕ} (hn : n ≤ greatestPower) (hFits : Fits c n) :
    ∃ y, enlarge? (nearest false c 0) n = some y ∧ Reads ⟨c, n⟩ y := by
  obtain ⟨X, hX, hWord⟩ := exists_word hFew
  obtain ⟨P, hP, hPower⟩ := exists_power hn
  have hClose := (hWord.close (normal_of_one_le (Nat.one_le_cast.mpr hPos))).mul (by decide)
    (hPower.close (normal_of_one_le (one_le_power n))) (by decide)
  have hProduct : |X * P| < 2 ^ (1024 : ℤ) - 2 ^ (970 : ℤ) := by
    rw [abs_of_pos (hClose.pos_right (by decide))]
    exact product_lt hPos hFew hn hFits hX hWord hP hPower
  obtain ⟨w, hRounds, hDenotes⟩ := (hX.mul hP).exists_rounds_of_lt hProduct
  refine ⟨nearest false c 0 * powerOfTen n, ?_, X * P, w, ?_, hRounds, hDenotes, ?_⟩
  · rw [enlarge?, if_pos hn, Option.filter_some, if_pos hDenotes.isFinite]
  · rw [movePoint_natCast]
    exact hClose.mono (by decide)
  · intro hSmall
    rw [Int.natAbs_natCast] at hSmall
    exact ⟨X, hWord, by rw [power_exact hP hSmall, movePoint_natCast]⟩

theorem reads_diminish_once {n : ℕ} (hn : n ≤ greatestPower) :
    Reads ⟨c, -n⟩ (nearest false c 0 / powerOfTen n) := by
  obtain ⟨X, hX, hWord⟩ := exists_word hFew
  obtain ⟨P, hP, hPower⟩ := exists_power hn
  have hClose := (hWord.close (normal_of_one_le (Nat.one_le_cast.mpr hPos))).div (by decide)
    (hPower.close (normal_of_one_le (one_le_power n))) (by decide)
  have hNe : P ≠ 0 := ((hPower.close (normal_of_one_le (one_le_power n))).pos_right (by decide)).ne'
  obtain ⟨w, hRounds, hDenotes⟩ := (hX.div hP hNe).exists_rounds (quotient_le hFew hClose (by decide))
  refine ⟨X / P, w, ?_, hRounds, hDenotes, ?_⟩
  · rw [movePoint_neg]
    exact hClose.mono (by decide)
  · intro hSmall
    rw [Int.natAbs_neg, Int.natAbs_natCast] at hSmall
    exact ⟨X, hWord, by rw [power_exact hP hSmall, movePoint_neg]⟩

omit hFew in
/-- The first of two quotients is large enough to be rounded like any other. -/
theorem close_first {z w : ℝ} (h : Close 4 (c / 10 ^ greatestPower) z) (hRounds : Rounds z w) : Close 5 z w := by
  have hz := h.pos_right (by decide)
  have hPower : (10 : ℝ) ^ greatestPower ≤ 3 * 2 ^ (1022 : ℤ) := by
    rw [show (1022 : ℤ) = 1 + 1021 by decide, zpow_add₀ (by norm_num), zpow_one, ← mul_assoc]
    exact greatestPower_le.trans (mul_le_mul_of_nonneg_right (by norm_num) (two_zpow_pos _).le)
  have hTen : (0 : ℝ) < 10 ^ greatestPower := pow_pos (by norm_num) _
  have hWord : (1 : ℝ) ≤ c := Nat.one_le_cast.mpr hPos
  have hUnit : roundings 4 = 2 ^ (-51 : ℤ) := by
    rw [roundings]
    norm_num
  have hLow : (2 : ℝ) ^ (-1024 : ℤ) ≤ z := by
    calc (2 : ℝ) ^ (-1024 : ℤ) = 1 / (3 * 2 ^ (1022 : ℤ)) * (3 / 4) := by
          rw [show (-1024 : ℤ) = -1022 - 2 by decide, zpow_sub₀ (by norm_num), zpow_neg]
          field_simp
          norm_num
      _ ≤ 1 / 10 ^ greatestPower * (3 / 4) :=
        mul_le_mul_of_nonneg_right (one_div_le_one_div_of_le hTen hPower) (by norm_num)
      _ ≤ c / 10 ^ greatestPower * (1 - roundings 4) := by
        refine mul_le_mul (div_le_div_of_nonneg_right hWord hTen.le) ?_ (by norm_num)
          (div_nonneg (Nat.cast_nonneg c) hTen.le)
        rw [hUnit]
        norm_num
      _ ≤ z := h.le
  have hLeast : (2 : ℝ) ^ (-1075 : ℤ) ≤ z * roundings 4 := by
    calc (2 : ℝ) ^ (-1075 : ℤ) = 2 ^ (-1024 : ℤ) * 2 ^ (-51 : ℤ) := by
          rw [← zpow_add₀ (by norm_num)]
          rfl
      _ ≤ z * roundings 4 := by
        rw [hUnit]
        exact mul_le_mul_of_nonneg_right hLow (two_zpow_pos _).le
  refine .of_abs_sub_le hz (hRounds.abs_sub_le_add.trans ?_)
  rw [abs_of_pos hz, show (5 : ℕ) = 1 + 4 by decide, roundings_add, mul_add]
  linarith

theorem reads_diminish_twice {n : ℕ} (hn : greatestPower < n) (hn' : n ≤ 2 * greatestPower) :
    Reads ⟨c, -n⟩ (nearest false c 0 / powerOfTen greatestPower / powerOfTen (n - greatestPower)) := by
  obtain ⟨X, hX, hWord⟩ := exists_word hFew
  obtain ⟨P, hP, hPower⟩ := exists_power (le_refl greatestPower)
  obtain ⟨Q, hQ, hRest⟩ := exists_power (show n - greatestPower ≤ greatestPower by omega)
  have hCloseP := hPower.close (normal_of_one_le (one_le_power _))
  have hCloseQ := hRest.close (normal_of_one_le (one_le_power _))
  have hFirst := (hWord.close (normal_of_one_le (Nat.one_le_cast.mpr hPos))).div (by decide) hCloseP (by decide)
  obtain ⟨v, hRoundsFirst, hv⟩ := (hX.div hP (hCloseP.pos_right (by decide)).ne').exists_rounds
    (quotient_le hFew hFirst (by decide))
  have hSecond := (hFirst.trans (by decide) (close_first hPos hFirst hRoundsFirst) (by decide)).div (by decide)
    hCloseQ (by decide)
  rw [div_div, ← pow_add, Nat.add_sub_cancel' hn.le] at hSecond
  obtain ⟨w, hRounds, hDenotes⟩ := (hv.div hQ (hCloseQ.pos_right (by decide)).ne').exists_rounds
    (quotient_le hFew hSecond (by decide))
  refine ⟨v / Q, w, ?_, hRounds, hDenotes, fun hSmall => ?_⟩
  · rw [movePoint_neg]
    exact hSecond.mono (by decide)
  · rw [Int.natAbs_neg, Int.natAbs_natCast] at hSmall
    rw [greatestPower] at hn
    omega

/-- A word of seventeen digits is read with every power of ten that a value needs. -/
theorem exists_toFloat? {k : ℤ} (hLow : -616 ≤ k) (hHigh : k ≤ 308) (hFits : Fits c k) :
    ∃ y, toFloat? ⟨c, k⟩ = some y ∧ Reads ⟨c, k⟩ y := by
  cases k with
  | ofNat n =>
    have hn : n ≤ greatestPower := Int.ofNat_le.mp hHigh
    exact exists_enlarge? hPos hFew hn hFits
  | negSucc n =>
    refine ⟨_, rfl, ?_⟩
    rw [diminish]
    split
    · next hOnce => exact reads_diminish_once hPos hFew hOnce
    · next hTwice =>
      rw [if_pos (by rw [greatestPower]; omega)]
      exact reads_diminish_twice hPos hFew (not_le.mp hTwice) (by rw [greatestPower]; omega)

end Scale

end Scaled

end TrackLayout
