import TrackLayout.Proofs.Binary64.Packing

/-!
# Rounding

The exact result of an operation is rounded to a multiple of the unit in the
last place of values as large as it. The rounded value is nearest among those
multiples, which makes rounding monotone, keeps every number that needs no
more than 53 bits, and bounds its error by the size of the exact result.
-/
set_option autoImplicit false

namespace TrackLayout.Binary64

open Float.Model Float.Model.UnpackedFloat

-- a constant, so that definitions with this literal carry no proof of their own
instance atLeastTwo_two : Nat.AtLeastTwo 2 := inferInstance

/-! ## Mantissas with residual bits -/

/-- The number in units of the last place that a mantissa and its residual bits stand for. -/
def Represents (m : ExtendedMantissa) (x : ℝ) : Prop :=
  match m.roundBit, m.stickyBit with
  | false, false => x = m.mantissa
  | false, true => m.mantissa < x ∧ x < m.mantissa + 1 / 2
  | true, false => x = m.mantissa + 1 / 2
  | true, true => m.mantissa + 1 / 2 < x ∧ x < m.mantissa + 1

namespace Represents

variable {m : ExtendedMantissa} {x : ℝ}

theorem floor (h : Represents m x) : m.mantissa ≤ x ∧ x < m.mantissa + 1 := by
  obtain ⟨n, _ | _, _ | _⟩ := m <;> simp only [Represents] at h
  · rw [h]
    constructor <;> linarith
  · constructor <;> linarith
  · rw [h]
    constructor <;> linarith
  · constructor <;> linarith

theorem shiftRightOne (h : Represents m x) : Represents m.shiftRightOne (x / 2) := by
  obtain ⟨n, roundBit, stickyBit⟩ := m
  have hSplit : ((n % 2 : ℕ) : ℝ) + 2 * ((n / 2 : ℕ) : ℝ) = n := by exact_mod_cast Nat.mod_add_div n 2
  rcases Nat.mod_two_eq_zero_or_one n with hEven | hOdd
  · rw [hEven, Nat.cast_zero] at hSplit
    cases roundBit <;> cases stickyBit <;> simp only [Represents, ExtendedMantissa.shiftRightOne, hEven] at h ⊢
    · change x / 2 = _
      linarith
    · change _ < x / 2 ∧ x / 2 < _
      constructor <;> linarith
    · change _ < x / 2 ∧ x / 2 < _
      constructor <;> linarith
    · change _ < x / 2 ∧ x / 2 < _
      constructor <;> linarith
  · rw [hOdd, Nat.cast_one] at hSplit
    cases roundBit <;> cases stickyBit <;> simp only [Represents, ExtendedMantissa.shiftRightOne, hOdd] at h ⊢
    · change x / 2 = _
      linarith
    · change _ < x / 2 ∧ x / 2 < _
      constructor <;> linarith
    · change _ < x / 2 ∧ x / 2 < _
      constructor <;> linarith
    · change _ < x / 2 ∧ x / 2 < _
      constructor <;> linarith

theorem shiftRight (h : Represents m x) (n : ℕ) : Represents (m >>> n) (x / 2 ^ n) := by
  induction n with
  | zero =>
    rw [pow_zero, div_one]
    exact h
  | succ n ih =>
    have hShift := ih.shiftRightOne
    rw [div_div, ← pow_succ] at hShift
    exact hShift

/-- Rounding moves a number by half a unit at most. -/
theorem abs_roundedMantissa_sub_le (h : Represents m x) : |(m.roundedMantissa : ℝ) - x| ≤ 1 / 2 := by
  obtain ⟨n, roundBit, stickyBit⟩ := m
  cases roundBit <;> cases stickyBit <;>
    simp only [Represents, ExtendedMantissa.roundedMantissa, ExtendedMantissa.accuracy,
      Accuracy.roundToNearestEven] at h ⊢
  · rw [h, sub_self, abs_zero]
    norm_num
  · rw [abs_le]
    constructor <;> linarith
  · -- a tie goes to the even neighbour
    rcases Nat.mod_two_eq_zero_or_one n with hEven | hOdd
    · rw [hEven, h, abs_le]
      constructor <;> push_cast <;> linarith
    · rw [hOdd, h, abs_le]
      constructor <;> push_cast <;> linarith
  · rw [abs_le]
    constructor <;> push_cast <;> linarith

/-- Half a unit is left only if both neighbours are equally near, and then the even one is taken. -/
theorem even_roundedMantissa (h : Represents m x) (hTie : |(m.roundedMantissa : ℝ) - x| = 1 / 2) :
    Even m.roundedMantissa := by
  obtain ⟨n, roundBit, stickyBit⟩ := m
  cases roundBit <;> cases stickyBit <;>
    simp only [Represents, ExtendedMantissa.roundedMantissa, ExtendedMantissa.accuracy,
      Accuracy.roundToNearestEven] at h hTie ⊢
  · rw [h, sub_self, abs_zero] at hTie
    norm_num at hTie
  · rw [abs_of_nonpos (by linarith)] at hTie
    linarith
  · rcases Nat.mod_two_eq_zero_or_one n with hEven | hOdd
    · rw [hEven]
      exact Nat.even_iff.mpr hEven
    · rw [hOdd]
      exact Nat.even_iff.mpr (by omega)
  · push_cast at hTie
    rw [abs_of_nonneg (by linarith)] at hTie
    linarith

end Represents

/-! ## Rounding to the last place -/

/-- `2 ^ t` is the unit in the last place of values as large as `x`. -/
structure LastPlace (x : ℝ) (t : ℤ) : Prop where
  least : -1074 ≤ t
  lt : |x| < 2 ^ (t + 53)
  le : 2 ^ (t + 52) ≤ |x| ∨ t = -1074

/-- The nearest multiple of the unit in the last place; of two that are equally near, the even one. -/
def Rounds (x v : ℝ) : Prop :=
  ∃ (t r : ℤ), LastPlace x t ∧ v = r * 2 ^ t ∧ |v - x| ≤ 2 ^ t / 2 ∧ (|v - x| = 2 ^ t / 2 → Even r)

def signed (s : Sign) (x : ℝ) : ℝ := match s with | .negative => -x | .positive => x

/-- The number that a finite value stands for. -/
noncomputable def unpackedReal? : UnpackedFloat → Option ℝ
  | .finite s m e _ => some (signed s (m * 2 ^ e))
  | .zero _ => some 0
  | .infinity _ | .notANumber => none

theorem two_zpow_pos (e : ℤ) : (0 : ℝ) < 2 ^ e := zpow_pos (by norm_num) e

theorem targetExponent_eq (m : ℕ) (e : ℤ) :
    Format.binary64.targetExponent (totalExponent m e) = max (m.log2 + e - 52) (-1074) := by
  simp only [Format.targetExponent, totalExponent, Format.mantissaBits, Format.minExponent]
  norm_num
  omega

/-- The target of the first shift is the last place of the number that is rounded. -/
theorem lastPlace_target {m : ℕ} {e : ℤ} {x : ℝ} (h : (m : ℝ) ≤ x / 2 ^ e) (h' : x / 2 ^ e < m + 1)
    (hBits : m = 0 → e ≤ -1074) : LastPlace x (Format.binary64.targetExponent (totalExponent m e)) := by
  have hPow := two_zpow_pos e
  rw [le_div_iff₀ hPow] at h
  rw [div_lt_iff₀ hPow] at h'
  have hPos : 0 ≤ x := le_trans (mul_nonneg (Nat.cast_nonneg m) hPow.le) h
  have hHigh : x < 2 ^ ((m.log2 : ℤ) + 1 + e) := by
    refine lt_of_lt_of_le h' ?_
    have hSucc : m + 1 ≤ 2 ^ (m.log2 + 1) := Nat.lt_log2_self
    have hCast : (m : ℝ) + 1 ≤ 2 ^ (m.log2 + 1) := by exact_mod_cast hSucc
    rw [zpow_add₀ (by norm_num) _ e, ← Int.natCast_succ, zpow_natCast]
    exact mul_le_mul_of_nonneg_right hCast hPow.le
  rw [targetExponent_eq]
  refine ⟨le_max_right _ _, ?_, ?_⟩
  · rw [abs_of_nonneg hPos]
    exact lt_of_lt_of_le hHigh (zpow_le_zpow_right₀ (by norm_num) (by omega))
  · rw [abs_of_nonneg hPos]
    by_cases hLeast : m.log2 + e - 52 ≤ -1074
    · exact .inr (max_eq_right hLeast)
    · left
      have hm : m ≠ 0 := by
        rintro rfl
        have hLow := hBits rfl
        simp at hLeast
        omega
      have hLog : ((2 ^ m.log2 : ℕ) : ℝ) ≤ m := by exact_mod_cast Nat.log2_self_le hm
      rw [max_eq_left (by omega), show (m.log2 : ℤ) + e - 52 + 52 = m.log2 + e by omega,
        zpow_add₀ (by norm_num), zpow_natCast]
      refine le_trans (mul_le_mul_of_nonneg_right ?_ hPow.le) h
      exact_mod_cast hLog

theorem shiftToTargetExponent_of_le {m : ℕ} {e : ℤ} {a : Accuracy}
    (h : Format.binary64.targetExponent (totalExponent m e) ≤ e) :
    shiftToTargetExponent .binary64 m e a = (.ofMantissaAndAccuracy m a, e) := by
  have hNone : (Format.binary64.targetExponent (totalExponent m e) - e).toNat = 0 := by omega
  rw [shiftToTargetExponent, shiftToExponent, hNone]
  simp only [Nat.cast_zero, add_zero]
  rfl

/-- A mantissa that rounding has carried beyond its bits is shifted once more, without loss. -/
theorem shiftToTargetExponent_carried {t : ℤ} (ht : -1074 ≤ t) :
    shiftToTargetExponent .binary64 (2 ^ 53) t .exact = (⟨2 ^ 52, false, false⟩, t + 1) := by
  have hTarget : Format.binary64.targetExponent (totalExponent (2 ^ 53) t) = t + 1 := by
    rw [targetExponent_eq, Nat.log2_two_pow]
    omega
  have hOne : (t + 1 - t).toNat = 1 := by omega
  rw [shiftToTargetExponent, hTarget, shiftToExponent, hOne]
  rfl

theorem shiftToTargetExponent_small {r : ℕ} {t : ℤ} (hr : r < 2 ^ 53) (ht : -1074 ≤ t) :
    shiftToTargetExponent .binary64 r t .exact = (⟨r, false, false⟩, t) := by
  have hLog : r.log2 ≤ 52 := by
    by_cases hZero : r = 0
    · simp [hZero]
    · have hLt := (Nat.log2_lt hZero).mpr hr
      omega
  refine shiftToTargetExponent_of_le ?_
  rw [targetExponent_eq]
  omega

/-- The value with a mantissa that was rounded at the last place. -/
def settle (s : Sign) (r : ℕ) (t : ℤ) : UnpackedFloat :=
  let (m, e) := shiftToTargetExponent .binary64 r t .exact
  if h : m.mantissa = 0 then .zero s else .finite s m.mantissa e (Nat.pos_of_ne_zero h)

theorem settle_spec (s : Sign) {r : ℕ} {t : ℤ} (hr : r ≤ 2 ^ 53) (ht : -1074 ≤ t)
    (hBits : 2 ^ 52 ≤ r ∨ t = -1074) :
    Canonical (settle s r t) ∧ unpackedReal? (settle s r t) = some (signed s (r * 2 ^ t)) := by
  rcases Nat.lt_or_eq_of_le hr with hSmall | rfl
  · rw [settle, shiftToTargetExponent_small hSmall ht]
    dsimp only
    split
    · next hZero =>
      refine ⟨trivial, ?_⟩
      rw [hZero, Nat.cast_zero, zero_mul]
      cases s <;> simp [unpackedReal?, signed]
    · exact ⟨⟨hSmall, ht, hBits⟩, rfl⟩
  · rw [settle, shiftToTargetExponent_carried ht]
    refine ⟨⟨by decide, by omega, .inl (le_refl _)⟩, ?_⟩
    have hSame : ((2 ^ 52 : ℕ) : ℝ) * 2 ^ (t + 1) = ((2 ^ 53 : ℕ) : ℝ) * 2 ^ t := by
      rw [zpow_add₀ (by norm_num)]
      push_cast
      ring
    exact congrArg (fun x => some (signed s x)) hSame

section LastPlace

variable {x : ℝ} {t : ℤ} {r : ℕ} (hPlace : LastPlace x t) (hRound : |(r : ℝ) - x / 2 ^ t| ≤ 1 / 2)

include hPlace hRound

/-- Rounding at the last place fills the bits of a mantissa, and may carry beyond them by one. -/
theorem LastPlace.mantissa (hPos : 0 ≤ x) : r ≤ 2 ^ 53 ∧ (2 ^ 52 ≤ r ∨ t = -1074) := by
  have hPow := two_zpow_pos t
  obtain ⟨hDown, hUp⟩ := abs_le.mp hRound
  constructor
  · have hLt : x / 2 ^ t < 2 ^ 53 := by
      rw [div_lt_iff₀ hPow]
      have hLast := hPlace.lt
      rw [abs_of_nonneg hPos, zpow_add₀ (by norm_num)] at hLast
      linarith
    have hCast : (r : ℝ) < 2 ^ 53 + 1 := by linarith
    have hNat : r < 2 ^ 53 + 1 := by exact_mod_cast hCast
    omega
  · refine hPlace.le.imp (fun hLast => ?_) id
    have hGe : (2 : ℝ) ^ 52 ≤ x / 2 ^ t := by
      rw [le_div_iff₀ hPow]
      rw [abs_of_nonneg hPos, zpow_add₀ (by norm_num)] at hLast
      linarith
    have hCast : (2 : ℝ) ^ 52 < r + 1 := by linarith
    have hNat : 2 ^ 52 < r + 1 := by exact_mod_cast hCast
    omega

theorem LastPlace.rounds (hEven : |(r : ℝ) - x / 2 ^ t| = 1 / 2 → Even r) : Rounds x (r * 2 ^ t) := by
  have hPow := two_zpow_pos t
  have hScale : |(r : ℝ) * 2 ^ t - x| = |r - x / 2 ^ t| * 2 ^ t := by
    rw [← abs_of_pos hPow, ← abs_mul, abs_of_pos hPow, sub_mul, div_mul_cancel₀ x hPow.ne']
  refine ⟨t, r, hPlace, by push_cast; rfl, ?_, fun hTie => ?_⟩
  · rw [hScale]
    linarith [mul_le_mul_of_nonneg_right hRound hPow.le]
  · rw [hScale, mul_comm, div_eq_mul_one_div ((2 : ℝ) ^ t)] at hTie
    exact_mod_cast hEven (mul_left_cancel₀ hPow.ne' hTie)

end LastPlace

/-- What needs no rounding. -/
theorem LastPlace.rounds_self {r t : ℤ} (h : LastPlace (r * 2 ^ t) t) : Rounds (r * 2 ^ t) (r * 2 ^ t) := by
  have hHalf := half_pos (two_zpow_pos t)
  refine ⟨t, r, h, rfl, ?_, fun hTie => ?_⟩
  · rw [sub_self, abs_zero]
    exact hHalf.le
  · rw [sub_self, abs_zero] at hTie
    exact absurd hTie hHalf.ne

/-- What rounding a mantissa makes of the number that it stands for. -/
theorem exists_roundWithAccuracy {m : ℕ} {e : ℤ} {a : Accuracy} {x : ℝ} (s : Sign)
    (h : Represents (.ofMantissaAndAccuracy m a) (x / 2 ^ e)) (hBits : 2 ^ 52 ≤ m ∨ e ≤ -1074) :
    Canonical (roundWithAccuracy .binary64 s m e a) ∧ ∃ v, 0 ≤ v ∧ Rounds x v ∧
      unpackedReal? (roundWithAccuracy .binary64 s m e a) = some (signed s v) := by
  have hMantissa : (ExtendedMantissa.ofMantissaAndAccuracy m a).mantissa = m := by
    rcases a with _ | _ | _ | _ <;> rfl
  obtain ⟨hLow, hHigh⟩ := h.floor
  rw [hMantissa] at hLow hHigh
  have hPlace := lastPlace_target hLow hHigh fun hZero => by
    rcases hBits with hBits | hBits
    · simp [hZero] at hBits
    · exact hBits
  have hLe : e ≤ Format.binary64.targetExponent (totalExponent m e) := by
    rw [targetExponent_eq]
    rcases hBits with hBits | hBits
    · have hLog := (Nat.le_log2 (by omega)).mpr hBits
      omega
    · omega
  have hPos : 0 ≤ x := by
    have hScaled : 0 ≤ x / 2 ^ e := le_trans (Nat.cast_nonneg m) hLow
    rwa [le_div_iff₀ (two_zpow_pos e), zero_mul] at hScaled
  obtain ⟨t, ht⟩ : ∃ t, t = Format.binary64.targetExponent (totalExponent m e) := ⟨_, rfl⟩
  obtain ⟨k, hk⟩ : ∃ k : ℕ, k = (t - e).toNat := ⟨_, rfl⟩
  have hExponent : e + (k : ℤ) = t := by omega
  have hUnits := h.shiftRight k
  rw [div_div, ← zpow_natCast, ← zpow_add₀ (by norm_num), hExponent] at hUnits
  have hRound := hUnits.abs_roundedMantissa_sub_le
  have hSettle : roundWithAccuracy .binary64 s m e a =
      settle s ((ExtendedMantissa.ofMantissaAndAccuracy m a) >>> k).roundedMantissa t := by
    rw [← hExponent, hk, ht]
    rfl
  rw [← ht] at hPlace
  rw [hSettle]
  obtain ⟨hr, hFull⟩ := hPlace.mantissa hRound hPos
  obtain ⟨hCanonical, hReal⟩ := settle_spec s hr hPlace.least hFull
  exact ⟨hCanonical, _, mul_nonneg (Nat.cast_nonneg _) (two_zpow_pos t).le, hPlace.rounds hRound hUnits.even_roundedMantissa, hReal⟩

/-! ## What rounding preserves -/

/-- A number that needs no more than 53 bits; there is no greatest one. -/
def Representable (u : ℝ) : Prop := ∃ r e : ℤ, |r| ≤ 2 ^ 53 ∧ -1074 ≤ e ∧ u = r * 2 ^ e

theorem representable_intCast_mul {r e : ℤ} (hr : |r| ≤ 2 ^ 53) (he : -1074 ≤ e) :
    Representable (r * 2 ^ e) := ⟨r, e, hr, he, rfl⟩

theorem representable_intCast {r : ℤ} (hr : |r| ≤ 2 ^ 53) : Representable r :=
  ⟨r, 0, hr, by decide, by rw [zpow_zero, mul_one]⟩

theorem representable_two_zpow {e : ℤ} (he : -1074 ≤ e) : Representable (2 ^ e) :=
  ⟨1, e, by decide, he, by rw [Int.cast_one, one_mul]⟩

theorem representable_zero : Representable 0 := ⟨0, 0, by decide, by decide, by rw [Int.cast_zero, zero_mul]⟩

theorem Representable.neg {u : ℝ} (h : Representable u) : Representable (-u) := by
  obtain ⟨r, e, hr, he, rfl⟩ := h
  exact ⟨-r, e, by rwa [abs_neg], he, by rw [Int.cast_neg, neg_mul]⟩

namespace Rounds

variable {x v u : ℝ}

theorem neg (h : Rounds x v) : Rounds (-x) (-v) := by
  obtain ⟨t, r, hPlace, rfl, hNear, hEven⟩ := h
  refine ⟨t, -r, ⟨hPlace.least, by rw [abs_neg]; exact hPlace.lt, by rw [abs_neg]; exact hPlace.le⟩,
    by rw [Int.cast_neg, neg_mul], ?_, ?_⟩
  · rwa [neg_sub_neg, abs_sub_comm]
  · rw [neg_sub_neg, abs_sub_comm, even_neg]
    exact hEven

/-- A nearest multiple is not beyond any multiple that bounds the exact number. -/
theorem le_multiple {r k t : ℤ} (hNear : |(r : ℝ) * 2 ^ t - x| ≤ 2 ^ t / 2) (h : x ≤ k * 2 ^ t) :
    (r : ℝ) * 2 ^ t ≤ k * 2 ^ t := by
  have hPow := two_zpow_pos t
  have hUp := (abs_le.mp hNear).2
  have hUnits : (r : ℝ) * 2 ^ t < (k + 1) * 2 ^ t := by
    rw [add_mul, one_mul]
    linarith
  have hLt : (r : ℝ) < ((k + 1 : ℤ) : ℝ) := by
    push_cast
    exact lt_of_mul_lt_mul_right hUnits hPow.le
  have hLe : r ≤ k := Int.lt_add_one_iff.mp (Int.cast_lt.mp hLt)
  exact mul_le_mul_of_nonneg_right (Int.cast_le.mpr hLe) hPow.le

theorem le_of_le (h : Rounds x v) (hu : Representable u) (hxu : x ≤ u) : v ≤ u := by
  obtain ⟨t, r, hPlace, rfl, hNear, -⟩ := h
  obtain ⟨k, e, hk, he, rfl⟩ := hu
  rcases le_or_gt t e with hCoarse | hFine
  · have hMultiple : (k : ℝ) * 2 ^ e = ((k * 2 ^ (e - t).toNat : ℤ) : ℝ) * 2 ^ t := by
      push_cast
      rw [← zpow_natCast, mul_assoc, ← zpow_add₀ (by norm_num)]
      congr 2
      omega
    rw [hMultiple] at hxu ⊢
    exact le_multiple hNear hxu
  · -- the bound is finer than the last place, so it is smaller than the exact number
    have hLast := hPlace.le.resolve_right (by omega)
    have hSmall : |(k : ℝ) * 2 ^ e| ≤ 2 ^ (t + 52) := by
      rw [abs_mul, abs_of_pos (two_zpow_pos e)]
      have hCast : |(k : ℝ)| ≤ 2 ^ (53 : ℤ) := by exact_mod_cast hk
      calc |(k : ℝ)| * 2 ^ e ≤ 2 ^ (53 : ℤ) * 2 ^ e :=
            mul_le_mul_of_nonneg_right hCast (two_zpow_pos e).le
        _ = 2 ^ (53 + e) := (zpow_add₀ (by norm_num) _ _).symm
        _ ≤ 2 ^ (t + 52) := zpow_le_zpow_right₀ (by norm_num) (by omega)
    obtain ⟨hLow, hHigh⟩ := abs_le.mp hSmall
    have hPower : (2 : ℝ) ^ (t + 52) = ((2 ^ 52 : ℤ) : ℝ) * 2 ^ t := by
      rw [zpow_add₀ (by norm_num), mul_comm]
      norm_num
    rcases le_abs.mp hLast with hPos | hNeg
    · have hSame : (k : ℝ) * 2 ^ e = 2 ^ (t + 52) := le_antisymm hHigh (hPos.trans hxu)
      rw [hSame, hPower] at hxu ⊢
      exact le_multiple hNear hxu
    · have hBelow : x ≤ ((-2 ^ 52 : ℤ) : ℝ) * 2 ^ t := by
        rw [Int.cast_neg, neg_mul, ← hPower]
        linarith
      refine (le_multiple hNear hBelow).trans ?_
      rwa [Int.cast_neg, neg_mul, ← hPower]

theorem ge_of_ge (h : Rounds x v) (hu : Representable u) (hux : u ≤ x) : u ≤ v :=
  neg_le_neg_iff.mp (h.neg.le_of_le hu.neg (neg_le_neg hux))

/-- The error of rounding, relative to a bound of the exact number that is not too small. -/
theorem abs_sub_le (h : Rounds x v) {y : ℝ} (hx : |x| ≤ y) (hy : 2 ^ (-1022 : ℤ) ≤ y) :
    |v - x| ≤ y * 2 ^ (-53 : ℤ) := by
  obtain ⟨t, r, hPlace, rfl, hNear, -⟩ := h
  have hPower : (2 : ℝ) ^ (t + 52) ≤ y := by
    rcases hPlace.le with hLast | rfl
    · exact hLast.trans hx
    · exact hy
  calc |(r : ℝ) * 2 ^ t - x| ≤ 2 ^ t / 2 := hNear
    _ = 2 ^ (t + 52) * 2 ^ (-53 : ℤ) := by
      rw [← zpow_add₀ (by norm_num), div_eq_mul_inv, ← zpow_sub_one₀ (by norm_num)]
      congr 1
      omega
    _ ≤ y * 2 ^ (-53 : ℤ) := mul_le_mul_of_nonneg_right hPower (two_zpow_pos _).le

theorem lastPlace_le {t t' : ℤ} (h : LastPlace x t) (h' : LastPlace x t') : t ≤ t' := by
  rcases h.le with hFull | rfl
  · have hLess := (zpow_lt_zpow_iff_right₀ (show (1 : ℝ) < 2 by norm_num)).mp (hFull.trans_lt h'.lt)
    omega
  · exact h'.least

/-- Of two multiples that are near one number neither is the lesser one, unless both are even. -/
theorem multiple_le {r k t : ℤ} (hNear : |(r : ℝ) * 2 ^ t - x| ≤ 2 ^ t / 2) (hNear' : |(k : ℝ) * 2 ^ t - x| ≤ 2 ^ t / 2)
    (hEven : |(r : ℝ) * 2 ^ t - x| = 2 ^ t / 2 → Even r) (hEven' : |(k : ℝ) * 2 ^ t - x| = 2 ^ t / 2 → Even k) :
    r ≤ k := by
  have hPow := two_zpow_pos t
  obtain ⟨hLow, hHigh⟩ := abs_le.mp hNear
  obtain ⟨hLow', hHigh'⟩ := abs_le.mp hNear'
  by_contra hLess
  have hStep : (k : ℝ) + 1 ≤ r := by exact_mod_cast not_le.mp hLess
  have hApart : (k : ℝ) * 2 ^ t + 2 ^ t ≤ r * 2 ^ t := by
    linarith [mul_le_mul_of_nonneg_right hStep hPow.le]
  -- they are neighbours at equal distance, and one of two neighbours is odd
  have hUp : (r : ℝ) * 2 ^ t - x = 2 ^ t / 2 := by linarith
  have hDown : (k : ℝ) * 2 ^ t - x = -(2 ^ t / 2) := by linarith
  have hNext : (r : ℝ) = k + 1 := mul_right_cancel₀ hPow.ne' (by linarith)
  have hr := hEven (by rw [hUp, abs_of_pos (half_pos hPow)])
  have hk := hEven' (by rw [hDown, abs_neg, abs_of_pos (half_pos hPow)])
  rw [show r = k + 1 by exact_mod_cast hNext, Int.even_add_one] at hr
  exact hr hk

/-- A number rounds to one value only. -/
theorem unique {w : ℝ} (hv : Rounds x v) (hw : Rounds x w) : v = w := by
  obtain ⟨t, r, hPlace, rfl, hNear, hEven⟩ := hv
  obtain ⟨t', k, hPlace', rfl, hNear', hEven'⟩ := hw
  obtain rfl := le_antisymm (lastPlace_le hPlace hPlace') (lastPlace_le hPlace' hPlace)
  rw [le_antisymm (multiple_le hNear hNear' hEven hEven') (multiple_le hNear' hNear hEven' hEven)]

end Rounds

end TrackLayout.Binary64
