import Mathlib.Analysis.Real.Sqrt
import TrackLayout.Proofs.Binary64.Rounding

/-!
# Arithmetic

An operation on finite values gives the exact result rounded, or an infinite
value if the rounded result is beyond the finite ones.
-/
set_option autoImplicit false

namespace TrackLayout.Binary64

open Float.Model Float.Model.UnpackedFloat

theorem canonical (x : Float) : Canonical x.toModel.unpack := by
  change Canonical (UnpackedFloat.unpack _ _)
  rw [unpack_eq_ofFields]
  exact (ofFields_spec ..).1

/-! ## Signs -/

theorem signed_neg (s : Sign) (x : ℝ) : signed (-s) x = -signed s x := by
  cases s
  · exact (neg_neg x).symm
  · rfl

theorem abs_signed (s : Sign) (x : ℝ) : |signed s x| = |x| := by
  cases s
  · exact abs_neg x
  · rfl

theorem signed_mul (s r : Sign) (x y : ℝ) : signed (s * r) (x * y) = signed s x * signed r y := by
  cases s <;> cases r
  · exact (neg_mul_neg x y).symm
  · exact (neg_mul x y).symm
  · exact (mul_neg x y).symm
  · rfl

theorem signed_div (s r : Sign) (x y : ℝ) : signed (s / r) (x / y) = signed s x / signed r y := by
  cases s <;> cases r
  · exact (neg_div_neg_eq x y).symm
  · exact (neg_div y x).symm
  · exact (div_neg x).symm
  · rfl

theorem signed_intCast (s : Sign) (m : ℕ) : signed s (m : ℝ) = ((s.apply m : ℤ) : ℝ) := by
  cases s
  · exact (Int.cast_neg _).symm
  · rfl

theorem Rounds.signed {x v : ℝ} (s : Sign) (h : Rounds x v) : Rounds (signed s x) (signed s v) := by
  cases s
  · exact h.neg
  · exact h

/-! ## Values before they are stored -/

/-- The exact result of an operation is `x`, and its rounded result is the given value. -/
def Computes (u : UnpackedFloat) (x : ℝ) : Prop :=
  Canonical u ∧ ∃ v, Rounds x v ∧ unpackedReal? u = some v

/-- What needs no rounding. -/
theorem computes_self {u : UnpackedFloat} {v : ℝ} (hu : Canonical u) (hv : unpackedReal? u = some v) :
    Computes u v := by
  refine ⟨hu, v, ?_, hv⟩
  cases u with
  | infinity s => cases hv
  | notANumber => cases hv
  | zero s =>
    cases hv
    have hPlace : LastPlace (((0 : ℤ) : ℝ) * 2 ^ (-1074 : ℤ)) (-1074) := by
      rw [Int.cast_zero, zero_mul]
      exact ⟨le_refl _, by rw [abs_zero]; exact two_zpow_pos _, .inr rfl⟩
    simpa using hPlace.rounds_self
  | finite s m e hm =>
    cases hv
    obtain ⟨hLt, hLeast, hFull⟩ := hu
    have hPow := two_zpow_pos e
    have hPlace : LastPlace (((m : ℤ) : ℝ) * 2 ^ e) e := by
      rw [Int.cast_natCast]
      refine ⟨hLeast, ?_, hFull.imp ?_ id⟩
      · rw [abs_of_nonneg (by positivity), zpow_add₀ (by norm_num), mul_comm]
        exact mul_lt_mul_of_pos_left (by exact_mod_cast hLt) hPow
      · intro hLow
        rw [abs_of_nonneg (by positivity), zpow_add₀ (by norm_num), mul_comm]
        exact mul_le_mul_of_nonneg_right (by exact_mod_cast hLow) hPow.le
    have hSelf := hPlace.rounds_self
    rw [Int.cast_natCast] at hSelf
    exact hSelf.signed s

theorem computes_roundWithAccuracy {m : ℕ} {e : ℤ} {a : Accuracy} {x : ℝ} (s : Sign)
    (h : Represents (.ofMantissaAndAccuracy m a) (x / 2 ^ e)) (hBits : 2 ^ 52 ≤ m ∨ e ≤ -1074) :
    Computes (roundWithAccuracy .binary64 s m e a) (signed s x) := by
  obtain ⟨hCanonical, v, -, hRounds, hReal⟩ := exists_roundWithAccuracy s h hBits
  exact ⟨hCanonical, signed s v, hRounds.signed s, hReal⟩

/-- A shift by enough bits fills a mantissa. -/
theorem two_pow_log2_add_le {m : ℕ} (hm : m ≠ 0) (k : ℕ) : 2 ^ (m.log2 + k) ≤ m * 2 ^ k := by
  rw [Nat.pow_add]
  exact Nat.mul_le_mul_right _ (Nat.log2_self_le hm)

/-- Widening a mantissa to its target keeps the number and fills its bits. -/
theorem computes_round (s : Sign) {m : ℕ} (hm : 0 < m) (e : ℤ) :
    Computes (UnpackedFloat.round .binary64 s m e) (signed s (m * 2 ^ e)) := by
  have hTarget := targetExponent_eq m e
  rw [UnpackedFloat.round, decreaseExponent]
  dsimp only
  rw [hTarget]
  obtain ⟨k, hk⟩ : ∃ k : ℕ, k = (e - max (m.log2 + e - 52) (-1074)).toNat := ⟨_, rfl⟩
  rw [← hk]
  refine computes_roundWithAccuracy s ?_ ?_
  · change _ = _
    rw [div_eq_iff (two_zpow_pos _).ne']
    change _ = ((m <<< k : ℕ) : ℝ) * _
    rw [Nat.shiftLeft_eq, Nat.cast_mul, Nat.cast_pow, Nat.cast_two, mul_assoc, ← zpow_natCast,
      ← zpow_add₀ (by norm_num)]
    congr 2
    omega
  · by_cases hLeast : e - k ≤ -1074
    · exact .inr hLeast
    · left
      rw [Nat.shiftLeft_eq]
      exact (Nat.pow_le_pow_right (by decide) (by omega)).trans (two_pow_log2_add_le hm.ne' k)

theorem round_mantissa_zero (s : Sign) {e : ℤ} (he : -1074 ≤ e) : UnpackedFloat.round .binary64 s 0 e = .zero s := by
  have hLeast : -1074 ≤ e - ((e - max (((0 : ℕ).log2 : ℤ) + e - 52) (-1074)).toNat : ℤ) := by
    rw [Nat.log2_zero]
    omega
  have hNone := shiftToTargetExponent_small (r := 0) (by decide) hLeast
  rw [UnpackedFloat.round, decreaseExponent]
  dsimp only
  rw [targetExponent_eq, Nat.zero_shiftLeft, roundWithAccuracy, hNone]
  dsimp only
  rw [ExtendedMantissa.roundedMantissa]
  exact dif_pos (congrArg (fun p => p.1.mantissa) hNone)

theorem computes_normalize (n e : ℤ) (zero : Sign) :
    Computes (UnpackedFloat.normalize .binary64 n e zero) (n * 2 ^ e) := by
  rw [UnpackedFloat.normalize]
  split
  · next hLess =>
    have hNeg : n < 0 := compare_lt_iff_lt.mp hLess
    have hRound := computes_round .negative (m := (-n).toNat) (by omega) e
    have hValue : signed .negative (((-n).toNat : ℝ) * 2 ^ e) = n * 2 ^ e := by
      have hCast : (((-n).toNat : ℤ) : ℝ) = ((-n : ℤ) : ℝ) := congrArg _ (Int.toNat_of_nonneg (by omega))
      rw [Int.cast_natCast, Int.cast_neg] at hCast
      rw [signed, hCast, neg_mul, neg_neg]
    rwa [hValue] at hRound
  · next hEqual =>
    rw [compare_eq_iff_eq.mp hEqual, Int.cast_zero, zero_mul]
    exact computes_self trivial rfl
  · next hGreater =>
    have hPos : 0 < n := compare_gt_iff_gt.mp hGreater
    have hRound := computes_round .positive (m := n.toNat) (by omega) e
    have hValue : signed .positive ((n.toNat : ℝ) * 2 ^ e) = n * 2 ^ e := by
      have hCast : ((n.toNat : ℤ) : ℝ) = (n : ℝ) := congrArg _ (Int.toNat_of_nonneg (by omega))
      rw [Int.cast_natCast] at hCast
      rw [signed, hCast]
    rwa [hValue] at hRound

/-- A mantissa that is widened to a lesser exponent. -/
theorem shiftLeft_mul (m : ℕ) {e t : ℤ} (ht : t ≤ e) : ((m <<< (e - t).toNat : ℕ) : ℝ) * 2 ^ t = m * 2 ^ e := by
  rw [Nat.shiftLeft_eq, Nat.cast_mul, Nat.cast_pow, Nat.cast_two, mul_assoc, ← zpow_natCast,
    ← zpow_add₀ (by norm_num)]
  congr 2
  omega

theorem apply_shiftLeft_mul (s : Sign) (m : ℕ) {e t : ℤ} (ht : t ≤ e) :
    ((s.apply (m <<< (e - t).toNat : ℕ) : ℤ) : ℝ) * 2 ^ t = signed s (m * 2 ^ e) := by
  rw [← signed_intCast, ← shiftLeft_mul m ht]
  cases s
  · exact neg_mul _ _
  · rfl

variable {a b : UnpackedFloat} {v w : ℝ}

theorem computes_add (ha : Canonical a) (hb : Canonical b) (hv : unpackedReal? a = some v)
    (hw : unpackedReal? b = some w) : Computes (UnpackedFloat.add .binary64 a b) (v + w) := by
  cases a with
  | infinity s => cases hv
  | notANumber => cases hv
  | zero s =>
    cases hv
    rw [zero_add]
    cases b with
    | infinity r => cases hw
    | notANumber => cases hw
    | zero r =>
      cases hw
      rw [UnpackedFloat.add]
      split
      · exact computes_self trivial rfl
      · exact computes_self trivial rfl
    | finite r n f hn => exact computes_self hb hw
  | finite s m e hm =>
    cases b with
    | infinity r => cases hw
    | notANumber => cases hw
    | zero r =>
      cases hw
      rw [add_zero]
      exact computes_self ha hv
    | finite r n f hn =>
      cases hv
      cases hw
      have hNormalize := computes_normalize
        (s.apply (m <<< (e - min e f).toNat : ℕ) + r.apply (n <<< (f - min e f).toNat : ℕ)) (min e f) .positive
      rw [Int.cast_add, add_mul, apply_shiftLeft_mul _ _ (min_le_left e f),
        apply_shiftLeft_mul _ _ (min_le_right e f)] at hNormalize
      exact hNormalize

theorem canonical_neg (ha : Canonical a) : Canonical a.neg := by
  cases a <;> exact ha

theorem unpackedReal?_neg (hv : unpackedReal? a = some v) : unpackedReal? a.neg = some (-v) := by
  cases a with
  | infinity s => cases hv
  | notANumber => cases hv
  | zero s =>
    cases hv
    exact congrArg some neg_zero.symm
  | finite s m e hm =>
    cases hv
    exact congrArg some (signed_neg s _)

theorem sub_eq_add (a b : UnpackedFloat) :
    UnpackedFloat.sub .binary64 a b = UnpackedFloat.add .binary64 a b.neg := by
  cases a <;> cases b <;> try rfl
  next s m e hm r n f hn =>
    have hApply (i : ℤ) : (-r).apply i = -r.apply i := by
      cases r
      · exact (neg_neg i).symm
      · rfl
    change UnpackedFloat.normalize _ (_ - _) _ _ = UnpackedFloat.normalize _ (_ + (-r).apply _) _ _
    rw [hApply]
    rfl

theorem computes_sub (ha : Canonical a) (hb : Canonical b) (hv : unpackedReal? a = some v)
    (hw : unpackedReal? b = some w) : Computes (UnpackedFloat.sub .binary64 a b) (v - w) := by
  rw [sub_eq_add, sub_eq_add_neg]
  exact computes_add ha (canonical_neg hb) hv (unpackedReal?_neg hw)

/-- A product of two mantissas has enough bits unless its exponent is below the least one. -/
theorem computes_mul (ha : Canonical a) (hb : Canonical b) (hv : unpackedReal? a = some v)
    (hw : unpackedReal? b = some w) : Computes (UnpackedFloat.mul .binary64 a b) (v * w) := by
  cases a with
  | infinity s => cases hv
  | notANumber => cases hv
  | zero s =>
    cases hv
    rw [zero_mul]
    cases b with
    | infinity r => cases hw
    | notANumber => cases hw
    | zero r => exact computes_self trivial rfl
    | finite r n f hn => exact computes_self trivial rfl
  | finite s m e hm =>
    cases b with
    | infinity r => cases hw
    | notANumber => cases hw
    | zero r =>
      cases hw
      rw [mul_zero]
      exact computes_self trivial rfl
    | finite r n f hn =>
      cases hv
      cases hw
      obtain ⟨-, hLeft, hLeftBits⟩ := ha
      obtain ⟨-, hRight, hRightBits⟩ := hb
      rw [← signed_mul]
      refine computes_roundWithAccuracy (s * r) ?_ ?_
      · change _ = _
        rw [div_eq_iff (two_zpow_pos _).ne']
        change _ = ((m * n : ℕ) : ℝ) * _
        rw [zpow_add₀ (by norm_num)]
        push_cast
        ring
      · rcases hLeftBits with hFull | rfl
        · exact .inl (le_trans hFull (Nat.le_mul_of_pos_right m hn))
        · rcases hRightBits with hFull | rfl
          · exact .inl (le_trans hFull (Nat.le_mul_of_pos_left n hm))
          · exact .inr (by decide)

theorem represents_fraction (p : ℕ) {q : ℕ} (hq : 0 < q) :
    Represents (.ofMantissaAndAccuracy (p / q) (accuracyOfFraction (p % q) q)) ((p : ℝ) / q) := by
  have hPos : (0 : ℝ) < q := Nat.cast_pos.mpr hq
  have hRest : (p : ℝ) / q = (p / q : ℕ) + ((p % q : ℕ) : ℝ) / q := by
    rw [div_eq_iff hPos.ne', add_mul, div_mul_cancel₀ _ hPos.ne', mul_comm]
    exact_mod_cast (Nat.div_add_mod p q).symm
  have hLt : ((p % q : ℕ) : ℝ) < q := Nat.cast_lt.mpr (Nat.mod_lt p hq)
  rw [accuracyOfFraction, hRest]
  generalize p / q = n
  generalize p % q = r at hLt
  split
  · next hZero =>
    rw [hZero, Nat.cast_zero, zero_div, add_zero]
    change (n : ℝ) = n
    rfl
  · next hZero =>
    have hSome : 0 < (r : ℝ) / q := div_pos (Nat.cast_pos.mpr (Nat.pos_of_ne_zero hZero)) hPos
    have hOne : (r : ℝ) / q < 1 := (div_lt_one hPos).mpr hLt
    cases hCompare : compare (2 * r) q with
    | lt =>
      have hHalf : ((2 * r : ℕ) : ℝ) < q := Nat.cast_lt.mpr (compare_lt_iff_lt.mp hCompare)
      have hBelow : (r : ℝ) / q < 1 / 2 := by
        rw [div_lt_iff₀ hPos]
        push_cast at hHalf
        linarith
      change (n : ℝ) < _ ∧ _ < (n : ℝ) + 1 / 2
      constructor <;> linarith
    | eq =>
      have hHalf : ((2 * r : ℕ) : ℝ) = q := congrArg _ (compare_eq_iff_eq.mp hCompare)
      change _ = (n : ℝ) + 1 / 2
      rw [add_right_inj, div_eq_iff hPos.ne']
      push_cast at hHalf
      linarith
    | gt =>
      have hHalf : (q : ℝ) < ((2 * r : ℕ) : ℝ) := Nat.cast_lt.mpr (compare_gt_iff_gt.mp hCompare)
      have hAbove : 1 / 2 < (r : ℝ) / q := by
        rw [lt_div_iff₀ hPos]
        push_cast at hHalf
        linarith
      change (n : ℝ) + 1 / 2 < _ ∧ _ < (n : ℝ) + 1
      constructor <;> linarith

theorem targetExponent_add_one (x : ℤ) : Format.binary64.targetExponent (x + 1) = max (x - 52) (-1074) := by
  change max (x + 1 - ((53 : ℕ) : ℤ)) (-1074) = _
  congr 1
  omega

/-- A quotient of values in units of `2 ^ t` is a quotient of mantissas, one of them shifted. -/
theorem quotient_units {m n k : ℕ} {e f t : ℤ} (hn : 0 < n) (hk : e = k + (f + t)) :
    (m : ℝ) * 2 ^ e / (n * 2 ^ f) / 2 ^ t = ((m * 2 ^ k : ℕ) : ℝ) / n := by
  have hn' : (0 : ℝ) < n := Nat.cast_pos.mpr hn
  rw [div_div, div_eq_div_iff (mul_pos (mul_pos hn' (two_zpow_pos f)) (two_zpow_pos t)).ne' hn'.ne', hk,
    zpow_add₀ (by norm_num), zpow_add₀ (by norm_num), zpow_natCast]
  push_cast
  ring

/-- A quotient has enough bits if its numerator has as many more than its denominator. -/
theorem two_pow_le_quotient {m n k : ℕ} (hm : m ≠ 0) (hn : 0 < n) (hk : 53 + n.log2 ≤ m.log2 + k) :
    2 ^ 52 ≤ m * 2 ^ k / n := by
  have hHigh : n < 2 ^ (n.log2 + 1) := Nat.lt_log2_self
  rw [Nat.le_div_iff_mul_le hn]
  calc 2 ^ 52 * n ≤ 2 ^ 52 * 2 ^ (n.log2 + 1) := Nat.mul_le_mul_left _ hHigh.le
    _ = 2 ^ (53 + n.log2) := by rw [← Nat.pow_add]; congr 1; omega
    _ ≤ 2 ^ (m.log2 + k) := Nat.pow_le_pow_right (by decide) hk
    _ ≤ m * 2 ^ k := two_pow_log2_add_le hm k

/-- A quotient of any two mantissas is computed with enough bits. -/
theorem computes_quotient (s r : Sign) {m n : ℕ} (hm : 0 < m) (hn : 0 < n) (e f : ℤ) :
    Computes (UnpackedFloat.div .binary64 (.finite s m e hm) (.finite r n f hn))
      (signed s (m * 2 ^ e) / signed r (n * 2 ^ f)) := by
  have hTarget : totalExponent m e - totalExponent n f = (m.log2 + e - (n.log2 + f) - 1) + 1 := by
    rw [totalExponent, totalExponent]
    omega
  rw [← signed_div]
  change Computes (roundWithAccuracy _ _ _ _ _) _
  rw [hTarget, targetExponent_add_one]
  obtain ⟨t, ht⟩ : ∃ t, t = min (e - f) (max (m.log2 + e - (n.log2 + f) - 1 - 52) (-1074)) := ⟨_, rfl⟩
  rw [← ht]
  obtain ⟨k, hk⟩ : ∃ k : ℕ, k = (e - f - t).toNat := ⟨_, rfl⟩
  rw [← hk, Nat.shiftLeft_eq]
  have hUnits : e = k + (f + t) := by omega
  refine computes_roundWithAccuracy _ ?_ ?_
  · rw [quotient_units hn hUnits]
    exact represents_fraction _ hn
  · by_cases hLeast : t ≤ -1074
    · exact .inr hLeast
    · exact .inl (two_pow_le_quotient hm.ne' hn (by omega))

theorem computes_div (hv : unpackedReal? a = some v) (hw : unpackedReal? b = some w) (hZero : w ≠ 0) :
    Computes (UnpackedFloat.div .binary64 a b) (v / w) := by
  cases a with
  | infinity s => cases hv
  | notANumber => cases hv
  | zero s =>
    cases hv
    rw [zero_div]
    cases b with
    | infinity r => cases hw
    | notANumber => cases hw
    | zero r =>
      cases hw
      exact absurd rfl hZero
    | finite r n f hn => exact computes_self trivial rfl
  | finite s m e hm =>
    cases b with
    | infinity r => cases hw
    | notANumber => cases hw
    | zero r =>
      cases hw
      exact absurd rfl hZero
    | finite r n f hn =>
      cases hv
      cases hw
      exact computes_quotient s r hm hn e f

theorem represents_sqrt (p : ℕ) : Represents (.ofMantissaAndAccuracy p.sqrt
    (if p - p.sqrt * p.sqrt = 0 then .exact
      else .inexact (if p - p.sqrt * p.sqrt ≤ p.sqrt then .lt else .gt))) √p := by
  have hLow := Nat.sqrt_le p
  have hHigh := Nat.lt_succ_sqrt p
  generalize p.sqrt = n at hLow hHigh
  obtain ⟨r, rfl⟩ := Nat.exists_eq_add_of_le hLow
  have hn : (0 : ℝ) ≤ n := Nat.cast_nonneg n
  have hRest : r < 2 * n + 1 := by
    rw [Nat.succ_eq_add_one] at hHigh
    nlinarith
  rw [Nat.add_sub_cancel_left]
  push_cast
  split
  · next hZero =>
    rw [hZero, Nat.cast_zero, add_zero, Real.sqrt_mul_self hn]
    change (n : ℝ) = n
    rfl
  · next hZero =>
    have hSome : (1 : ℝ) ≤ r := by exact_mod_cast Nat.pos_of_ne_zero hZero
    have hAbove : (n : ℝ) < √(n * n + r) := by
      rw [Real.lt_sqrt hn]
      linarith
    split
    · next hHalf =>
      have hCast : (r : ℝ) ≤ n := by exact_mod_cast hHalf
      have hBelow : √((n : ℝ) * n + r) < n + 1 / 2 := by
        rw [Real.sqrt_lt' (by linarith)]
        linarith
      exact ⟨hAbove, hBelow⟩
    · next hHalf =>
      have hCast : (n : ℝ) + 1 ≤ r := by exact_mod_cast Nat.lt_of_not_le hHalf
      have hLast : (r : ℝ) + 1 ≤ 2 * n + 1 := by exact_mod_cast hRest
      have hBetween : (n : ℝ) + 1 / 2 < √(n * n + r) := by
        rw [Real.lt_sqrt (by linarith)]
        linarith
      have hBelow : √((n : ℝ) * n + r) < n + 1 := by
        rw [Real.sqrt_lt' (by linarith)]
        linarith
      exact ⟨hBetween, hBelow⟩

/-- A root in units of `2 ^ t` is the root of a shifted mantissa. -/
theorem sqrt_units {m k : ℕ} {e t : ℤ} (hk : e = k + (t + t)) :
    √((m : ℝ) * 2 ^ e) / 2 ^ t = √((m * 2 ^ k : ℕ) : ℝ) := by
  have hSquare : (m : ℝ) * 2 ^ e = ((m * 2 ^ k : ℕ) : ℝ) * (2 ^ t * 2 ^ t) := by
    rw [hk, zpow_add₀ (by norm_num), zpow_add₀ (by norm_num), zpow_natCast]
    push_cast
    ring
  rw [hSquare, Real.sqrt_mul (Nat.cast_nonneg _), Real.sqrt_mul_self (two_zpow_pos t).le,
    mul_div_cancel_right₀ _ (two_zpow_pos t).ne']

theorem computes_sqrt (ha : Canonical a) (hv : unpackedReal? a = some v) (hPos : 0 ≤ v) :
    Computes (UnpackedFloat.sqrt .binary64 a) √v := by
  cases a with
  | infinity s => cases hv
  | notANumber => cases hv
  | zero s =>
    cases hv
    rw [Real.sqrt_zero]
    cases s <;> exact computes_self trivial rfl
  | finite s m e hm =>
    cases hv
    have hm' : (0 : ℝ) < m := Nat.cast_pos.mpr hm
    cases s with
    | negative => exact absurd hPos (not_le.mpr (neg_lt_zero.mpr (mul_pos hm' (two_zpow_pos e))))
    | positive =>
      have hTarget : (totalExponent m e + 1).ediv 2 = (m.log2 + e) / 2 + 1 := by
        change (totalExponent m e + 1) / 2 = _
        rw [totalExponent]
        omega
      change Computes (roundWithAccuracy _ _ _ _ _) _
      rw [hTarget, targetExponent_add_one]
      change Computes (roundWithAccuracy _ .positive _ _ _) (signed .positive √(m * 2 ^ e))
      obtain ⟨t, ht⟩ : ∃ t, t = min (e.ediv 2) (max ((m.log2 + e) / 2 - 52) (-1074)) := ⟨_, rfl⟩
      rw [← ht]
      have hHalf : t ≤ e / 2 := by
        rw [ht]
        exact min_le_left _ _
      obtain ⟨k, hk⟩ : ∃ k : ℕ, k = (e - 2 * t).toNat := ⟨_, rfl⟩
      rw [← hk, Nat.shiftLeft_eq]
      have hUnits : e = k + (t + t) := by omega
      refine computes_roundWithAccuracy _ ?_ ?_
      · rw [sqrt_units hUnits]
        exact represents_sqrt _
      · by_cases hLeast : t ≤ -1074
        · exact .inr hLeast
        · left
          rw [Nat.le_sqrt]
          calc 2 ^ 52 * 2 ^ 52 = 2 ^ 104 := by norm_num
            _ ≤ 2 ^ (m.log2 + k) := Nat.pow_le_pow_right (by decide) (by omega)
            _ ≤ m * 2 ^ k := two_pow_log2_add_le hm.ne' k

end TrackLayout.Binary64
