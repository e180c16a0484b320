import TrackLayout.Proofs.Binary64.Numbers

/-!
# Values that are not finite

What becomes of infinite values and of those that are not numbers. A sum of
amounts, which are numbers from zero on and positive infinity, is an amount. A
sum with one unbounded part is below nothing.
-/
set_option autoImplicit false

namespace TrackLayout.Binary64

open Float.Model Float.Model.UnpackedFloat

/-! ## Operations on any values -/

section Unpacked

variable {a b : UnpackedFloat}

theorem canonical_add (ha : Canonical a) (hb : Canonical b) : Canonical (UnpackedFloat.add .binary64 a b) := by
  cases a <;> cases b <;> first
    | exact (computes_add ha hb rfl rfl).1
    | trivial
    | rw [UnpackedFloat.add]; split <;> trivial

theorem canonical_mul (ha : Canonical a) (hb : Canonical b) : Canonical (UnpackedFloat.mul .binary64 a b) := by
  cases a <;> cases b <;> first
    | exact (computes_mul ha hb rfl rfl).1
    | trivial

theorem canonical_div : Canonical (UnpackedFloat.div .binary64 a b) := by
  cases b with
  | finite s m e hm =>
    have hNonzero : signed s ((m : ℝ) * 2 ^ e) ≠ 0 := by
      rw [← abs_ne_zero, abs_signed, abs_ne_zero]
      exact (mul_pos (Nat.cast_pos.mpr hm) (two_zpow_pos e)).ne'
    cases a with
    | infinity r => trivial
    | notANumber => trivial
    | _ => exact (computes_div rfl rfl hNonzero).1
  | _ => cases a <;> trivial

end Unpacked

variable {x y : Float}

theorem unpack_add (x y : Float) :
    (x + y).toModel.unpack = clamp (UnpackedFloat.add .binary64 x.toModel.unpack y.toModel.unpack) :=
  unpack_pack (canonical_add (canonical x) (canonical y))

theorem unpack_sub (x y : Float) : (x - y).toModel.unpack =
    clamp (UnpackedFloat.add .binary64 x.toModel.unpack y.toModel.unpack.neg) := by
  rw [← sub_eq_add]
  refine unpack_pack ?_
  rw [sub_eq_add]
  exact canonical_add (canonical x) (canonical_neg (canonical y))

theorem unpack_mul (x y : Float) :
    (x * y).toModel.unpack = clamp (UnpackedFloat.mul .binary64 x.toModel.unpack y.toModel.unpack) :=
  unpack_pack (canonical_mul (canonical x) (canonical y))

theorem unpack_div (x y : Float) :
    (x / y).toModel.unpack = clamp (UnpackedFloat.div .binary64 x.toModel.unpack y.toModel.unpack) :=
  unpack_pack canonical_div

/-! ### Finite results -/

namespace Denotes

variable {b c : ℝ}

theorem of_add (h : Denotes (x + y) c) : (∃ a, Denotes x a) ∧ ∃ b, Denotes y b := by
  rw [Denotes, unpack_add] at h
  simp only [Denotes, ← Option.isSome_iff_exists]
  generalize x.toModel.unpack = u at h
  generalize y.toModel.unpack = w at h
  rcases u with ⟨_ | _⟩ | _ | _ | _ <;> rcases w with ⟨_ | _⟩ | _ | _ | _ <;> first
    | exact ⟨rfl, rfl⟩
    | cases h

theorem of_sub (h : Denotes (x - y) c) : (∃ a, Denotes x a) ∧ ∃ b, Denotes y b := by
  rw [Denotes, unpack_sub] at h
  simp only [Denotes, ← Option.isSome_iff_exists]
  generalize x.toModel.unpack = u at h
  generalize y.toModel.unpack = w at h
  rcases u with ⟨_ | _⟩ | _ | _ | _ <;> rcases w with ⟨_ | _⟩ | _ | _ | _ <;> first
    | exact ⟨rfl, rfl⟩
    | cases h

theorem of_mul (h : Denotes (x * y) c) : (∃ a, Denotes x a) ∧ ∃ b, Denotes y b := by
  rw [Denotes, unpack_mul] at h
  simp only [Denotes, ← Option.isSome_iff_exists]
  generalize x.toModel.unpack = u at h
  generalize y.toModel.unpack = w at h
  rcases u with _ | _ | _ | _ <;> rcases w with _ | _ | _ | _ <;> first
    | exact ⟨rfl, rfl⟩
    | cases h

theorem of_div (h : Denotes (x / y) c) : ∃ a, Denotes x a := by
  rw [Denotes, unpack_div] at h
  simp only [Denotes, ← Option.isSome_iff_exists]
  generalize x.toModel.unpack = u at h
  generalize y.toModel.unpack = w at h
  rcases u with _ | _ | _ | _ <;> rcases w with _ | _ | _ | _ <;> first
    | rfl
    | cases h

theorem ne_zero_of_div (h : Denotes (x / y) c) (hy : Denotes y b) : b ≠ 0 := by
  rintro rfl
  obtain ⟨-, s, hZero⟩ | ⟨s, m, e, hm, -, hValue⟩ := hy.unpack_cases
  · rw [Denotes, unpack_div, hZero] at h
    generalize x.toModel.unpack = u at h
    rcases u with _ | _ | _ | _ <;> cases h
  · have hSize := abs_signed s ((m : ℝ) * 2 ^ e)
    rw [← hValue, abs_zero, abs_of_pos (mul_pos (Nat.cast_pos.mpr hm) (two_zpow_pos e))] at hSize
    exact (mul_pos (Nat.cast_pos.mpr hm) (two_zpow_pos e)).ne hSize

end Denotes

theorem Denotes.abs_lt {v : ℝ} (h : Denotes x v) : |v| < 2 ^ (1024 : ℤ) := by
  have hCanonical := canonical x
  have hClamp := clamp_unpack x
  obtain ⟨rfl, -⟩ | ⟨s, m, e, hm, hUnpack, rfl⟩ := h.unpack_cases
  · rw [abs_zero]
    exact two_zpow_pos _
  · rw [hUnpack] at hCanonical hClamp
    rw [abs_signed, abs_of_nonneg (mul_nonneg (Nat.cast_nonneg m) (two_zpow_pos e).le)]
    have hLess := magnitude_lt (n := 2 ^ 52) (f := 972) hCanonical.1 (.inl le_rfl) hCanonical.2.1
      (.inl (by have := exponent_le_of_clamp hClamp; omega))
    refine hLess.trans_eq ?_
    rw [Nat.cast_pow, Nat.cast_two, ← zpow_natCast, ← zpow_add₀ (by norm_num)]
    rfl

/-- What rounds to a number that does not overflow is stored as that number. -/
theorem Nearest.denotes_of_rounds {z : Float} {r v : ℝ} (h : Nearest z r) (hRounds : Rounds r v)
    (hSize : |v| < 2 ^ (1024 : ℤ)) : Denotes z v := by
  cases h with
  | finite w hNear hValue => rwa [← hNear.unique hRounds]
  | overflow s w hNear hBeyond hValue =>
    rw [hNear.unique hRounds] at hBeyond
    have hLess := ((le_abs_self (signed s v)).trans_eq (abs_signed s v)).trans_lt hSize
    exact absurd hBeyond (not_le.mpr hLess)

theorem Denotes.representable {v : ℝ} (h : Denotes x v) : Representable v := by
  have hCanonical := canonical x
  obtain ⟨rfl, -⟩ | ⟨s, m, e, hm, hUnpack, rfl⟩ := h.unpack_cases
  · exact representable_zero
  · rw [hUnpack] at hCanonical
    have hBits : |(m : ℤ)| ≤ 2 ^ 53 := by
      rw [Nat.abs_cast]
      exact_mod_cast hCanonical.1.le
    have hValue : Representable ((m : ℝ) * 2 ^ e) :=
      ⟨m, e, hBits, hCanonical.2.1, by rw [Int.cast_natCast]⟩
    cases s
    · exact hValue.neg
    · exact hValue

/-- Rounding does not leave the range between two values. -/
theorem Nearest.inside_of_denotes {z : Float} {r a b : ℝ} (h : Nearest z r) (hx : Denotes x a) (hy : Denotes y b)
    (hLow : a ≤ r) (hHigh : r ≤ b) : Inside z a b := by
  cases h with
  | finite v hRounds hValue =>
    exact ⟨v, hValue, hRounds.ge_of_ge hx.representable hLow, hRounds.le_of_le hy.representable hHigh⟩
  | overflow s v hRounds hBeyond hValue =>
    have hAbove := hRounds.ge_of_ge hx.representable hLow
    have hBelow := hRounds.le_of_le hy.representable hHigh
    cases s
    · have hLeast := (abs_lt.mp hx.abs_lt).1
      exact absurd (neg_lt.mp (hLeast.trans_le hAbove)) (not_lt.mpr hBeyond)
    · have hGreatest := (abs_lt.mp hy.abs_lt).2
      exact absurd (hBelow.trans_lt hGreatest) (not_lt.mpr hBeyond)

/-- What is left of a weight at a distance within a limit. -/
theorem inside_tapered {w : Float} {a b c : ℝ} (hx : Denotes x a) (hy : Denotes y b) (hw : Denotes w c)
    (hBound : x.abs ≤ y) (hPos : 0 < b) (hWeight : 0 ≤ c) : Inside ((1.0 - (x / y).abs) * w) 0 c := by
  have hShare : |a / b| ≤ 1 := by
    rw [abs_div, abs_of_pos hPos]
    exact (div_le_one hPos).mpr ((hx.abs.le_iff hy).mp hBound)
  obtain ⟨q, hq, hqShare⟩ : ∃ q, Denotes (x / y) q ∧ |q| ≤ 1 := by
    obtain ⟨hLow, hHigh⟩ := abs_le.mp hShare
    obtain ⟨q, hq, hqLow, hqHigh⟩ := (hx.div hy hPos.ne').inside_of_denotes denotes_one.neg denotes_one hLow hHigh
    exact ⟨q, hq, abs_le.mpr ⟨hqLow, hqHigh⟩⟩
  obtain ⟨l, hl, hlLow, hlHigh⟩ := (denotes_one.sub hq.abs).inside_of_denotes denotes_zero denotes_one
    (sub_nonneg.mpr hqShare) (sub_le_self 1 (abs_nonneg q))
  exact (hl.mul hw).inside_of_denotes denotes_zero hw (mul_nonneg hlLow hWeight) (mul_le_of_le_one_left hWeight hlHigh)

/-! ### Numbers -/

theorem Nearest.isNaN {r : ℝ} (h : Nearest x r) : x.isNaN = false := by
  cases h with
  | finite v hRounds hValue => exact hValue.isNaN
  | overflow s v hRounds hBeyond hValue =>
    change x.toModel.unpack.isNaN = false
    rw [hValue]
    rfl

theorem denotes_or_infinity (h : x.isNaN = false) :
    (∃ v, Denotes x v) ∨ ∃ s, x.toModel.unpack = .infinity s := by
  change x.toModel.unpack.isNaN = false at h
  cases hUnpack : x.toModel.unpack with
  | notANumber =>
    rw [hUnpack] at h
    cases h
  | infinity s => exact .inr ⟨s, rfl⟩
  | zero s => exact .inl ⟨0, by rw [Denotes, hUnpack]; rfl⟩
  | finite s m e hm => exact .inl ⟨signed s (m * 2 ^ e), by rw [Denotes, hUnpack]; rfl⟩

/-- No infinity is as small as a finite value. -/
theorem denotes_of_abs_le {y : Float} {w : ℝ} (hy : Denotes y w) (h : x.abs ≤ y) : ∃ v, Denotes x v := by
  obtain ⟨⟨hAbs, -⟩, hPlace⟩ := le_iff.mp h
  rw [unpack_abs] at hPlace
  have hNumber : x.isNaN = false := by
    change x.abs.toModel.unpack.isNaN = false at hAbs
    change x.toModel.unpack.isNaN = false
    rw [unpack_abs] at hAbs
    cases hUnpack : x.toModel.unpack with
    | notANumber =>
      rw [hUnpack] at hAbs
      cases hAbs
    | _ => rfl
  obtain hFinite | ⟨s, hInfinite⟩ := denotes_or_infinity hNumber
  · exact hFinite
  · rw [hInfinite] at hPlace
    rw [Denotes] at hy
    generalize y.toModel.unpack = u at hy hPlace
    rcases u with ⟨_ | _⟩ | _ | _ | ⟨_ | _, m, e, hm⟩ <;> first
      | simp [UnpackedFloat.abs, place, Prod.Lex.toLex_le_toLex] at hPlace; done
      | cases hy

theorem isNaN_of_infinity {s : Sign} (h : x.toModel.unpack = .infinity s) : x.isNaN = false := by
  change x.toModel.unpack.isNaN = false
  rw [h]
  rfl

variable {b : ℝ}

theorem infinity_sub {s : Sign} (hx : x.toModel.unpack = .infinity s) (hy : Denotes y b) :
    (x - y).toModel.unpack = .infinity s := by
  rw [unpack_sub, hx]
  obtain ⟨-, r, h⟩ | ⟨r, m, e, hm, h, -⟩ := hy.unpack_cases <;> rw [h] <;> rfl

theorem isNaN_sub (hx : x.isNaN = false) (hy : Denotes y b) : (x - y).isNaN = false := by
  rcases denotes_or_infinity hx with ⟨a, ha⟩ | ⟨s, hs⟩
  · exact (ha.sub hy).isNaN
  · exact isNaN_of_infinity (infinity_sub hs hy)

/-- The sign of a value other than zero. -/
theorem unpack_of_pos (hy : Denotes y b) (hPos : 0 < b) :
    ∃ m e hm, y.toModel.unpack = .finite .positive m e hm := by
  obtain ⟨s, m, e, hm, h, rfl⟩ := hy.unpack_cases.resolve_left fun h => hPos.ne' h.1
  cases s with
  | negative =>
    exact absurd hPos (not_lt.mpr (neg_nonpos.mpr (mul_nonneg (Nat.cast_nonneg m) (two_zpow_pos e).le)))
  | positive => exact ⟨m, e, hm, h⟩

theorem infinity_div {s : Sign} (hx : x.toModel.unpack = .infinity s) (hy : Denotes y b) (hPos : 0 < b) :
    (x / y).toModel.unpack = .infinity s := by
  obtain ⟨m, e, hm, hUnpack⟩ := unpack_of_pos hy hPos
  rw [unpack_div, hx, hUnpack]
  cases s <;> rfl

theorem isNaN_div (hx : x.isNaN = false) (hy : Denotes y b) (hPos : 0 < b) : (x / y).isNaN = false := by
  rcases denotes_or_infinity hx with ⟨a, ha⟩ | ⟨s, hs⟩
  · exact (ha.div hy hPos.ne').isNaN
  · exact isNaN_of_infinity (infinity_div hs hy hPos)

theorem isNaN_mul_of_isNaN (h : x.isNaN = true) (y : Float) : (x * y).isNaN = true := by
  change x.toModel.unpack.isNaN = true at h
  change (x * y).toModel.unpack.isNaN = true
  rw [unpack_mul]
  cases hUnpack : x.toModel.unpack with
  | notANumber => cases y.toModel.unpack <;> rfl
  | _ =>
    rw [hUnpack] at h
    cases h

theorem isNaN_sub_of_isNaN (h : x.isNaN = true ∨ y.isNaN = true) : (x - y).isNaN = true := by
  change x.toModel.unpack.isNaN = true ∨ y.toModel.unpack.isNaN = true at h
  change (x - y).toModel.unpack.isNaN = true
  rw [unpack_sub]
  generalize x.toModel.unpack = u at h
  generalize y.toModel.unpack = w at h
  rcases h with h | h
  · cases u with
    | notANumber => rfl
    | _ => cases h
  · cases w with
    | notANumber => cases u <;> rfl
    | _ => cases h

theorem not_lt_of_isNaN (h : x.isNaN = true ∨ y.isNaN = true) : ¬x < y := by
  rw [lt_iff]
  rintro ⟨⟨hx, hy⟩, -⟩
  rcases h with h | h
  · rw [hx] at h
    cases h
  · rw [hy] at h
    cases h

theorem zero_lt_of_infinity (h : x.toModel.unpack = .infinity .positive) : 0.0 < x := by
  refine lt_iff.mpr ⟨⟨rfl, isNaN_of_infinity h⟩, ?_⟩
  rw [h]
  exact Prod.Lex.toLex_lt_toLex.mpr (.inl (by decide))

/-! ## Amounts -/

/-- A number from zero on, or positive infinity. -/
def Amount (x : Float) : Prop := (∃ v, Denotes x v ∧ 0 ≤ v) ∨ x.toModel.unpack = .infinity .positive

theorem Amount.isNaN (h : Amount x) : x.isNaN = false := by
  rcases h with ⟨v, hv, -⟩ | h
  · exact hv.isNaN
  · exact isNaN_of_infinity h

theorem Nearest.amount {r : ℝ} (h : Nearest x r) (hr : 0 ≤ r) : Amount x := by
  cases h with
  | finite v hRounds hValue => exact .inl ⟨v, hValue, hRounds.ge_of_ge representable_zero hr⟩
  | overflow s v hRounds hBeyond hValue =>
    have hPos := hRounds.ge_of_ge representable_zero hr
    cases s with
    | negative => exact absurd (hBeyond.trans (neg_nonpos.mpr hPos)) (not_le.mpr (two_zpow_pos 1024))
    | positive => exact .inr hValue

namespace Amount

theorem add (hx : Amount x) (hy : Amount y) : Amount (x + y) := by
  rcases hx with ⟨a, ha, hPos⟩ | hx
  · rcases hy with ⟨b, hb, hPos'⟩ | hy
    · exact (ha.add hb).amount (add_nonneg hPos hPos')
    · right
      rw [unpack_add, hy]
      obtain ⟨-, s, h⟩ | ⟨s, m, e, hm, h, -⟩ := ha.unpack_cases <;> rw [h] <;> rfl
  · right
    rw [unpack_add, hx]
    rcases hy with ⟨b, hb, -⟩ | hy
    · obtain ⟨-, s, h⟩ | ⟨s, m, e, hm, h, -⟩ := hb.unpack_cases <;> rw [h] <;> rfl
    · rw [hy]
      rfl

/-- A sum is positive if one part is and the other is an amount. -/
theorem zero_lt_add {a : ℝ} (hx : Denotes x a) (hPos : 0 < a) (hy : Amount y) : 0.0 < x + y := by
  have hZero : Denotes (0.0 : Float) 0 := rfl
  rcases hy with ⟨b, hb, hLeast⟩ | hInfinite
  · have hSum : a ≤ a + b := le_add_of_nonneg_right hLeast
    cases hx.add hb with
    | finite v hRounds hValue =>
      exact (hZero.lt_iff hValue).mpr (hPos.trans_le (hRounds.ge_of_ge hx.representable hSum))
    | overflow s v hRounds hBeyond hValue =>
      have hSign := hPos.trans_le (hRounds.ge_of_ge hx.representable hSum)
      cases s with
      | negative => exact absurd (hBeyond.trans (neg_nonpos.mpr hSign.le)) (not_le.mpr (two_zpow_pos 1024))
      | positive => exact zero_lt_of_infinity hValue
  · obtain ⟨m, e, hm, hUnpack⟩ := unpack_of_pos hx hPos
    refine zero_lt_of_infinity ?_
    rw [unpack_add, hInfinite, hUnpack]
    rfl

theorem mul_self (hx : x.isNaN = false) : Amount (x * x) := by
  rcases denotes_or_infinity hx with ⟨a, ha⟩ | ⟨s, hs⟩
  · exact (ha.mul ha).amount (mul_self_nonneg a)
  · right
    rw [unpack_mul, hs]
    cases s <;> rfl

theorem div (hx : Amount x) (hy : Denotes y b) (hPos : 0 < b) : Amount (x / y) := by
  rcases hx with ⟨a, ha, hPos'⟩ | hx
  · exact (ha.div hy hPos.ne').amount (div_nonneg hPos' hPos.le)
  · exact .inr (infinity_div hx hy hPos)

theorem mul_left (hx : Amount x) (hy : Denotes y b) (hPos : 0 < b) : Amount (y * x) := by
  rcases hx with ⟨a, ha, hPos'⟩ | hx
  · exact (hy.mul ha).amount (mul_nonneg hPos.le hPos')
  · obtain ⟨m, e, hm, hUnpack⟩ := unpack_of_pos hy hPos
    right
    rw [unpack_mul, hx, hUnpack]
    rfl

theorem mul_right (hx : Amount x) (hy : Denotes y b) (hPos : 0 < b) : Amount (x * y) := by
  rcases hx with ⟨a, ha, hPos'⟩ | hx
  · exact (ha.mul hy).amount (mul_nonneg hPos' hPos.le)
  · obtain ⟨m, e, hm, hUnpack⟩ := unpack_of_pos hy hPos
    right
    rw [unpack_mul, hx, hUnpack]
    rfl

/-- An amount does not grow by division, not even by rounding. -/
theorem div_le (hx : Amount x) (hy : Denotes y b) (hb : 1 ≤ b) : x / y ≤ x := by
  have hPos : 0 < b := zero_lt_one.trans_le hb
  have hZero : Denotes (0.0 : Float) 0 := rfl
  rcases hx with ⟨a, ha, ha'⟩ | hx
  · have hLess : a / b ≤ a := div_le_self ha' hb
    obtain ⟨v, hv, -, hvLess⟩ := (ha.div hy hPos.ne').inside_of_denotes hZero ha (div_nonneg ha' hPos.le) hLess
    exact (hv.le_iff ha).mpr hvLess
  · have hQuotient := infinity_div hx hy hPos
    refine le_iff.mpr ⟨⟨isNaN_of_infinity hQuotient, isNaN_of_infinity hx⟩, ?_⟩
    rw [hQuotient, hx]

/-- A square root that is a number is an amount. -/
theorem sqrt (h : x.sqrt.isNaN = false) : Amount x.sqrt := by
  have hRoot : x.sqrt = .ofModel (.pack (UnpackedFloat.sqrt .binary64 x.toModel.unpack)) := rfl
  cases hUnpack : x.toModel.unpack with
  | notANumber =>
    rw [hRoot, hUnpack] at h
    cases h
  | infinity s =>
    rw [hRoot, hUnpack] at h ⊢
    cases s with
    | negative => cases h
    | positive => exact .inr rfl
  | zero s =>
    have hx : Denotes x 0 := by rw [Denotes, hUnpack]; rfl
    exact (hx.sqrt le_rfl).amount (Real.sqrt_nonneg 0)
  | finite s m e hm =>
    cases s with
    | negative =>
      rw [hRoot, hUnpack] at h
      change (Float.ofModel (.pack .notANumber)).isNaN = false at h
      cases h
    | positive =>
      have hx : Denotes x (m * 2 ^ e) := by rw [Denotes, hUnpack]; rfl
      exact (hx.sqrt (mul_nonneg (Nat.cast_nonneg m) (two_zpow_pos e).le)).amount (Real.sqrt_nonneg _)

theorem sum {xs : List Float} (h : ∀ x ∈ xs, Amount x) : Amount (Binary64.sum xs) := by
  have hFrom (acc : Float) (hAcc : Amount acc) : Amount (xs.foldl (· + ·) acc) := by
    induction xs generalizing acc with
    | nil => exact hAcc
    | cons x xs ih =>
      rw [List.foldl_cons]
      exact ih (fun y hy => h y (List.mem_cons_of_mem _ hy)) _ (hAcc.add (h x List.mem_cons_self))
  exact hFrom (-0.0) (.inl ⟨0, rfl, le_rfl⟩)

end Amount

/-! ## Unbounded values -/

/-- Positive infinity, or not a number. -/
def Unbounded (x : Float) : Prop :=
  x.toModel.unpack = .notANumber ∨ x.toModel.unpack = .infinity .positive

namespace Unbounded

theorem not_lt (h : Unbounded x) (y : Float) : ¬x < y := by
  rw [lt_iff]
  rintro ⟨⟨hx, hy⟩, hPlace⟩
  rcases h with h | h
  · change x.toModel.unpack.isNaN = false at hx
    rw [h] at hx
    cases hx
  · rw [h] at hPlace
    generalize y.toModel.unpack = w at hPlace
    rcases w with ⟨_ | _⟩ | _ | _ | ⟨_ | _, m, e, hm⟩ <;>
      simp [place, Prod.Lex.toLex_lt_toLex] at hPlace

theorem add_right (h : Unbounded x) (y : Float) : Unbounded (x + y) := by
  rw [Unbounded, unpack_add]
  rcases h with h | h <;> rw [h] <;> rcases y.toModel.unpack with ⟨_ | _⟩ | _ | _ | _ <;> first
    | exact .inl rfl
    | exact .inr rfl

theorem add_left (h : Unbounded y) (x : Float) : Unbounded (x + y) := by
  rw [Unbounded, unpack_add]
  rcases h with h | h <;> rw [h] <;> rcases x.toModel.unpack with ⟨_ | _⟩ | _ | _ | _ <;> first
    | exact .inl rfl
    | exact .inr rfl

theorem mul_left (h : Unbounded x) (hy : Denotes y b) (hPos : 0 < b) : Unbounded (y * x) := by
  obtain ⟨m, e, hm, hUnpack⟩ := unpack_of_pos hy hPos
  rw [Unbounded, unpack_mul, hUnpack]
  rcases h with h | h <;> rw [h]
  · exact .inl rfl
  · exact .inr rfl

theorem sum {xs : List Float} (hx : x ∈ xs) (h : Unbounded x) : Unbounded (Binary64.sum xs) := by
  have hFrom (ys : List Float) (acc : Float) (hAcc : Unbounded acc) :
      Unbounded (ys.foldl (· + ·) acc) := by
    induction ys generalizing acc with
    | nil => exact hAcc
    | cons y ys ih => exact ih _ (hAcc.add_right y)
  obtain ⟨before, after, rfl⟩ := List.append_of_mem hx
  rw [Binary64.sum, List.foldl_append, List.foldl_cons]
  exact hFrom after _ (h.add_left _)

end Unbounded

/-! ## Powers of two as bounds -/

/-- Finite, and at most as large as a power of two. -/
def Near (x : Float) (n : ℤ) : Prop := ∃ v, Denotes x v ∧ |v| ≤ 2 ^ n

/-- At least as large as a power of two, if it is finite. -/
def Far (x : Float) (n : ℤ) : Prop := ∀ v, Denotes x v → 2 ^ n ≤ |v|

theorem near_of_not_far {n : ℤ} (h : ¬Far x n) : ∃ v, Denotes x v ∧ |v| < 2 ^ n := by
  rw [Far] at h
  push Not at h
  exact h

theorem Nearest.near {r : ℝ} {n : ℤ} (h : Nearest x r) (hr : |r| ≤ 2 ^ n) (hLeast : -1074 ≤ n)
    (hGreatest : n ≤ 1023) : Near x n := by
  obtain ⟨v, hv, hLow, hHigh⟩ := h.inside_two_zpow hr hLeast hGreatest
  exact ⟨v, hv, abs_le.mpr ⟨hLow, hHigh⟩⟩

theorem near_rational {n : ℤ} (h : (rational? x).any (fun q => -2 ^ n ≤ q && q ≤ 2 ^ n) = true) :
    Near x n := by
  obtain ⟨v, hv, hLow, hHigh⟩ := inside_rational h
  push_cast at hLow hHigh
  exact ⟨v, hv, abs_le.mpr ⟨hLow, hHigh⟩⟩

namespace Near

variable {n k : ℤ}

theorem mono (h : Near x n) (hnk : n ≤ k) : Near x k := by
  obtain ⟨v, hv, hBound⟩ := h
  exact ⟨v, hv, hBound.trans (zpow_le_zpow_right₀ (by norm_num) hnk)⟩

theorem add (hx : Near x n) (hy : Near y n) (hLeast : -1075 ≤ n) (hGreatest : n ≤ 1022) :
    Near (x + y) (n + 1) := by
  obtain ⟨v, hv, hvn⟩ := hx
  obtain ⟨w, hw, hwn⟩ := hy
  refine (hv.add hw).near ?_ (by omega) (by omega)
  rw [zpow_add_one₀ (by norm_num)]
  linarith [abs_add_le v w]

theorem sub (hx : Near x n) (hy : Near y n) (hLeast : -1075 ≤ n) (hGreatest : n ≤ 1022) :
    Near (x - y) (n + 1) := by
  obtain ⟨v, hv, hvn⟩ := hx
  obtain ⟨w, hw, hwn⟩ := hy
  refine (hv.sub hw).near ?_ (by omega) (by omega)
  rw [zpow_add_one₀ (by norm_num)]
  linarith [abs_sub v w]

theorem mul (hx : Near x n) (hy : Near y k) (hLeast : -1074 ≤ n + k) (hGreatest : n + k ≤ 1023) :
    Near (x * y) (n + k) := by
  obtain ⟨v, hv, hvn⟩ := hx
  obtain ⟨w, hw, hwk⟩ := hy
  refine (hv.mul hw).near ?_ hLeast hGreatest
  rw [abs_mul, zpow_add₀ (by norm_num)]
  exact mul_le_mul hvn hwk (abs_nonneg w) (two_zpow_pos n).le

theorem div (hx : Near x n) (hy : Denotes y b) (hb : 2 ^ k ≤ b) (hLeast : -1074 ≤ n - k)
    (hGreatest : n - k ≤ 1023) : Near (x / y) (n - k) := by
  obtain ⟨v, hv, hvn⟩ := hx
  have hPos : 0 < b := (two_zpow_pos k).trans_le hb
  refine (hv.div hy hPos.ne').near ?_ hLeast hGreatest
  rw [abs_div, abs_of_pos hPos, zpow_sub₀ (by norm_num)]
  exact div_le_div₀ (two_zpow_pos n).le hvn (two_zpow_pos k) hb

end Near

/-- A sum grows by at most one binary digit with each part. -/
theorem Near.sum {n : ℤ} {xs : List Float} (h : ∀ x ∈ xs, Near x n) (hLeast : -1074 ≤ n)
    (hGreatest : n + xs.length ≤ 1023) : Near (Binary64.sum xs) (n + xs.length) := by
  have hFrom (k : ℕ) (acc : Float) (hAcc : Near acc (n + k)) (hRoom : n + k + xs.length ≤ 1023) :
      Near (xs.foldl (· + ·) acc) (n + k + xs.length) := by
    clear hGreatest
    induction xs generalizing k acc with
    | nil =>
      rw [List.foldl_nil, List.length_nil, Nat.cast_zero, add_zero]
      exact hAcc
    | cons x xs ih =>
      rw [List.length_cons] at hRoom
      have hx := (h x List.mem_cons_self).mono (show n ≤ n + k by omega)
      have hNext := hAcc.add hx (by omega) (by omega)
      rw [List.foldl_cons, List.length_cons, show n + k + ((xs.length + 1 : ℕ) : ℤ) = n + (k + 1 : ℕ) + xs.length by
        push_cast
        ring]
      refine ih (fun y hy => h y (List.mem_cons_of_mem _ hy)) (k + 1) _ ?_ (by push_cast at hRoom ⊢; omega)
      rwa [Nat.cast_succ, ← add_assoc]
  have hZero : Near (-0.0) (n + (0 : ℕ)) := ⟨0, rfl, by rw [abs_zero]; exact (two_zpow_pos _).le⟩
  have hSum := hFrom 0 (-0.0) hZero (by rwa [Nat.cast_zero, add_zero])
  rwa [Nat.cast_zero, add_zero] at hSum

/-- A square of a value between two powers of two. -/
theorem Inside.mul_self {n k : ℤ} (h : Inside x (2 ^ n) (2 ^ k)) (hLeast : -1074 ≤ n + n)
    (hGreatest : k + k ≤ 1023) : Inside (x * x) (2 ^ (n + n)) (2 ^ (k + k)) := by
  obtain ⟨v, hv, hLow, hHigh⟩ := h
  have hPos := (two_zpow_pos n).trans_le hLow
  have hExponent : n ≤ k := (zpow_le_zpow_iff_right₀ (by norm_num : (1 : ℝ) < 2)).mp (hLow.trans hHigh)
  refine (hv.mul hv).inside (representable_two_zpow hLeast) (representable_two_zpow (by omega)) ?_ ?_ ?_ ?_
  · rw [zpow_add₀ (by norm_num)]
    exact mul_le_mul hLow hLow (two_zpow_pos n).le hPos.le
  · rw [zpow_add₀ (by norm_num)]
    exact mul_le_mul hHigh hHigh hPos.le (two_zpow_pos k).le
  · exact (neg_nonpos.mpr (two_zpow_pos _).le).trans (two_zpow_pos _).le
  · exact zpow_le_zpow_right₀ (by norm_num) hGreatest

theorem Rounds.two_zpow_le_abs {r v : ℝ} {n : ℤ} (h : Rounds r v) (hn : -1074 ≤ n) (hr : 2 ^ n ≤ |r|) :
    2 ^ n ≤ |v| := by
  rcases le_abs.mp hr with hPos | hNeg
  · exact (h.ge_of_ge (representable_two_zpow hn) hPos).trans (le_abs_self v)
  · exact (h.neg.ge_of_ge (representable_two_zpow hn) hNeg).trans (neg_le_abs v)

theorem Nearest.far {r : ℝ} {n : ℤ} (h : Nearest x r) (hn : -1074 ≤ n) (hr : 2 ^ n ≤ |r|) : Far x n :=
  fun _ hv => (h.rounds hv).two_zpow_le_abs hn hr

namespace Far

variable {n k : ℤ}

theorem mono (h : Far x n) (hkn : k ≤ n) : Far x k := fun v hv =>
  (zpow_le_zpow_right₀ (by norm_num) hkn).trans (h v hv)

theorem sub_right (h : Far x (n + 1)) (hn : -1074 ≤ n) (hy : Denotes y b) (hb : |b| ≤ 2 ^ n) :
    Far (x - y) n := by
  intro v hv
  obtain ⟨⟨a, ha⟩, -⟩ := hv.of_sub
  refine (ha.sub hy).far hn ?_ v hv
  have hLarge := h a ha
  have hApart := abs_sub_abs_le_abs_sub a b
  rw [zpow_add_one₀ (by norm_num)] at hLarge
  linarith

/-- Nothing is divided by zero with a number as the result. -/
theorem div (h : Far x (n + k)) (hn : -1074 ≤ n) (hy : Denotes y b) (hLeast : 0 ≤ b) (hb : b ≤ 2 ^ k) :
    Far (x / y) n := by
  intro v hv
  obtain ⟨a, ha⟩ := hv.of_div
  have hPos : 0 < b := hLeast.lt_of_ne' (hv.ne_zero_of_div hy)
  refine (ha.div hy hPos.ne').far hn ?_ v hv
  have hLarge := h a ha
  rw [zpow_add₀ (by norm_num)] at hLarge
  rw [abs_div, abs_of_pos hPos, le_div_iff₀ hPos]
  exact (mul_le_mul_of_nonneg_left hb (two_zpow_pos n).le).trans hLarge

theorem mul_self (h : Far x n) (hn : -1074 ≤ n + n) : Far (x * x) (n + n) := by
  intro v hv
  obtain ⟨⟨a, ha⟩, -⟩ := hv.of_mul
  refine (ha.mul ha).far hn ?_ v hv
  rw [zpow_add₀ (by norm_num), abs_mul]
  exact mul_le_mul (h a ha) (h a ha) (two_zpow_pos n).le (abs_nonneg a)

/-- A square beyond the finite values is infinite. -/
theorem unbounded_mul_self (h : Far x 512) : Unbounded (x * x) := by
  by_cases hNaN : x.isNaN = false
  · rcases Amount.mul_self hNaN with ⟨v, hv, -⟩ | hInfinite
    · have hLarge := h.mul_self (by decide) v hv
      exact absurd hv.abs_lt (not_lt.mpr hLarge)
    · exact .inr hInfinite
  · left
    rw [unpack_mul]
    change x.toModel.unpack.isNaN ≠ false at hNaN
    generalize x.toModel.unpack = u at hNaN
    cases u with
    | notANumber => rfl
    | _ => exact absurd rfl hNaN

end Far

end TrackLayout.Binary64
