import TrackLayout.Proofs.Binary64.Arithmetic
import TrackLayout.Proofs.Binary64.Order

/-!
# Values as numbers

A finite value denotes a number. An operation on finite values denotes the
exact result rounded, or overflows.
-/
set_option autoImplicit false

namespace TrackLayout.Binary64

open Float.Model Float.Model.UnpackedFloat

def Denotes (x : Float) (v : ℝ) : Prop := unpackedReal? x.toModel.unpack = some v

/-- A value is the exact result `x` after rounding. -/
inductive Nearest (z : Float) (x : ℝ) : Prop
  | finite (v : ℝ) (hRounds : Rounds x v) (hValue : Denotes z v)
  | overflow (s : Sign) (v : ℝ) (hRounds : Rounds x v) (hBeyond : 2 ^ (1024 : ℤ) ≤ signed s v)
      (hValue : z.toModel.unpack = .infinity s)

theorem Denotes.unique {x : Float} {v w : ℝ} (hv : Denotes x v) (hw : Denotes x w) : v = w :=
  Option.some.inj (hv.symm.trans hw)

/-- Storing a computed value overflows beyond the greatest exponent. -/
theorem nearest_pack {u : UnpackedFloat} {x : ℝ} (h : Computes u x) : Nearest (.ofModel (.pack u)) x := by
  obtain ⟨hCanonical, v, hRounds, hReal⟩ := h
  have hStored : (Float.ofModel (.pack u)).toModel.unpack = clamp u := unpack_pack hCanonical
  cases u with
  | infinity s => cases hReal
  | notANumber => cases hReal
  | zero s => exact .finite v hRounds (by rwa [Denotes, hStored])
  | finite s m e hm =>
    rw [clamp] at hStored
    split at hStored
    · exact .finite v hRounds (by rwa [Denotes, hStored])
    · next hGreatest =>
      cases hReal
      refine .overflow s _ hRounds ?_ hStored
      have hFull := hCanonical.2.2.resolve_right (by omega)
      have hSigned : signed s (signed s ((m : ℝ) * 2 ^ e)) = m * 2 ^ e := by
        cases s
        · exact neg_neg _
        · rfl
      rw [hSigned]
      calc (2 : ℝ) ^ (1024 : ℤ) = 2 ^ (52 : ℤ) * 2 ^ (972 : ℤ) := by rw [← zpow_add₀ (by norm_num)]; rfl
        _ ≤ m * 2 ^ e := mul_le_mul (by exact_mod_cast hFull)
            (zpow_le_zpow_right₀ (by norm_num) (by omega)) (two_zpow_pos _).le (Nat.cast_nonneg m)

/-- The `Float` nearest to a dyadic number. -/
theorem nearest_nearest (negative : Bool) (m : ℕ) {e : ℤ} (he : -1074 ≤ e) :
    Nearest (nearest negative m e) (signed (Sign.ofBool negative) (m * 2 ^ e)) := by
  obtain rfl | hm := Nat.eq_zero_or_pos m
  · have hZero : signed (Sign.ofBool negative) (((0 : ℕ) : ℝ) * 2 ^ e) = 0 := by
      cases negative <;> simp [signed, Sign.ofBool]
    rw [nearest, round_mantissa_zero _ he, hZero]
    exact nearest_pack (computes_self trivial rfl)
  · exact nearest_pack (computes_round _ hm e)

/-! ## Signs and order before values are stored -/

section Unpacked

variable {a b : UnpackedFloat} {v w : ℝ}

theorem canonical_abs (ha : Canonical a) : Canonical a.abs := by
  cases a <;> exact ha

theorem unpackedReal?_abs (hv : unpackedReal? a = some v) : unpackedReal? a.abs = some |v| := by
  cases a with
  | infinity s => cases hv
  | notANumber => cases hv
  | zero s =>
    cases hv
    exact congrArg some abs_zero.symm
  | finite s m e hm =>
    cases hv
    rw [abs_signed, abs_of_nonneg (mul_nonneg (Nat.cast_nonneg m) (two_zpow_pos e).le)]
    rfl

theorem clamp_unpack (x : Float) : clamp x.toModel.unpack = x.toModel.unpack := by
  change clamp (UnpackedFloat.unpack _ _) = UnpackedFloat.unpack _ _
  rw [unpack_eq_ofFields]
  exact (ofFields_spec ..).2

theorem exponent_le_of_clamp {s : Sign} {m : ℕ} {e : ℤ} {hm : 0 < m}
    (h : clamp (.finite s m e hm) = .finite s m e hm) : e ≤ 971 := by
  rw [clamp] at h
  split at h
  · assumption
  · cases h

theorem clamp_neg (h : clamp a = a) : clamp a.neg = a.neg := by
  cases a with
  | finite s m e hm => exact if_pos (exponent_le_of_clamp h)
  | _ => rfl

theorem clamp_abs (h : clamp a = a) : clamp a.abs = a.abs := by
  cases a with
  | finite s m e hm => exact if_pos (exponent_le_of_clamp h)
  | _ => rfl

/-- Exponents decide before mantissas. -/
theorem magnitude_lt {m n : ℕ} {e f : ℤ} (hm : m < 2 ^ 53) (hn : 2 ^ 52 ≤ n ∨ f = -1074) (he : -1074 ≤ e)
    (h : e < f ∨ e = f ∧ m < n) : (m : ℝ) * 2 ^ e < n * 2 ^ f := by
  rcases h with hLess | ⟨rfl, hLess⟩
  · have hFull := hn.resolve_right (by omega)
    calc (m : ℝ) * 2 ^ e < 2 ^ (53 : ℤ) * 2 ^ e :=
          mul_lt_mul_of_pos_right (by exact_mod_cast hm) (two_zpow_pos e)
      _ = 2 ^ (53 + e) := (zpow_add₀ (by norm_num) _ _).symm
      _ ≤ 2 ^ (52 + f) := zpow_le_zpow_right₀ (by norm_num) (by omega)
      _ = 2 ^ (52 : ℤ) * 2 ^ f := zpow_add₀ (by norm_num) _ _
      _ ≤ n * 2 ^ f := mul_le_mul_of_nonneg_right (by exact_mod_cast hFull) (two_zpow_pos f).le
  · exact mul_lt_mul_of_pos_right (Nat.cast_lt.mpr hLess) (two_zpow_pos e)

theorem lt_of_place_lt (ha : Canonical a) (hb : Canonical b) (hv : unpackedReal? a = some v)
    (hw : unpackedReal? b = some w) (h : place a < place b) : v < w := by
  have hPos {m : ℕ} (hm : 0 < m) (e : ℤ) : (0 : ℝ) < m * 2 ^ e :=
    mul_pos (Nat.cast_pos.mpr hm) (two_zpow_pos e)
  rcases a with ⟨_ | _⟩ | _ | _ | ⟨_ | _, m, e, hm⟩ <;> cases hv <;>
    rcases b with ⟨_ | _⟩ | _ | _ | ⟨_ | _, n, f, hn⟩ <;> cases hw <;>
    simp only [place, Prod.Lex.toLex_lt_toLex, signed] at h ⊢
  · omega
  · omega
  · exact hPos hn f
  · exact neg_lt_zero.mpr (hPos hm e)
  · exact neg_lt_neg (magnitude_lt hb.1 ha.2.2 hb.2.1 (by omega))
  · exact (neg_lt_zero.mpr (hPos hm e)).trans (hPos hn f)
  · omega
  · omega
  · exact magnitude_lt ha.1 hb.2.2 ha.2.1 (by omega)

theorem eq_of_place_eq (hv : unpackedReal? a = some v) (hw : unpackedReal? b = some w)
    (h : place a = place b) : v = w := by
  rcases a with ⟨_ | _⟩ | _ | _ | ⟨_ | _, m, e, hm⟩ <;> cases hv <;>
    rcases b with ⟨_ | _⟩ | _ | _ | ⟨_ | _, n, f, hn⟩ <;> cases hw <;>
    simp only [place, toLex_inj, Prod.mk.injEq, neg_inj, Nat.cast_inj] at h
  · rfl
  · omega
  · omega
  · omega
  · rw [h.2.1, h.2.2]
  · omega
  · omega
  · omega
  · rw [h.2.1, h.2.2]

/-- Places are in the order of the numbers. -/
theorem place_lt_iff (ha : Canonical a) (hb : Canonical b) (hv : unpackedReal? a = some v)
    (hw : unpackedReal? b = some w) : place a < place b ↔ v < w := by
  constructor
  · exact lt_of_place_lt ha hb hv hw
  · intro hLess
    by_contra hPlace
    rcases (not_lt.mp hPlace).lt_or_eq with hBefore | hSame
    · exact lt_asymm hLess (lt_of_place_lt hb ha hw hv hBefore)
    · exact hLess.ne' (eq_of_place_eq hw hv hSame)

end Unpacked

theorem unpack_abs (x : Float) : x.abs.toModel.unpack = x.toModel.unpack.abs :=
  (unpack_pack (canonical_abs (canonical x))).trans (clamp_abs (clamp_unpack x))

theorem unpack_neg (x : Float) : (-x).toModel.unpack = x.toModel.unpack.neg :=
  (unpack_pack (canonical_neg (canonical x))).trans (clamp_neg (clamp_unpack x))

theorem isNaN_neg (x : Float) : (-x).isNaN = x.isNaN := by
  change (-x).toModel.unpack.isNaN = x.toModel.unpack.isNaN
  rw [unpack_neg]
  cases x.toModel.unpack <;> rfl

theorem place_neg_lt_place_neg {a b : UnpackedFloat} : place a.neg < place b.neg ↔ place b < place a := by
  rcases a with ⟨_ | _⟩ | _ | _ | ⟨_ | _, m, e, _⟩ <;>
    rcases b with ⟨_ | _⟩ | _ | _ | ⟨_ | _, n, f, _⟩ <;>
      simp [UnpackedFloat.neg, place, Prod.Lex.toLex_lt_toLex, eq_comm]

/-- A change of signs turns the order round, among infinite values too. -/
protected theorem neg_lt_neg_iff {x y : Float} : -x < -y ↔ y < x := by
  rw [lt_iff, lt_iff, isNaN_neg, isNaN_neg, unpack_neg, unpack_neg, place_neg_lt_place_neg,
    and_comm (a := x.isNaN = false)]

namespace Denotes

variable {x y : Float} {v w : ℝ}

/-- What denotes a number is one of the zeros or has a mantissa. -/
theorem unpack_cases (hx : Denotes x v) : (v = 0 ∧ ∃ s, x.toModel.unpack = .zero s) ∨
    ∃ s m e hm, x.toModel.unpack = .finite s m e hm ∧ v = signed s (m * 2 ^ e) := by
  rw [Denotes] at hx
  cases h : x.toModel.unpack with
  | infinity s =>
    rw [h] at hx
    cases hx
  | notANumber =>
    rw [h] at hx
    cases hx
  | zero s =>
    rw [h] at hx
    exact .inl ⟨(Option.some.inj hx).symm, s, rfl⟩
  | finite s m e hm =>
    rw [h] at hx
    exact .inr ⟨s, m, e, hm, rfl, (Option.some.inj hx).symm⟩

theorem isNaN (hx : Denotes x v) : x.isNaN = false := by
  change x.toModel.unpack.isNaN = false
  obtain ⟨-, s, h⟩ | ⟨s, m, e, hm, h, -⟩ := hx.unpack_cases <;> rw [h] <;> rfl

theorem isInf (hx : Denotes x v) : x.isInf = false := by
  change x.toModel.unpack.isInf = false
  obtain ⟨-, s, h⟩ | ⟨s, m, e, hm, h, -⟩ := hx.unpack_cases <;> rw [h] <;> rfl

theorem add (hx : Denotes x v) (hy : Denotes y w) : Nearest (x + y) (v + w) :=
  nearest_pack (computes_add (canonical x) (canonical y) hx hy)

theorem sub (hx : Denotes x v) (hy : Denotes y w) : Nearest (x - y) (v - w) :=
  nearest_pack (computes_sub (canonical x) (canonical y) hx hy)

theorem mul (hx : Denotes x v) (hy : Denotes y w) : Nearest (x * y) (v * w) :=
  nearest_pack (computes_mul (canonical x) (canonical y) hx hy)

theorem div (hx : Denotes x v) (hy : Denotes y w) (hZero : w ≠ 0) : Nearest (x / y) (v / w) :=
  nearest_pack (computes_div hx hy hZero)

theorem sqrt (hx : Denotes x v) (hPos : 0 ≤ v) : Nearest x.sqrt √v :=
  nearest_pack (computes_sqrt (canonical x) hx hPos)

theorem neg (hx : Denotes x v) : Denotes (-x) (-v) := by
  rw [Denotes, unpack_neg]
  exact unpackedReal?_neg hx

theorem abs (hx : Denotes x v) : Denotes x.abs |v| := by
  rw [Denotes, unpack_abs]
  exact unpackedReal?_abs hx

/-! ### Order -/

theorem lt_iff (hx : Denotes x v) (hy : Denotes y w) : x < y ↔ v < w := by
  rw [Binary64.lt_iff, place_lt_iff (canonical x) (canonical y) hx hy]
  exact and_iff_right ⟨hx.isNaN, hy.isNaN⟩

theorem le_iff (hx : Denotes x v) (hy : Denotes y w) : x ≤ y ↔ v ≤ w := by
  rw [Binary64.le_iff, ← not_lt, place_lt_iff (canonical y) (canonical x) hy hx, not_lt]
  exact and_iff_right ⟨hx.isNaN, hy.isNaN⟩

theorem beq_iff (hx : Denotes x v) (hy : Denotes y w) : (x == y) = true ↔ v = w := by
  rw [Binary64.beq_iff, hx.le_iff hy, hy.le_iff hx, le_antisymm_iff]

end Denotes

/-! ## Bounds -/

theorem Nearest.rounds {z : Float} {x v : ℝ} (h : Nearest z x) (hv : Denotes z v) : Rounds x v := by
  cases h with
  | finite w hRounds hValue => rwa [hv.unique hValue]
  | overflow s w hRounds hBeyond hValue =>
    rw [Denotes, hValue] at hv
    cases hv

/-- Nothing overflows below half the greatest power of two. -/
theorem Nearest.exists_rounds {z : Float} {x : ℝ} (h : Nearest z x) (hx : |x| ≤ 2 ^ (1023 : ℤ)) :
    ∃ v, Rounds x v ∧ Denotes z v := by
  cases h with
  | finite v hRounds hValue => exact ⟨v, hRounds, hValue⟩
  | overflow s v hRounds hBeyond hValue =>
    obtain ⟨hLow, hHigh⟩ := abs_le.mp hx
    have hPower := representable_two_zpow (show -1074 ≤ (1023 : ℤ) by decide)
    have hAbove := hRounds.le_of_le hPower hHigh
    have hBelow := hRounds.ge_of_ge hPower.neg hLow
    have hLess : (2 : ℝ) ^ (1023 : ℤ) < 2 ^ (1024 : ℤ) := zpow_lt_zpow_right₀ (by norm_num) (by decide)
    cases s
    · exact absurd hBeyond (not_le.mpr (lt_of_le_of_lt (neg_le.mp hBelow) hLess))
    · exact absurd hBeyond (not_le.mpr (lt_of_le_of_lt hAbove hLess))

def Inside (x : Float) (a b : ℝ) : Prop := ∃ v, Denotes x v ∧ a ≤ v ∧ v ≤ b

/-- Rounding stays in a range whose ends need no rounding. -/
theorem Nearest.inside {z : Float} {x a b : ℝ} (h : Nearest z x) (ha : Representable a)
    (hb : Representable b) (hLow : a ≤ x) (hHigh : x ≤ b) (hLeast : -2 ^ (1023 : ℤ) ≤ a)
    (hGreatest : b ≤ 2 ^ (1023 : ℤ)) : Inside z a b := by
  obtain ⟨v, hRounds, hv⟩ := h.exists_rounds (abs_le.mpr ⟨hLeast.trans hLow, hHigh.trans hGreatest⟩)
  exact ⟨v, hv, hRounds.ge_of_ge ha hLow, hRounds.le_of_le hb hHigh⟩

theorem Nearest.inside_of_le_two {z : Float} {x a b : ℝ} (h : Nearest z x) (ha : Representable a)
    (hb : Representable b) (hLow : a ≤ x) (hHigh : x ≤ b) (hLeast : -2 ≤ a) (hGreatest : b ≤ 2) :
    Inside z a b := by
  have hTwo : (2 : ℝ) ≤ 2 ^ (1023 : ℤ) := by
    calc (2 : ℝ) = 2 ^ (1 : ℤ) := (zpow_one 2).symm
      _ ≤ 2 ^ (1023 : ℤ) := zpow_le_zpow_right₀ (by norm_num) (by decide)
  exact h.inside ha hb hLow hHigh ((neg_le_neg hTwo).trans hLeast) (hGreatest.trans hTwo)

theorem Nearest.inside_two_zpow {z : Float} {x : ℝ} {n : ℤ} (h : Nearest z x) (hx : |x| ≤ 2 ^ n)
    (hLeast : -1074 ≤ n) (hGreatest : n ≤ 1023) : Inside z (-2 ^ n) (2 ^ n) := by
  obtain ⟨hLow, hHigh⟩ := abs_le.mp hx
  have hPower : (2 : ℝ) ^ n ≤ 2 ^ (1023 : ℤ) := zpow_le_zpow_right₀ (by norm_num) hGreatest
  have hBound := representable_two_zpow hLeast
  exact h.inside hBound.neg hBound hLow hHigh (neg_le_neg hPower) hPower

/-! ## Values that are given -/

def unpackedRational? : UnpackedFloat → Option ℚ
  | .finite s m e _ => some (s.apply m * 2 ^ e)
  | .zero _ => some 0
  | .infinity _ | .notANumber => none

/-- The number of a finite value, as it can be computed. -/
def rational? (x : Float) : Option ℚ := unpackedRational? x.toModel.unpack

theorem denotes_rational {x : Float} {q : ℚ} (h : rational? x = some q) : Denotes x q := by
  rw [rational?] at h
  rw [Denotes]
  cases hUnpack : x.toModel.unpack with
  | finite s m e hm =>
    rw [hUnpack] at h
    cases h
    rw [unpackedReal?]
    push_cast
    rw [← signed_intCast]
    cases s
    · exact congrArg some (neg_mul _ _).symm
    · rfl
  | zero s =>
    rw [hUnpack] at h
    cases h
    exact congrArg some Rat.cast_zero.symm
  | infinity s =>
    rw [hUnpack] at h
    cases h
  | notANumber =>
    rw [hUnpack] at h
    cases h

theorem denotes_zero : Denotes 0.0 0 := rfl

theorem denotes_one : Denotes 1.0 1 := by exact_mod_cast denotes_rational (by decide +kernel : rational? 1.0 = some 1)

theorem inside_rational {x : Float} {a b : ℚ} (h : (rational? x).any (fun q => a ≤ q && q ≤ b) = true) :
    Inside x a b := by
  cases hq : rational? x with
  | none =>
    rw [hq] at h
    cases h
  | some q =>
    rw [hq, Option.any_some, Bool.and_eq_true, decide_eq_true_eq, decide_eq_true_eq] at h
    exact ⟨q, denotes_rational hq, Rat.cast_le.mpr h.1, Rat.cast_le.mpr h.2⟩

end TrackLayout.Binary64
