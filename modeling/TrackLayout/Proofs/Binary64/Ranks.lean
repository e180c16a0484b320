import TrackLayout.Proofs.Binary64.Identity
import TrackLayout.Proofs.Binary64.Symmetry

/-!
# Positions of numbers without a sign

The bits of a number whose sign is not set grow with the number, and so does
its position in the order of all values. The sign of a square is never set, not
even if it is rounded to zero, and neither is the sign of a sum of squares.
-/
set_option autoImplicit false

namespace TrackLayout.Binary64

open Float.Model Float.Model.UnpackedFloat

/-- The value is a number and its sign is not set. -/
structure Unsigned (x : Float) : Prop where
  number : x.isNaN = false
  abs : x.toModel.unpack.abs = x.toModel.unpack

/-! ## Sums of squares -/

section Unpacked

variable {a b : UnpackedFloat}

theorem abs_mul_self (a : UnpackedFloat) :
    (UnpackedFloat.mul .binary64 a a).abs = UnpackedFloat.mul .binary64 a a := by
  rw [← mul_abs_self]
  cases a with
  | finite s m e hm => exact abs_roundWithAccuracy ..
  | _ => rfl

theorem abs_normalize {n : Int} (hn : 0 ≤ n) (e : Int) :
    (UnpackedFloat.normalize .binary64 n e .positive).abs = UnpackedFloat.normalize .binary64 n e .positive := by
  rcases hn.lt_or_eq with hPos | rfl
  · have hAbove : compare n 0 = .gt := compare_gt_iff_gt.mpr hPos
    rw [UnpackedFloat.normalize, hAbove]
    exact abs_round ..
  · rfl

theorem abs_add (ha : a.abs = a) (hb : b.abs = b) :
    (UnpackedFloat.add .binary64 a b).abs = UnpackedFloat.add .binary64 a b := by
  rw [← ha, ← hb]
  cases a with
  | finite s m e hm =>
    cases b with
    | finite r n f hn =>
      refine abs_normalize ?_ _
      exact add_nonneg (Int.natCast_nonneg _) (Int.natCast_nonneg _)
    | _ => rfl
  | _ => cases b <;> rfl

end Unpacked

namespace Unsigned

variable {x y : Float}

theorem mul_self (h : (x * x).isNaN = false) : Unsigned (x * x) where
  number := h
  abs := by rw [unpack_mul, abs_clamp, abs_mul_self]

theorem add (hx : Unsigned x) (hy : Unsigned y) (h : (x + y).isNaN = false) : Unsigned (x + y) where
  number := h
  abs := by rw [unpack_add, abs_clamp, abs_add hx.abs hy.abs]

end Unsigned

/-! ## Bits -/

theorem toNat_packComponents (e : BitVec 11) (m : BitVec 52) :
    (packComponents .binary64 .positive e m).toNat = 2 ^ 52 * e.toNat + m.toNat := by
  change ((0#1 ++ e) ++ m).toNat = _
  rw [BitVec.toNat_append, ← Nat.shiftLeft_add_eq_or_of_lt m.isLt, BitVec.toNat_append, BitVec.toNat_ofNat,
    Nat.zero_mod, Nat.zero_shiftLeft, Nat.zero_or, Nat.shiftLeft_eq, mul_comm]

theorem sign_ofFields {s : Sign} {e : BitVec 11} {m : BitVec 52} (hNumber : (ofFields s e m).isNaN = false)
    (hAbs : (ofFields s e m).abs = ofFields s e m) : s = .positive := by
  rw [ofFields] at hNumber hAbs
  split_ifs at hNumber hAbs
  · exact (UnpackedFloat.infinity.inj hAbs).symm
  · cases hNumber
  · exact (UnpackedFloat.finite.inj hAbs).1.symm
  · exact (UnpackedFloat.zero.inj hAbs).symm
  · exact (UnpackedFloat.finite.inj hAbs).1.symm

/-- The exponent counts before the mantissa, in the bits as in the place. -/
theorem place_lt_of_fields {e f : BitVec 11} {m n : BitVec 52} (he : ofFields .positive e m ≠ .notANumber)
    (hf : ofFields .positive f n ≠ .notANumber)
    (h : 2 ^ 52 * e.toNat + m.toNat < 2 ^ 52 * f.toNat + n.toNat) :
    place (ofFields .positive e m) < place (ofFields .positive f n) := by
  have hm := m.isLt
  have hn := n.isLt
  have hTop {g : BitVec 11} : g = -1#11 ↔ g.toNat = 2047 := by
    rw [← BitVec.toNat_inj]
    rfl
  have hLeast {g : BitVec 11} : g = 0#11 ↔ g.toNat = 0 := by
    rw [← BitVec.toNat_inj]
    rfl
  have hNone {k : BitVec 52} : k = 0#52 ↔ k.toNat = 0 := by
    rw [← BitVec.toNat_inj]
    rfl
  simp only [ofFields, hTop, hLeast, hNone] at he hf ⊢
  -- the least exponent is stored as zero or as one, and tells zero from the numbers with few bits
  split_ifs at he hf ⊢ <;> simp_all [place, Prod.Lex.toLex_lt_toLex] <;> omega

namespace Unsigned

variable {x y : Float}

theorem exists_fields (h : Unsigned x) : ∃ (e : BitVec 11) (m : BitVec 52),
    x.toModel.unpack = ofFields .positive e m ∧ x.toBits.toNat = 2 ^ 52 * e.toNat + m.toNat := by
  let b : BitVec Format.binary64.numBits := x.toModel.toBits.toBitVec
  have hUnpack : x.toModel.unpack = ofFields (Sign.ofBitVec (unpackSign b)) (unpackExponent b) (unpackMantissa b) :=
    unpack_eq_ofFields b
  have hNumber : x.toModel.unpack.isNaN = false := h.number
  have hSign := sign_ofFields (hUnpack ▸ hNumber) (hUnpack ▸ h.abs)
  have hBits : packComponents .binary64 .positive (unpackExponent b) (unpackMantissa b) = b := by
    rw [← hSign, packComponents_unpack]
  refine ⟨unpackExponent b, unpackMantissa b, by rw [hUnpack, hSign], ?_⟩
  rw [← toNat_packComponents, hBits]
  rfl

theorem rank_eq (h : Unsigned x) : rank x = x.toBits.toNat := by
  obtain ⟨e, m, -, hBits⟩ := h.exists_fields
  have he := e.isLt
  have hm := m.isLt
  have hPositive : isNegative x = false := by
    rw [isNegative, hBits, decide_eq_false_iff_not, not_le]
    change _ < 2 ^ 63
    omega
  rw [rank, hPositive]
  rfl

/-- Positions are ordered as numbers are. -/
theorem rank_lt_iff (hx : Unsigned x) (hy : Unsigned y) : rank x < rank y ↔ x < y := by
  have hMono {x y : Float} (hx : Unsigned x) (hy : Unsigned y) (h : x.toBits.toNat < y.toBits.toNat) :
      place x.toModel.unpack < place y.toModel.unpack := by
    obtain ⟨e, m, hUnpack, hBits⟩ := hx.exists_fields
    obtain ⟨f, n, hUnpack', hBits'⟩ := hy.exists_fields
    rw [hBits, hBits'] at h
    have hNumber {u : UnpackedFloat} (hu : u.isNaN = false) : u ≠ .notANumber := by
      rintro rfl
      cases hu
    rw [hUnpack, hUnpack']
    exact place_lt_of_fields (hUnpack ▸ hNumber hx.number) (hUnpack' ▸ hNumber hy.number) h
  rw [hx.rank_eq, hy.rank_eq, Int.ofNat_lt, lt_iff]
  refine ⟨fun h => ⟨⟨hx.number, hy.number⟩, hMono hx hy h⟩, fun h => ?_⟩
  by_contra! hLe
  rcases hLe.lt_or_eq with hGreater | hSame
  · exact lt_asymm h.2 (hMono hy hx hGreater)
  · have hUnpack : y.toModel.unpack = x.toModel.unpack :=
      congrArg (fun bits : UInt64 => UnpackedFloat.unpack .binary64 bits.toBitVec) (UInt64.toNat.inj hSame)
    exact lt_irrefl _ (hUnpack ▸ h.2)

theorem rank_le_iff {v w : ℝ} (hx : Unsigned x) (hy : Unsigned y) (hv : Denotes x v) (hw : Denotes y w) :
    rank x ≤ rank y ↔ v ≤ w := by
  rw [← not_lt, hy.rank_lt_iff hx, hw.lt_iff hv, not_lt]

end Unsigned

end TrackLayout.Binary64
