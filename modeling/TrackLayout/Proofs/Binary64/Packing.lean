import Mathlib
import TrackLayout.Binary64

/-!
# Stored values

Values are computed as a sign, a mantissa and an exponent and stored as 64
bits. Storing keeps a finite value whose mantissa fills its bits, or whose
exponent is the least one; beyond the greatest exponent it is stored as an
infinite value.
-/
set_option autoImplicit false

namespace TrackLayout.Binary64

open Float.Model Float.Model.UnpackedFloat

/-- The form in which finite values are computed; stored ones have a greatest exponent too. -/
def Canonical : UnpackedFloat → Prop
  | .finite _ m e _ => m < 2 ^ 53 ∧ -1074 ≤ e ∧ (2 ^ 52 ≤ m ∨ e = -1074)
  | .infinity _ | .notANumber | .zero _ => True

/-- Finite values beyond the greatest exponent are stored as infinite ones. -/
def clamp : UnpackedFloat → UnpackedFloat
  | .finite s m e h => if e ≤ 971 then .finite s m e h else .infinity s
  | .infinity s => .infinity s
  | .zero s => .zero s
  | .notANumber => .notANumber

/-- The value with given fields. -/
def ofFields (s : Sign) (e : BitVec 11) (m : BitVec 52) : UnpackedFloat :=
  if e = -1#11 then if m = 0#52 then .infinity s else .notANumber
  else if e = 0#11 then if h : 0 < m.toNat then .finite s m.toNat (-1074) h else .zero s
  else .finite s (2 ^ 52 + m.toNat) (e.toNat - 1075) (by omega)

theorem unpackSign_packComponents (s : Sign) (e : BitVec 11) (m : BitVec 52) :
    Sign.ofBitVec (unpackSign (packComponents .binary64 s e m)) = s := by
  simp only [unpackSign, packComponents, BitVec.extractLsb]
  rw [BitVec.extractLsb'_append_eq_of_le (by decide), BitVec.extractLsb'_append_eq_of_le (by decide)]
  cases s <;> rfl

theorem toNat_one_append (m : BitVec 52) : (1#1 ++ m).toNat = 2 ^ 52 + m.toNat := by
  rw [BitVec.toNat_append, ← Nat.shiftLeft_add_eq_or_of_lt m.isLt]
  rfl

theorem unpack_eq_ofFields (b : BitVec Format.binary64.numBits) : UnpackedFloat.unpack .binary64 b =
    ofFields (Sign.ofBitVec (unpackSign b)) (unpackExponent b) (unpackMantissa b) := by
  rw [UnpackedFloat.unpack, ofFields]
  dsimp only
  split
  · rfl
  · split
    · next hLeast =>
      rw [hLeast]
      split
      · next hZero =>
        rw [dif_neg (by rw [hZero]; decide)]
      · next hZero =>
        rw [dif_pos (Nat.pos_of_ne_zero fun h => hZero (BitVec.eq_of_toNat_eq h))]
        rfl
    · simp only [toNat_one_append]
      congr 1

theorem ofFields_spec (s : Sign) (e : BitVec 11) (m : BitVec 52) :
    Canonical (ofFields s e m) ∧ clamp (ofFields s e m) = ofFields s e m := by
  have hm := m.isLt
  have he := e.isLt
  rw [ofFields]
  split
  · split
    · exact ⟨trivial, rfl⟩
    · exact ⟨trivial, rfl⟩
  · next hGreatest =>
    split
    · split
      · exact ⟨⟨by omega, by omega, .inr rfl⟩, by rw [clamp, if_pos (by decide)]⟩
      · exact ⟨trivial, rfl⟩
    · next hLeast =>
      have hUp : e.toNat ≠ 2047 := fun h => hGreatest (BitVec.eq_of_toNat_eq h)
      have hLow : e.toNat ≠ 0 := fun h => hLeast (BitVec.eq_of_toNat_eq h)
      exact ⟨⟨by omega, by omega, .inl (by omega)⟩, by rw [clamp, if_pos (by omega)]⟩

theorem unpack_packComponents (s : Sign) (e : BitVec 11) (m : BitVec 52) :
    UnpackedFloat.unpack .binary64 (packComponents .binary64 s e m) = ofFields s e m := by
  rw [unpack_eq_ofFields, unpackSign_packComponents, unpackExponent_packComponents,
    unpackMantissa_packComponents]

/-- A mantissa that fills its bits is stored without the first one. -/
theorem ofFields_full {m : Nat} {e : Int} (s : Sign) (hm : 0 < m) (hLow : 2 ^ 52 ≤ m) (hHigh : m < 2 ^ 53)
    (hLeast : -1074 ≤ e) (hGreatest : e ≤ 971) :
    ofFields s (BitVec.ofNat 11 (e + 1075).toNat) (BitVec.ofNat 52 m) = .finite s m e hm := by
  have hMantissa : (BitVec.ofNat 52 m).toNat = m - 2 ^ 52 := by
    rw [BitVec.toNat_ofNat]
    omega
  have hExponent : (BitVec.ofNat 11 (e + 1075).toNat).toNat = (e + 1075).toNat := by
    rw [BitVec.toNat_ofNat]
    omega
  rw [ofFields, if_neg, if_neg]
  · congr 1
    · omega
    · omega
  · intro hZero
    rw [hZero] at hExponent
    change 0 = _ at hExponent
    omega
  · intro hOnes
    rw [hOnes] at hExponent
    change 2047 = _ at hExponent
    omega

theorem ofFields_least {m : Nat} (s : Sign) (hm : 0 < m) (hHigh : m < 2 ^ 52) :
    ofFields s 0#11 (BitVec.ofNat 52 m) = .finite s m (-1074) hm := by
  have hMantissa : (BitVec.ofNat 52 m).toNat = m := by
    rw [BitVec.toNat_ofNat]
    omega
  rw [ofFields, if_neg (by decide), if_pos rfl, dif_pos (by omega)]
  congr 1

/-- Storing keeps what has a mantissa and an exponent in range. -/
theorem unpack_pack {u : UnpackedFloat} (h : Canonical u) : (Float.Model.pack u).unpack = clamp u := by
  change UnpackedFloat.unpack .binary64 (UnpackedFloat.pack .binary64 u) = _
  cases u with
  | notANumber => rfl
  | infinity s => cases s <;> rfl
  | zero s => cases s <;> rfl
  | finite s m e hm =>
    obtain ⟨hLt, hLeast, hFull⟩ := h
    have hBias : (e + (Format.binary64.exponentBias : Nat) + (52 : Nat)).toNat = (e + 1075).toNat := by
      change (e + ((2 ^ 10 - 1 : Nat) : Int) + (52 : Nat)).toNat = _
      omega
    rw [UnpackedFloat.pack]
    dsimp only
    rw [hBias, clamp]
    by_cases hGreatest : e ≤ 971
    · rw [if_pos hGreatest, if_neg (by omega)]
      by_cases hBits : 2 ^ 52 ≤ m
      · have hLog : m.log2 + 1 = Format.binary64.mantissaBits := by
          have hUp := (Nat.log2_lt hm.ne').mpr hLt
          have hLow := (Nat.le_log2 hm.ne').mpr hBits
          change m.log2 + 1 = 53
          omega
        rw [if_pos hLog, unpack_packComponents]
        exact ofFields_full s hm hBits hLt hLeast hGreatest
      · have hLog : m.log2 + 1 ≠ Format.binary64.mantissaBits := by
          have hUp := (Nat.log2_lt hm.ne').mpr (Nat.lt_of_not_le hBits)
          change m.log2 + 1 ≠ 53
          omega
        obtain rfl := hFull.resolve_left hBits
        rw [if_neg hLog, unpack_packComponents]
        exact ofFields_least s hm (Nat.lt_of_not_le hBits)
    · rw [if_neg hGreatest, if_pos (by omega)]
      cases s <;> rfl

end TrackLayout.Binary64
