import TrackLayout.Proofs.Binary64.Numbers

/-!
# Values told by their numbers

The fields of a stored value tell its bits, so a value that is a number is told
by what it is unpacked to. Finite values that denote one number other than zero
are the same value; the two zeros differ in their sign.
-/
set_option autoImplicit false

namespace TrackLayout.Binary64

open Float.Model Float.Model.UnpackedFloat

theorem toBitVec_ofBitVec : ∀ b : BitVec 1, (Sign.ofBitVec b).toBitVec = b := by decide

/-- The bits are the three fields side by side. -/
theorem packComponents_unpack (b : BitVec Format.binary64.numBits) : packComponents .binary64
    (Sign.ofBitVec (unpackSign b)) (unpackExponent b) (unpackMantissa b) = b := by
  simp only [packComponents, toBitVec_ofBitVec, unpackSign, unpackExponent, unpackMantissa, BitVec.extractLsb]
  ext i hi
  grind

/-- Storing a value that is a number gives its fields back. -/
theorem pack_ofFields {s : Sign} {e : BitVec 11} {m : BitVec 52} (hNumber : ofFields s e m ≠ .notANumber) :
    UnpackedFloat.pack .binary64 (ofFields s e m) = packComponents .binary64 s e m := by
  have hm := m.isLt
  have he := e.isLt
  rw [ofFields] at hNumber ⊢
  split
  · next hTop =>
    rw [if_pos hTop] at hNumber
    split
    · next hInfinite =>
      rw [hTop, hInfinite]
      rfl
    · next hNaN =>
      rw [if_neg hNaN] at hNumber
      exact absurd rfl hNumber
  · next hTop =>
    split
    · next hLeast =>
      split
      · next hPos =>
        have hLog : m.toNat.log2 + 1 ≠ Format.binary64.mantissaBits := by
          have hUp := (Nat.log2_lt hPos.ne').mpr hm
          change m.toNat.log2 + 1 ≠ 53
          omega
        rw [UnpackedFloat.pack]
        dsimp only
        rw [if_neg (by decide), if_neg hLog, hLeast]
        exact congrArg (packComponents .binary64 s 0#11) (BitVec.ofNat_toNat 52 m)
      · next hZero =>
        have hNone : m = 0#52 := BitVec.eq_of_toNat_eq (Nat.eq_zero_of_not_pos hZero)
        rw [hLeast, hNone]
        rfl
    · next hLeast =>
      have hUp : e.toNat ≠ 2047 := fun h => hTop (BitVec.eq_of_toNat_eq h)
      have hBias : ((e.toNat : Int) - 1075 + (Format.binary64.exponentBias : Nat) + (52 : Nat)).toNat = e.toNat := by
        change ((e.toNat : Int) - 1075 + ((2 ^ 10 - 1 : Nat) : Int) + (52 : Nat)).toNat = _
        omega
      have hLog : (2 ^ 52 + m.toNat).log2 + 1 = Format.binary64.mantissaBits := by
        have hHigh := (Nat.log2_lt (n := 2 ^ 52 + m.toNat) (by omega)).mpr (show _ < 2 ^ 53 by omega)
        have hLow := (Nat.le_log2 (n := 2 ^ 52 + m.toNat) (by omega)).mpr (show 2 ^ 52 ≤ _ by omega)
        change (2 ^ 52 + m.toNat).log2 + 1 = 53
        omega
      rw [UnpackedFloat.pack]
      dsimp only
      rw [hBias, if_neg, if_pos hLog]
      · congr 1
        · exact BitVec.ofNat_toNat 11 e
        · exact BitVec.eq_of_toNat_eq (by rw [BitVec.toNat_ofNat]; omega)
      · omega

/-- A value needs no rounding. -/
theorem Denotes.rounds {x : Float} {v : ℝ} (hx : Denotes x v) : Rounds v v := by
  obtain ⟨-, w, hRounds, hReal⟩ := computes_self (canonical x) hx
  rwa [← Denotes.unique (x := x) hx hReal] at hRounds

theorem Denotes.isFinite {x : Float} {v : ℝ} (hx : Denotes x v) : x.isFinite = true := by
  change x.toModel.unpack.isFinite = true
  obtain ⟨-, s, h⟩ | ⟨s, m, e, hm, h, -⟩ := hx.unpack_cases <;> rw [h] <;> rfl

theorem exists_denotes {x : Float} (h : x.isFinite = true) : ∃ v, Denotes x v := by
  change x.toModel.unpack.isFinite = true at h
  cases hUnpack : x.toModel.unpack with
  | infinity s =>
    rw [hUnpack] at h
    cases h
  | notANumber =>
    rw [hUnpack] at h
    cases h
  | zero s => exact ⟨0, by rw [Denotes, hUnpack]; rfl⟩
  | finite s m e hm => exact ⟨signed s (m * 2 ^ e), by rw [Denotes, hUnpack]; rfl⟩

/-- Values that are numbers are told by what they are unpacked to. -/
theorem eq_of_unpack {x y : Float} (h : x.toModel.unpack = y.toModel.unpack)
    (hNumber : x.toModel.unpack ≠ .notANumber) : x = y := by
  have hPack {z : Float} (hz : z.toModel.unpack ≠ .notANumber) :
      UnpackedFloat.pack .binary64 z.toModel.unpack = z.toModel.toBits.toBitVec := by
    change UnpackedFloat.unpack _ _ ≠ _ at hz
    change UnpackedFloat.pack _ (UnpackedFloat.unpack _ _) = _
    rw [unpack_eq_ofFields] at hz ⊢
    rw [pack_ofFields hz, packComponents_unpack]
  have hBits : x.toModel.toBits = y.toModel.toBits := by
    rw [← UInt64.toBitVec_inj, ← hPack hNumber, ← hPack (h ▸ hNumber), h]
  obtain ⟨b, hb⟩ := x
  obtain ⟨c, hc⟩ := y
  cases hBits
  rfl

/-- A place tells the sign, the exponent and the mantissa. -/
theorem place_inj {s r : Sign} {m n : ℕ} {e f : ℤ} {hm : 0 < m} {hn : 0 < n}
    (h : place (.finite s m e hm) = place (.finite r n f hn)) :
    UnpackedFloat.finite s m e hm = .finite r n f hn := by
  cases s <;> cases r <;> simp only [place, toLex_inj, Prod.mk.injEq] at h
  · obtain ⟨-, hExponent, hMantissa⟩ := h
    obtain rfl : e = f := by omega
    obtain rfl : m = n := by omega
    rfl
  · omega
  · omega
  · obtain ⟨-, rfl, hMantissa⟩ := h
    obtain rfl : m = n := by omega
    rfl

/-- No two values denote one number other than zero. -/
theorem Denotes.eq {x y : Float} {v : ℝ} (hx : Denotes x v) (hy : Denotes y v) (hv : v ≠ 0) : x = y := by
  have hPlace : place x.toModel.unpack = place y.toModel.unpack := by
    have hBelow := (place_lt_iff (canonical x) (canonical y) hx hy).not.mpr (lt_irrefl v)
    have hAbove := (place_lt_iff (canonical y) (canonical x) hy hx).not.mpr (lt_irrefl v)
    exact le_antisymm (not_lt.mp hAbove) (not_lt.mp hBelow)
  obtain ⟨s, m, e, hm, hLeft, -⟩ := hx.unpack_cases.resolve_left fun h => hv h.1
  obtain ⟨r, n, f, hn, hRight, -⟩ := hy.unpack_cases.resolve_left fun h => hv h.1
  rw [hLeft, hRight] at hPlace
  refine eq_of_unpack ?_ ?_
  · rw [hLeft, hRight, place_inj hPlace]
  · rw [hLeft]
    exact UnpackedFloat.noConfusion

/-- The two values that denote zero. -/
theorem Denotes.eq_zero {x : Float} (hx : Denotes x 0) : ∃ s, x = .ofModel (.pack (.zero s)) := by
  obtain ⟨-, s, h⟩ | ⟨s, m, e, hm, -, hValue⟩ := hx.unpack_cases
  · have hStored : (Float.ofModel (.pack (.zero s))).toModel.unpack = .zero s :=
      unpack_pack (u := .zero s) trivial
    exact ⟨s, eq_of_unpack (h.trans hStored.symm) (by rw [h]; exact UnpackedFloat.noConfusion)⟩
  · have hSize := abs_signed s ((m : ℝ) * 2 ^ e)
    rw [← hValue, abs_zero, eq_comm, abs_eq_zero] at hSize
    exact absurd hSize (mul_pos (Nat.cast_pos.mpr hm) (two_zpow_pos e)).ne'

end TrackLayout.Binary64
