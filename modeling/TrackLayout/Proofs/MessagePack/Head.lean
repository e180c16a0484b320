import Mathlib
import TrackLayout.MessagePack.Reader

/-!
# Heads delimit themselves

The head of a value says by its first byte how many bytes it has, so a reader
of heads never looks beyond the one it reads. It takes every head that is
written, whatever follows, and fails on every head that was cut short.
-/
set_option autoImplicit false

namespace TrackLayout.MessagePack

/-! ## Words -/

theorem length_bigEndian (n count : Nat) : (bigEndian n count).length = count := by
  induction count generalizing n with
  | zero => rfl
  | succ count ih => rw [bigEndian, List.length_append, ih, List.length_singleton]

theorem ofBigEndian_bigEndian {n count : Nat} (h : n < 256 ^ count) : ofBigEndian (bigEndian n count) = n := by
  induction count generalizing n with
  | zero =>
    rw [Nat.pow_zero, Nat.lt_one_iff] at h
    rw [h]
    rfl
  | succ count ih =>
    have hHigh : n / 256 < 256 ^ count := by
      rw [Nat.pow_succ] at h
      exact Nat.div_lt_of_lt_mul (Nat.mul_comm .. ▸ h)
    have hLow : n.toUInt8.toNat = n % 256 := UInt8.toNat_ofNat'
    have hRest := ih hHigh
    rw [ofBigEndian] at hRest ⊢
    rw [bigEndian, List.foldl_append, hRest, List.foldl_cons, List.foldl_nil, hLow]
    exact Nat.div_add_mod' n 256

/-! ## Readers -/

/-- What a reader does is decided by the bytes it takes. -/
structure Local {α : Type} (read : Bytes → Option (α × Bytes)) : Prop where
  extend : ∀ {p a rest}, read p = some (a, rest) → ∀ t, read (p ++ t) = some (a, rest ++ t)
  length_le : ∀ {p a rest}, read p = some (a, rest) → rest.length ≤ p.length

/-- A reader takes these bytes, whatever follows, and fails on fewer of them. -/
structure Delimits {α : Type} (read : Bytes → Option (α × Bytes)) (bytes : Bytes) (a : α) : Prop where
  whole : ∀ rest, read (bytes ++ rest) = some (a, rest)
  cut : ∀ {p}, p <+: bytes → p ≠ bytes → read p = none

namespace Local

variable {α β : Type} {read : Bytes → Option (α × Bytes)}

theorem delimits (h : Local read) {bytes : Bytes} {a : α} (hRead : read bytes = some (a, [])) :
    Delimits read bytes a where
  whole rest := by
    have hWhole := h.extend hRead rest
    rwa [List.nil_append] at hWhole
  cut {p} hPrefix hNe := by
    obtain ⟨q, rfl⟩ := hPrefix
    cases hCut : read p with
    | none => rfl
    | some out =>
      -- a head read from the part would leave what was cut off unread in the whole
      have hWhole := h.extend hCut q
      rw [hRead, Option.some.injEq, Prod.mk.injEq] at hWhole
      have hq := (List.append_eq_nil_iff.mp hWhole.2.symm).2
      rw [hq, List.append_nil] at hNe
      exact absurd rfl hNe

theorem pure (a : α) : Local fun bytes => some (a, bytes) where
  extend h t := by
    cases h
    rfl
  length_le h := by
    cases h
    exact Nat.le_refl _

theorem none : Local fun _ => (Option.none : Option (α × Bytes)) where
  extend h := nomatch h
  length_le h := nomatch h

theorem bind (h : Local read) {next : α → Bytes → Option (β × Bytes)} (hNext : ∀ a, Local (next a)) :
    Local fun bytes => (read bytes).bind fun out => next out.1 out.2 where
  extend {p b rest} hp t := by
    obtain ⟨out, hOut, hRest⟩ := Option.bind_eq_some_iff.mp hp
    rw [h.extend hOut t, Option.bind_some]
    exact (hNext out.1).extend hRest t
  length_le {p b rest} hp := by
    obtain ⟨out, hOut, hRest⟩ := Option.bind_eq_some_iff.mp hp
    exact ((hNext out.1).length_le hRest).trans (h.length_le hOut)

theorem map (h : Local read) (f : α → β) :
    Local fun bytes => (read bytes).map fun out => (f out.1, out.2) := by
  have hMap := h.bind fun a => Local.pure (f a)
  simpa only [Option.bind_some, Option.map_eq_bind, Function.comp_def] using hMap

end Local

theorem take?_eq {count : Nat} {taken : Bytes} (h : taken.length = count) (rest : Bytes) :
    take? count (taken ++ rest) = some (taken, rest) := by
  subst h
  simp [take?, List.splitAt_eq]

theorem local_take? (count : Nat) : Local (take? count) where
  extend {p taken rest} hp t := by
    rw [take?, List.splitAt_eq] at hp
    dsimp only at hp
    split at hp
    · next hCount =>
      cases hp
      rw [← take?_eq hCount, ← List.append_assoc, List.take_append_drop]
    · cases hp
  length_le {p taken rest} hp := by
    rw [take?, List.splitAt_eq] at hp
    dsimp only at hp
    split at hp
    · cases hp
      exact List.length_drop .. ▸ Nat.sub_le ..
    · cases hp

theorem local_word? (count : Nat) : Local (word? count) := (local_take? count).map ofBigEndian

theorem local_chunk? (make : Bytes → MessagePack) (count : Nat) : Local (chunk? make count) :=
  (local_take? count).map fun taken => Head.value (make taken)

theorem local_sized? (make : Bytes → MessagePack) (width extra : Nat) : Local (sized? make width extra) :=
  (local_word? width).bind fun count => local_chunk? make (count + extra)

theorem local_counted? (make : Nat → Head) (width : Nat) : Local (counted? make width) :=
  (local_word? width).map make

theorem local_unsigned? (count : Nat) : Local (unsigned? count) :=
  (local_word? count).map fun n => Head.value (.unsigned n.toUInt64)

theorem local_signed? (count : Nat) : Local (signed? count) :=
  (local_word? count).map fun n => Head.value <| .signed <| Int64.ofInt <|
    if n < Nat.pow 2 (8 * count - 1) then n else (n : Int) - Int.pow 2 (8 * count)

theorem Head.local_ofMarker? (marker : UInt8) : Local (ofMarker? marker) := by
  unfold Head.ofMarker?
  dsimp only
  split
  · exact .pure _
  split
  · exact .pure _
  split
  · exact .pure _
  split
  · exact local_chunk? ..
  split
  · exact .pure _
  split
  all_goals first
    | exact .pure _
    | exact .none
    | exact local_sized? ..
    | exact local_chunk? ..
    | exact local_counted? ..
    | exact local_unsigned? _
    | exact local_signed? _
    | exact (local_word? _).map fun n => Head.value (.float (Binary64.ofSingle n))
    | exact (local_word? _).map fun n => Head.value (.float (.ofBits n.toUInt64))

/-! ## Written heads -/

/-- The head at the start of some bytes. -/
def Head.ofBytes? : Bytes → Option (Head × Bytes)
  | [] => none
  | marker :: rest => ofMarker? marker rest

theorem Head.local_ofBytes? : Local ofBytes? where
  extend {p head rest} hp t := by
    cases p with
    | nil => cases hp
    | cons marker p => exact (local_ofMarker? marker).extend hp t
  length_le {p head rest} hp := by
    cases p with
    | nil => cases hp
    | cons marker p => exact ((local_ofMarker? marker).length_le hp).trans (Nat.le_succ _)

theorem word?_bigEndian {n count : Nat} (h : n < 256 ^ count) :
    word? count (bigEndian n count) = some (n, []) := by
  have hTake := take?_eq (length_bigEndian n count) []
  rw [List.append_nil] at hTake
  rw [word?, hTake]
  simp only [Option.map_some, ofBigEndian_bigEndian h]

theorem chunk?_self (make : Bytes → MessagePack) (bytes : Bytes) :
    chunk? make bytes.length bytes = some (.value (make bytes), []) := by
  have hTake := take?_eq (rfl : bytes.length = bytes.length) []
  rw [List.append_nil] at hTake
  rw [chunk?, hTake, Option.map_some]

theorem sized?_eq (make : Bytes → MessagePack) {bytes : Bytes} {width extra count : Nat}
    (hCount : count < 256 ^ width) (hLength : bytes.length = count + extra) :
    sized? make width extra (bigEndian count width ++ bytes) = some (.value (make bytes), []) := by
  have hWord := (local_word? width).extend (word?_bigEndian hCount) bytes
  have hChunk := chunk?_self make bytes
  rw [hLength] at hChunk
  rw [sized?, hWord]
  exact hChunk

theorem counted?_bigEndian (make : Nat → Head) {count : Nat} (width : Nat) (h : count < 256 ^ width) :
    counted? make width (bigEndian count width) = some (make count, []) := by
  rw [counted?, word?_bigEndian h, Option.map_some]

theorem unsigned?_bigEndian {n count : Nat} (h : n < 256 ^ count) :
    unsigned? count (bigEndian n count) = some (.value (.unsigned n.toUInt64), []) := by
  rw [unsigned?, word?_bigEndian h, Option.map_some]

/-- A negative number in two's complement. -/
theorem signed?_bigEndian {n : Int} {count : Nat} (hCount : 0 < count) (hNeg : n < 0)
    (hLow : -(2 ^ (8 * count - 1) : Nat) ≤ n) :
    signed? count (bigEndian (n + Int.pow 2 (8 * count)).toNat count) =
      some (.value (.signed (Int64.ofInt n)), []) := by
  have hPow : Int.pow 2 (8 * count) = ((2 ^ (8 * count) : Nat) : Int) := (Int.natCast_pow 2 (8 * count)).symm
  have hHalf : (2 ^ (8 * count) : Nat) = 2 * 2 ^ (8 * count - 1) := by
    rw [← Nat.pow_succ']
    congr 1
    omega
  have hBytes : (256 : Nat) ^ count = 2 ^ (8 * count) := (Nat.pow_mul 2 8 count).symm
  rw [hPow]
  have hFits : (n + (2 ^ (8 * count) : Nat)).toNat < 256 ^ count := by omega
  have hHigh : ¬(n + (2 ^ (8 * count) : Nat)).toNat < Nat.pow 2 (8 * count - 1) := by
    change ¬_ < 2 ^ (8 * count - 1)
    omega
  have hBack : (((n + (2 ^ (8 * count) : Nat)).toNat : Nat) : Int) - (2 ^ (8 * count) : Nat) = n := by omega
  rw [signed?, word?_bigEndian hFits, Option.map_some]
  simp only [if_neg hHigh, hPow, hBack]

/-! ### First bytes that say it all -/

theorem toNat_toUInt8 {k : Nat} (h : k < 256) : k.toUInt8.toNat = k := UInt8.toNat_ofNat_of_lt' h

namespace Head

variable {k : Nat} {marker : UInt8} (rest : Bytes)

theorem ofMarker?_unsigned (hMarker : marker.toNat = k) (h : k < 0x80) :
    ofMarker? marker rest = some (.value (.unsigned k.toUInt64), rest) := by
  have hWide : marker.toUInt64 = k.toUInt64 := by
    apply UInt64.toNat.inj
    rw [UInt8.toNat_toUInt64, hMarker]
    exact (UInt64.toNat_ofNat_of_lt' (Nat.lt_trans h (by decide))).symm
  simp [ofMarker?, UInt8.lt_iff_toNat_lt, hMarker, h, hWide]

theorem ofMarker?_map (hMarker : marker.toNat = 0x80 + k) (h : k < 0x10) :
    ofMarker? marker rest = some (.map k, rest) := by
  have hHigh : 0x80 + k < 0x90 := by omega
  simp [ofMarker?, UInt8.lt_iff_toNat_lt, hMarker, hHigh]

theorem ofMarker?_array (hMarker : marker.toNat = 0x90 + k) (h : k < 0x10) :
    ofMarker? marker rest = some (.array k, rest) := by
  have hLow : ¬0x90 + k < 0x80 := by omega
  have hHigh : 0x90 + k < 0xa0 := by omega
  simp [ofMarker?, UInt8.lt_iff_toNat_lt, hMarker, hLow, hHigh]

theorem ofMarker?_text (hMarker : marker.toNat = 0xa0 + k) (h : k < 0x20) :
    ofMarker? marker rest = chunk? .text k rest := by
  have hLow : ∀ least ≤ 0xa0, ¬0xa0 + k < least := fun least hLeast => by omega
  have hHigh : 0xa0 + k < 0xc0 := by omega
  simp [ofMarker?, UInt8.lt_iff_toNat_lt, hMarker, hLow, hHigh]

theorem ofMarker?_signed {n : Int} (hMarker : (marker.toNat : Int) = n + 0x100) (hLow : -0x20 ≤ n) :
    ofMarker? marker rest = some (.value (.signed (Int64.ofInt n)), rest) := by
  have hOther : ∀ least ≤ 0xe0, ¬marker.toNat < least := fun least hLeast => by omega
  have hBack : (marker.toNat : Int) - 0x100 = n := by omega
  simp [ofMarker?, UInt8.lt_iff_toNat_lt, UInt8.le_iff_toNat_le, hOther, hBack]

end Head

/-! ### Heads as they are written -/

open Head

theorem delimits_cons {marker : UInt8} {tail : Bytes} {head : Head}
    (h : ofMarker? marker tail = some (head, [])) : Delimits ofBytes? (marker :: tail) head :=
  local_ofBytes?.delimits h

theorem delimits_unsigned (n : UInt64) : Delimits ofBytes? (unsignedBytes n.toNat) (.value (.unsigned n)) := by
  have hSame : n.toNat.toUInt64 = n := UInt64.ofNat_toNat
  have hLt : n.toNat < 2 ^ 64 := n.toNat_lt
  rw [unsignedBytes]
  split
  · next h =>
    refine delimits_cons ?_
    rw [ofMarker?_unsigned [] (toNat_toUInt8 (by omega)) h, hSame]
  · have hWord : ∀ count, n.toNat < 256 ^ count →
        unsigned? count (bigEndian n.toNat count) = some (.value (.unsigned n), []) := fun _ h => by
      rw [unsigned?_bigEndian h, hSame]
    split
    · next h => exact delimits_cons (hWord 1 h)
    · split
      · next h => exact delimits_cons (hWord 2 h)
      · split
        · next h => exact delimits_cons (hWord 4 h)
        · exact delimits_cons (hWord 8 hLt)

/-- A negative integer reads back as it is. -/
theorem delimits_signed {n : Int64} (h : n.toInt < 0) :
    Delimits ofBytes? (signedBytes n.toInt) (.value (.signed n)) := by
  have hSame : Int64.ofInt n.toInt = n := Int64.ofInt_toInt n
  have hLe : -2 ^ 63 ≤ n.toInt := n.le_toInt
  have hWord : ∀ count, 0 < count → -(2 ^ (8 * count - 1) : Nat) ≤ n.toInt →
      signed? count (bigEndian (n.toInt + Int.pow 2 (8 * count)).toNat count) = some (.value (.signed n), []) :=
    fun _ hCount hLow => by rw [signed?_bigEndian hCount h hLow, hSame]
  rw [signedBytes, if_neg (Int.not_le.mpr h)]
  split
  · next hLow =>
    have hByte := toNat_toUInt8 (show (n.toInt + Int.pow 2 (8 * 1)).toNat < 256 by
      change (n.toInt + 256).toNat < 256
      omega)
    refine delimits_cons ((ofMarker?_signed [] ?_ hLow).trans ?_)
    · rw [hByte]
      change ((n.toInt + 256).toNat : Int) = n.toInt + 256
      omega
    · rw [hSame]
  · split
    · next hLow => exact delimits_cons (hWord 1 (by decide) hLow)
    · split
      · next hLow => exact delimits_cons (hWord 2 (by decide) hLow)
      · split
        · next hLow => exact delimits_cons (hWord 4 (by decide) hLow)
        · exact delimits_cons (hWord 8 (by decide) hLe)

theorem delimits_float (x : Float) :
    Delimits ofBytes? (0xcb :: bigEndian x.toBits.toNat 8) (.value (.float x)) := by
  have hSame : Float.ofBits x.toBits.toNat.toUInt64 = x := by
    rw [show x.toBits.toNat.toUInt64 = x.toBits from UInt64.ofNat_toNat, Float.ofBits_toBits]
  have hWord : word? 8 (bigEndian x.toBits.toNat 8) = some (x.toBits.toNat, []) :=
    word?_bigEndian x.toBits.toNat_lt
  have hMarker : ∀ tail, ofMarker? 0xcb tail =
      (word? 8 tail).map fun out => (.value (.float (.ofBits out.1.toUInt64)), out.2) := fun _ => rfl
  refine delimits_cons ?_
  rw [hMarker, hWord, Option.map_some, hSame]

theorem delimits_text {bytes : Bytes} (h : bytes.length < 2 ^ 32) :
    Delimits ofBytes? (textHead bytes.length ++ bytes) (.value (.text bytes)) := by
  have hSized : ∀ width, bytes.length < 256 ^ width →
      sized? .text width 0 (bigEndian bytes.length width ++ bytes) = some (.value (.text bytes), []) :=
    fun _ hCount => sized?_eq .text hCount rfl
  rw [textHead]
  split
  · next hShort =>
    refine delimits_cons ?_
    exact (ofMarker?_text _ (toNat_toUInt8 (by omega)) hShort).trans (chunk?_self .text bytes)
  · split
    · next hCount => exact delimits_cons (hSized 1 hCount)
    · split
      · next hCount => exact delimits_cons (hSized 2 hCount)
      · exact delimits_cons (hSized 4 h)

theorem delimits_binary {bytes : Bytes} (h : bytes.length < 2 ^ 32) :
    Delimits ofBytes? (binaryHead bytes.length ++ bytes) (.value (.binary bytes)) := by
  have hSized : ∀ width, bytes.length < 256 ^ width →
      sized? .binary width 0 (bigEndian bytes.length width ++ bytes) = some (.value (.binary bytes), []) :=
    fun _ hCount => sized?_eq .binary hCount rfl
  rw [binaryHead]
  split
  · next hCount => exact delimits_cons (hSized 1 hCount)
  · split
    · next hCount => exact delimits_cons (hSized 2 hCount)
    · exact delimits_cons (hSized 4 h)

/-- The byte that says of what kind an extension is does not count. -/
theorem delimits_extension {bytes : Bytes} (hKind : bytes ≠ []) (h : bytes.length ≤ 2 ^ 32) :
    Delimits ofBytes? (extensionHead (bytes.length - 1) ++ bytes) (.value (.extension bytes)) := by
  have hLength := List.length_pos_iff.mpr hKind
  have hSized : ∀ width, bytes.length - 1 < 256 ^ width →
      sized? .extension width 1 (bigEndian (bytes.length - 1) width ++ bytes) =
        some (.value (.extension bytes), []) :=
    fun _ hCount => sized?_eq .extension hCount (by omega)
  rw [extensionHead]
  split
  · next hCount => exact delimits_cons (hSized 1 hCount)
  · split
    · next hCount => exact delimits_cons (hSized 2 hCount)
    · exact delimits_cons (hSized 4 (by omega))

theorem delimits_array {count : Nat} (h : count < 2 ^ 32) :
    Delimits ofBytes? (arrayHead count) (.array count) := by
  rw [arrayHead]
  split
  · next hShort => exact delimits_cons (ofMarker?_array [] (toNat_toUInt8 (by omega)) hShort)
  · split
    · next hCount => exact delimits_cons (counted?_bigEndian .array 2 hCount)
    · exact delimits_cons (counted?_bigEndian .array 4 h)

theorem delimits_map {count : Nat} (h : count < 2 ^ 32) :
    Delimits ofBytes? (mapHead count) (.map count) := by
  rw [mapHead]
  split
  · next hShort => exact delimits_cons (ofMarker?_map [] (toNat_toUInt8 (by omega)) hShort)
  · split
    · next hCount => exact delimits_cons (counted?_bigEndian .map 2 hCount)
    · exact delimits_cons (counted?_bigEndian .map 4 h)

end TrackLayout.MessagePack
