import TrackLayout.Geometry.Segment
import TrackLayout.Proofs.Binary64.Magnitude

/-!
# Distances do not depend on a direction

Two differences taken the opposite way round are of one magnitude, undefined
and infinite ones included, and the length of a hypotenuse only depends on the
magnitudes of its legs. So a distance is the same from either end, bit for bit.
-/
set_option autoImplicit false

namespace TrackLayout

namespace Binary64

open Float.Model Float.Model.UnpackedFloat

/-! ## Computed values -/

section Unpacked

variable {a b : UnpackedFloat}

theorem abs_roundWithAccuracy (s : Sign) (m : Nat) (e : Int) (acc : Accuracy) :
    (roundWithAccuracy .binary64 s m e acc).abs = roundWithAccuracy .binary64 .positive m e acc := by
  simp only [roundWithAccuracy]
  split
  · rfl
  · rfl

theorem abs_round (s : Sign) (m : Nat) (e : Int) :
    (round .binary64 s m e).abs = round .binary64 .positive m e := abs_roundWithAccuracy ..

theorem abs_normalize_neg (n e : Int) (zero : Sign) :
    (UnpackedFloat.normalize .binary64 (-n) e zero).abs = (UnpackedFloat.normalize .binary64 n e zero).abs := by
  rcases lt_trichotomy n 0 with hNeg | rfl | hPos
  · have hBelow : compare n 0 = .lt := compare_lt_iff_lt.mpr hNeg
    have hAbove : compare (-n) 0 = .gt := compare_gt_iff_gt.mpr (neg_pos.mpr hNeg)
    rw [UnpackedFloat.normalize, UnpackedFloat.normalize, hBelow, hAbove]
    dsimp only
    rw [abs_round, abs_round]
  · rfl
  · have hAbove : compare n 0 = .gt := compare_gt_iff_gt.mpr hPos
    have hBelow : compare (-n) 0 = .lt := compare_lt_iff_lt.mpr (neg_neg_of_pos hPos)
    rw [UnpackedFloat.normalize, UnpackedFloat.normalize, hBelow, hAbove]
    dsimp only
    rw [abs_round, abs_round, neg_neg]

theorem abs_unpackedSub_comm (a b : UnpackedFloat) :
    (UnpackedFloat.sub .binary64 a b).abs = (UnpackedFloat.sub .binary64 b a).abs := by
  cases a with
  | notANumber => cases b <;> rfl
  | infinity s =>
    cases b with
    | infinity r => cases s <;> cases r <;> rfl
    | _ => rfl
  | zero s =>
    cases b with
    | zero r => cases s <;> cases r <;> rfl
    | _ => rfl
  | finite s m e hm =>
    cases b with
    | finite r n f hn =>
      simp only [UnpackedFloat.sub, min_comm f e]
      rw [← abs_normalize_neg, neg_sub]
    | _ => rfl

theorem abs_mul_abs (a b : UnpackedFloat) :
    (UnpackedFloat.mul .binary64 a.abs b).abs = (UnpackedFloat.mul .binary64 a b).abs := by
  cases a <;> cases b <;> first
    | rfl
    | exact (abs_roundWithAccuracy ..).trans (abs_roundWithAccuracy ..).symm

theorem mul_abs_self (a : UnpackedFloat) :
    UnpackedFloat.mul .binary64 a.abs a.abs = UnpackedFloat.mul .binary64 a a := by
  cases a with
  | notANumber => rfl
  | infinity s => cases s <;> rfl
  | zero s => cases s <;> rfl
  | finite s m e hm => cases s <;> rfl

theorem abs_clamp (a : UnpackedFloat) : (clamp a).abs = clamp a.abs := by
  cases a with
  | finite s m e hm =>
    rw [clamp, UnpackedFloat.abs, clamp]
    split <;> rfl
  | _ => rfl

end Unpacked

/-! ## Magnitudes -/

/-- Two values that differ at most in their signs. -/
def SameSize (x y : Float) : Prop := x.toModel.unpack.abs = y.toModel.unpack.abs

theorem sameSize_sub_comm (x y : Float) : SameSize (x - y) (y - x) := by
  rw [SameSize, unpack_sub, unpack_sub, ← sub_eq_add, ← sub_eq_add, abs_clamp, abs_clamp, abs_unpackedSub_comm]

namespace SameSize

variable {x y x' y' : Float}

theorem abs (h : SameSize x x') : x.abs = x'.abs :=
  congrArg (fun u => Float.ofModel (.pack u)) h

theorem isInf (h : SameSize x x') : x.isInf = x'.isInf := by
  have hAbs (u : UnpackedFloat) : u.abs.isInf = u.isInf := by cases u <;> rfl
  change x.toModel.unpack.isInf = x'.toModel.unpack.isInf
  rw [← hAbs, h, hAbs]

theorem mul_right (h : SameSize x x') (c : Float) : SameSize (x * c) (x' * c) := by
  rw [SameSize, unpack_mul, unpack_mul, abs_clamp, abs_clamp, ← abs_mul_abs, h, abs_mul_abs]

theorem mul_self (h : SameSize x x') : x * x = x' * x' := by
  have hSquare (z : Float) : z * z =
      .ofModel (.pack (UnpackedFloat.mul .binary64 z.toModel.unpack.abs z.toModel.unpack.abs)) := by
    rw [mul_abs_self]
    rfl
  rw [hSquare, h, hSquare]

theorem hypot (hx : SameSize x x') (hy : SameSize y y') : hypot x y = hypot x' y' := by
  have hRoot (c : Float) : Float.sqrt ((x * c) * (x * c) + (y * c) * (y * c)) =
      Float.sqrt ((x' * c) * (x' * c) + (y' * c) * (y' * c)) := by
    rw [(hx.mul_right c).mul_self, (hy.mul_right c).mul_self]
  simp only [Binary64.hypot, hx.isInf, hy.isInf, hx.abs, hy.abs, hRoot, hx.mul_self, hy.mul_self]

end SameSize

end Binary64

theorem PlanarPoint.distance_comm (p q : Point) : p.distance q = q.distance p :=
  (Binary64.sameSize_sub_comm p.x q.x).hypot (Binary64.sameSize_sub_comm p.y q.y)

end TrackLayout
