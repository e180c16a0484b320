import TrackLayout.Proofs.Binary64.Whole
import TrackLayout.Proofs.Geometry.CommonPoint

/-!
# Segments that meet

Two segments meet in either order or in none. At whole coordinates areas and
boxes are computed exactly. So segments between whole points meet if and only
if they have a point in common, which is then within both of their boxes.
-/
set_option autoImplicit false

namespace TrackLayout

open Binary64 Exact

theorem Rect.intersects_comm (r s : Rect) : r.intersects s = s.intersects r := by
  rw [Bool.eq_iff_iff]
  simp only [Rect.intersects, Bool.not_eq_true', Bool.or_eq_false_iff, decide_eq_false_iff_not]
  constructor
  · rintro ⟨⟨⟨hLeft, hRight⟩, hBelow⟩, hAbove⟩
    exact ⟨⟨⟨hRight, hLeft⟩, hAbove⟩, hBelow⟩
  · rintro ⟨⟨⟨hLeft, hRight⟩, hBelow⟩, hAbove⟩
    exact ⟨⟨⟨hRight, hLeft⟩, hAbove⟩, hBelow⟩

/-! ## Whole points -/

/-- Coordinates that a point has exactly. -/
structure PlanarPoint.At (p : Point) (a : PlanarPoint ℤ) : Prop where
  x : Denotes p.x a.x
  y : Denotes p.y a.y
  small : |a.x| ≤ 2 ^ 24 ∧ |a.y| ≤ 2 ^ 24

theorem PlanarPoint.At.defined {p : Point} {a : PlanarPoint ℤ} (h : p.At a) :
    p.x.isNaN = false ∧ p.y.isNaN = false :=
  ⟨h.x.isNaN, h.y.isNaN⟩

theorem PlanarPoint.exists_at {p : Point} (hx : IsWhole p.x) (hy : IsWhole p.y) : ∃ a, p.At a := by
  obtain ⟨m, hm, hmSmall⟩ := hx.exists_denotes
  obtain ⟨n, hn, hnSmall⟩ := hy.exists_denotes
  exact ⟨⟨m, n⟩, hm, hn, hmSmall, hnSmall⟩

theorem PlanarPoint.at_of_rational {p : Point} {a : PlanarPoint ℤ} (hx : rational? p.x = some (a.x : ℚ))
    (hy : rational? p.y = some (a.y : ℚ)) (hSmall : |a.x| ≤ 2 ^ 24 ∧ |a.y| ≤ 2 ^ 24) : p.At a where
  x := by exact_mod_cast denotes_rational hx
  y := by exact_mod_cast denotes_rational hy
  small := hSmall

/-- A product of two differences of small numbers has at most 50 bits. -/
theorem abs_sub_mul_sub_le {m n k l : ℤ} (hm : |m| ≤ 2 ^ 24) (hn : |n| ≤ 2 ^ 24) (hk : |k| ≤ 2 ^ 24)
    (hl : |l| ≤ 2 ^ 24) : |(m - n) * (k - l)| ≤ 2 ^ 50 := by
  have hLeft : |m - n| ≤ 2 ^ 25 := by
    rw [abs_le] at hm hn ⊢
    omega
  have hRight : |k - l| ≤ 2 ^ 25 := by
    rw [abs_le] at hk hl ⊢
    omega
  calc |(m - n) * (k - l)| = |m - n| * |k - l| := abs_mul _ _
    _ ≤ 2 ^ 25 * 2 ^ 25 := mul_le_mul hLeft hRight (abs_nonneg _) (by norm_num)
    _ = 2 ^ 50 := by norm_num

def PlanarSegment.whole (a b : PlanarPoint ℤ) : PlanarSegment ℝ := ⟨a.map Int.cast, b.map Int.cast⟩

namespace Segment

variable {s t : Segment} {a b c d p : PlanarPoint ℤ}

theorem denotes_cross {q : Point} (ha : s.start.At a) (hb : s.stop.At b) (hp : q.At p) :
    Denotes (s.cross q) ((area a b p : ℤ) : ℝ) := by
  have hSub {x y : Float} {m n : ℤ} (hx : Denotes x m) (hy : Denotes y n) (hm : |m| ≤ 2 ^ 24)
      (hn : |n| ≤ 2 ^ 24) : Denotes (x - y) ((m - n : ℤ) : ℝ) := by
    refine hx.sub_whole hy ?_
    rw [abs_le] at hm hn ⊢
    omega
  have hLeft := abs_sub_mul_sub_le hb.small.1 ha.small.1 hp.small.2 ha.small.2
  have hRight := abs_sub_mul_sub_le hb.small.2 ha.small.2 hp.small.1 ha.small.1
  have hForward := (hSub hb.x ha.x hb.small.1 ha.small.1).mul_whole
    (hSub hp.y ha.y hp.small.2 ha.small.2) (hLeft.trans (by norm_num))
  have hBackward := (hSub hb.y ha.y hb.small.2 ha.small.2).mul_whole
    (hSub hp.x ha.x hp.small.1 ha.small.1) (hRight.trans (by norm_num))
  refine hForward.sub_whole hBackward ?_
  rw [abs_le] at hLeft hRight ⊢
  omega

theorem area_whole (a b p : PlanarPoint ℤ) :
    area (a.map (Int.cast : ℤ → ℝ)) (b.map Int.cast) (p.map Int.cast) = ((area a b p : ℤ) : ℝ) := by
  simp only [area, PlanarPoint.map]
  push_cast
  ring

theorem opposed_iff_separatedBy (ha : s.start.At a) (hb : s.stop.At b) (hc : t.start.At c) (hd : t.stop.At d) :
    opposed (t.cross s.start) (t.cross s.stop) = true ↔
      (PlanarSegment.whole a b).SeparatedBy (PlanarSegment.whole c d) := by
  have hStart := denotes_cross hc hd ha
  have hStop := denotes_cross hc hd hb
  simp only [opposed, Bool.or_eq_true, Bool.and_eq_true, decide_eq_true_eq, denotes_zero.lt_iff hStart,
    denotes_zero.lt_iff hStop, hStart.lt_iff denotes_zero, hStop.lt_iff denotes_zero, ← area_whole]
  rfl

theorem on_iff_covers {v : Point} (ha : s.start.At a) (hb : s.stop.At b) (hp : v.At p) :
    (s.cross v == 0.0 && s.bounds.contains v) = true ↔ (PlanarSegment.whole a b).Covers (p.map Int.cast) := by
  have hCross : (s.cross v == 0.0) = true ↔ ((area a b p : ℤ) : ℝ) = 0 :=
    (denotes_cross ha hb hp).beq_iff denotes_zero
  have hBox : s.bounds.contains v = true ↔ (PlanarSegment.whole a b).Encloses (p.map Int.cast) := by
    simp only [bounds, Rect.spanning, Rect.contains, Bool.and_eq_true, decide_eq_true_eq,
      (denotes_minimum ha.x hb.x).le_iff hp.x, hp.x.le_iff (denotes_maximum ha.x hb.x),
      (denotes_minimum ha.y hb.y).le_iff hp.y, hp.y.le_iff (denotes_maximum ha.y hb.y)]
    constructor
    · rintro ⟨⟨⟨hxLow, hxHigh⟩, hyLow⟩, hyHigh⟩
      exact ⟨⟨hxLow, hxHigh⟩, hyLow, hyHigh⟩
    · rintro ⟨⟨hxLow, hxHigh⟩, hyLow, hyHigh⟩
      exact ⟨⟨⟨hxLow, hxHigh⟩, hyLow⟩, hyHigh⟩
  rw [Bool.and_eq_true, hCross, hBox, PlanarSegment.covers_iff, ← area_whole]
  rfl

section Ends

variable (ha : s.start.At a) (hb : s.stop.At b) (hc : t.start.At c) (hd : t.stop.At d)
include ha hb hc hd

theorem meets_iff : s.meets t = true ↔
    (PlanarSegment.whole a b).SeparatedBy (PlanarSegment.whole c d) ∧
        (PlanarSegment.whole c d).SeparatedBy (PlanarSegment.whole a b) ∨
      (PlanarSegment.whole c d).Covers (a.map Int.cast) ∨ (PlanarSegment.whole c d).Covers (b.map Int.cast) ∨
      (PlanarSegment.whole a b).Covers (c.map Int.cast) ∨ (PlanarSegment.whole a b).Covers (d.map Int.cast) := by
  rw [← opposed_iff_separatedBy ha hb hc hd, ← opposed_iff_separatedBy hc hd ha hb, ← on_iff_covers hc hd ha,
    ← on_iff_covers hc hd hb, ← on_iff_covers ha hb hc, ← on_iff_covers ha hb hd]
  simp only [meets, Bool.or_eq_true, Bool.and_eq_true, or_assoc]

theorem intersects_of_common_point {q : PlanarPoint ℝ} (hs : (PlanarSegment.whole a b).Covers q)
    (ht : (PlanarSegment.whole c d).Covers q) : s.bounds.intersects t.bounds = true := by
  obtain ⟨-, hOwn⟩ := PlanarSegment.covers_iff.mp hs
  obtain ⟨-, hOther⟩ := PlanarSegment.covers_iff.mp ht
  have hNot {x y x' y' : Float} {k l m n r : ℝ} (hx : Denotes x k) (hy : Denotes y l) (hx' : Denotes x' m)
      (hy' : Denotes y' n) (hHigh : r ≤ max k l) (hLow : min m n ≤ r) : ¬maximum x y < minimum x' y' := by
    rw [(denotes_maximum hx hy).lt_iff (denotes_minimum hx' hy')]
    exact not_lt.mpr (hLow.trans hHigh)
  simp only [Rect.intersects, Bool.not_eq_true', Bool.or_eq_false_iff, decide_eq_false_iff_not]
  refine ⟨⟨⟨?_, ?_⟩, ?_⟩, ?_⟩
  · exact hNot ha.x hb.x hc.x hd.x hOwn.x.2 hOther.x.1
  · exact hNot hc.x hd.x ha.x hb.x hOther.x.2 hOwn.x.1
  · exact hNot ha.y hb.y hc.y hd.y hOwn.y.2 hOther.y.1
  · exact hNot hc.y hd.y ha.y hb.y hOther.y.2 hOwn.y.1

/-- At whole coordinates segments meet if and only if they have a point in common. -/
theorem meets_iff_common_point : s.meets t = true ↔
    ∃ q, (PlanarSegment.whole a b).Covers q ∧ (PlanarSegment.whole c d).Covers q := by
  rw [meets_iff ha hb hc hd, PlanarSegment.common_point_iff]
  rfl

end Ends

/-- A segment across the whole range that passes half a unit below the origin. -/
def diagonal : Segment := ⟨⟨-16777216.0, -16777216.0⟩, ⟨16777216.0, 16777215.0⟩⟩

theorem meets_diagonal :
    (diagonal.start.At ⟨-16777216, -16777216⟩ ∧ diagonal.stop.At ⟨16777216, 16777215⟩) ∧
    (diagonal.meets ⟨⟨0.0, 0.0⟩, ⟨0.0, -1.0⟩⟩ = true ∧
      ∃ q, (PlanarSegment.whole ⟨-16777216, -16777216⟩ ⟨16777216, 16777215⟩).Covers q ∧
        (PlanarSegment.whole ⟨0, 0⟩ ⟨0, -1⟩).Covers q) ∧
    (diagonal.meets ⟨⟨0.0, 0.0⟩, ⟨0.0, 1.0⟩⟩ = false ∧
      ¬∃ q, (PlanarSegment.whole ⟨-16777216, -16777216⟩ ⟨16777216, 16777215⟩).Covers q ∧
        (PlanarSegment.whole ⟨0, 0⟩ ⟨0, 1⟩).Covers q) := by
  have hStart : diagonal.start.At ⟨-16777216, -16777216⟩ :=
    PlanarPoint.at_of_rational (by decide +kernel) (by decide +kernel) (by decide)
  have hStop : diagonal.stop.At ⟨16777216, 16777215⟩ :=
    PlanarPoint.at_of_rational (by decide +kernel) (by decide +kernel) (by decide)
  have hOrigin : (⟨0.0, 0.0⟩ : Point).At ⟨0, 0⟩ :=
    PlanarPoint.at_of_rational (by decide +kernel) (by decide +kernel) (by decide)
  have hBelow : (⟨0.0, -1.0⟩ : Point).At ⟨0, -1⟩ :=
    PlanarPoint.at_of_rational (by decide +kernel) (by decide +kernel) (by decide)
  have hAbove : (⟨0.0, 1.0⟩ : Point).At ⟨0, 1⟩ :=
    PlanarPoint.at_of_rational (by decide +kernel) (by decide +kernel) (by decide)
  have hMeets : diagonal.meets ⟨⟨0.0, 0.0⟩, ⟨0.0, -1.0⟩⟩ = true := by decide +kernel
  have hMisses : diagonal.meets ⟨⟨0.0, 0.0⟩, ⟨0.0, 1.0⟩⟩ = false := by decide +kernel
  refine ⟨⟨hStart, hStop⟩, ⟨hMeets, ?_⟩, hMisses, fun hCommon => ?_⟩
  · exact (meets_iff_common_point hStart hStop hOrigin hBelow).mp hMeets
  · exact Bool.false_ne_true (hMisses.symm.trans ((meets_iff_common_point hStart hStop hOrigin hAbove).mpr hCommon))

theorem intersects_of_meets (hs : (∃ a, s.start.At a) ∧ ∃ b, s.stop.At b)
    (ht : (∃ c, t.start.At c) ∧ ∃ d, t.stop.At d) (hMeets : s.meets t = true) :
    s.bounds.intersects t.bounds = true := by
  obtain ⟨⟨a, ha⟩, ⟨b, hb⟩⟩ := hs
  obtain ⟨⟨c, hc⟩, ⟨d, hd⟩⟩ := ht
  obtain ⟨q, hs, ht⟩ := PlanarSegment.common_point_iff.mpr ((meets_iff ha hb hc hd).mp hMeets)
  exact intersects_of_common_point ha hb hc hd hs ht

theorem meets_comm (s t : Segment) : s.meets t = t.meets s := by
  simp only [meets]
  ac_rfl

end Segment

end TrackLayout
