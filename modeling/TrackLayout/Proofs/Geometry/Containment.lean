import TrackLayout.Geometry.Rect
import TrackLayout.Proofs.Binary64.Order

/-!
# Rectangles within rectangles

A rectangle lies within another one if none of its sides lies beyond the same
side of the other. Inverted and unbounded rectangles are compared side by side
like any other; only a side that is not a number lies within nothing. What
meets a rectangle meets every rectangle around it.
-/
set_option autoImplicit false

namespace TrackLayout.Rect

open Binary64 (minimum maximum)

/-- No side is undefined. Sides may be infinite or the wrong way round. -/
structure Defined (r : Rect) : Prop where
  minX : r.minX.isNaN = false
  minY : r.minY.isNaN = false
  maxX : r.maxX.isNaN = false
  maxY : r.maxY.isNaN = false

instance (r : Rect) : Decidable r.Defined :=
  decidable_of_iff (r.minX.isNaN = false ∧ r.minY.isNaN = false ∧ r.maxX.isNaN = false ∧
      r.maxY.isNaN = false)
    ⟨fun ⟨a, b, c, d⟩ => ⟨a, b, c, d⟩, fun ⟨a, b, c, d⟩ => ⟨a, b, c, d⟩⟩

structure Within (r s : Rect) : Prop where
  minX : s.minX ≤ r.minX
  minY : s.minY ≤ r.minY
  maxX : r.maxX ≤ s.maxX
  maxY : r.maxY ≤ s.maxY

variable {r s t : Rect}

theorem Within.refl (h : r.Defined) : r.Within r :=
  ⟨Binary64.le_refl h.minX, Binary64.le_refl h.minY, Binary64.le_refl h.maxX, Binary64.le_refl h.maxY⟩

theorem Within.trans (h₁ : r.Within s) (h₂ : s.Within t) : r.Within t where
  minX := Binary64.le_trans h₂.minX h₁.minX
  minY := Binary64.le_trans h₂.minY h₁.minY
  maxX := Binary64.le_trans h₁.maxX h₂.maxX
  maxY := Binary64.le_trans h₁.maxY h₂.maxY

theorem Defined.union (hr : r.Defined) (hs : s.Defined) : (r.union s).Defined where
  minX := Binary64.isNaN_minimum hr.minX hs.minX
  minY := Binary64.isNaN_minimum hr.minY hs.minY
  maxX := Binary64.isNaN_maximum hr.maxX hs.maxX
  maxY := Binary64.isNaN_maximum hr.maxY hs.maxY

theorem within_union_left (hr : r.Defined) (hs : s.Defined) : r.Within (r.union s) where
  minX := (Binary64.minimum_le hr.minX hs.minX).1
  minY := (Binary64.minimum_le hr.minY hs.minY).1
  maxX := (Binary64.le_maximum hr.maxX hs.maxX).1
  maxY := (Binary64.le_maximum hr.maxY hs.maxY).1

theorem within_union_right (hr : r.Defined) (hs : s.Defined) : s.Within (r.union s) where
  minX := (Binary64.minimum_le hr.minX hs.minX).2
  minY := (Binary64.minimum_le hr.minY hs.minY).2
  maxX := (Binary64.le_maximum hr.maxX hs.maxX).2
  maxY := (Binary64.le_maximum hr.maxY hs.maxY).2

theorem Within.intersects (h : r.Within s) (hr : r.intersects t = true) : s.intersects t = true := by
  simp only [Rect.intersects, Bool.not_eq_true', Bool.or_eq_false_iff, decide_eq_false_iff_not] at hr ⊢
  obtain ⟨⟨⟨hLeft, hRight⟩, hBelow⟩, hAbove⟩ := hr
  refine ⟨⟨⟨?_, ?_⟩, ?_⟩, ?_⟩
  · exact fun hlt => hLeft (Binary64.lt_of_le_of_lt h.maxX hlt)
  · exact fun hlt => hRight (Binary64.lt_of_lt_of_le hlt h.minX)
  · exact fun hlt => hBelow (Binary64.lt_of_le_of_lt h.maxY hlt)
  · exact fun hlt => hAbove (Binary64.lt_of_lt_of_le hlt h.minY)

/-- The rectangle around two points is undefined only if one of the points is. -/
theorem Defined.spanning {p q : Point} (hp : p.x.isNaN = false ∧ p.y.isNaN = false)
    (hq : q.x.isNaN = false ∧ q.y.isNaN = false) : (Rect.spanning p q).Defined where
  minX := Binary64.isNaN_minimum hp.1 hq.1
  minY := Binary64.isNaN_minimum hp.2 hq.2
  maxX := Binary64.isNaN_maximum hp.1 hq.1
  maxY := Binary64.isNaN_maximum hp.2 hq.2

end TrackLayout.Rect
