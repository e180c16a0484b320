import TrackLayout.Decimal.Style
import TrackLayout.Geometry.Point

/-!
# Rectangles

Axis-parallel rectangles whose edges belong to them. The type itself does not
order the corners: a rectangle that was read, or one around an undefined
point, may be inverted or undefined. Only `Rect.make?` checks.
-/
set_option autoImplicit false

namespace TrackLayout

structure Rect where
  minX : Float
  minY : Float
  maxX : Float
  maxY : Float
  deriving DecidableEq, Inhabited

inductive GeometryError where
  | invertedRect (corners : Rect)
  | emptyPointSet
  deriving DecidableEq

def GeometryError.message : GeometryError → String
  | .invertedRect r =>
    let w := NumberStyle.plain.write
    "rectangle max (" ++ w r.maxX ++ ", " ++ w r.maxY ++ ") lies below min (" ++ w r.minX ++ ", " ++
      w r.minY ++ ")"
  | .emptyPointSet => "cannot compute the bounds of an empty point set"

namespace Rect

open Binary64 (minimum maximum)

def make? (minX minY maxX maxY : Float) : Except GeometryError Rect :=
  if maxX < minX || maxY < minY then .error (.invertedRect ⟨minX, minY, maxX, maxY⟩)
  else .ok ⟨minX, minY, maxX, maxY⟩

/-- The smallest rectangle with both points. -/
def spanning (p q : Point) : Rect :=
  ⟨minimum p.x q.x, minimum p.y q.y, maximum p.x q.x, maximum p.y q.y⟩

/-- The square around a point that reaches `radius` to each side. -/
def around (center : Point) (radius : Float) : Rect :=
  let reach := radius.abs
  ⟨center.x - reach, center.y - reach, center.x + reach, center.y + reach⟩

def width (r : Rect) : Float := r.maxX - r.minX

def height (r : Rect) : Float := r.maxY - r.minY

def area (r : Rect) : Float := r.width * r.height

/-- Length of all four sides together. -/
def perimeter (r : Rect) : Float := 2.0 * r.width + 2.0 * r.height

def contains (r : Rect) (p : Point) : Bool :=
  r.minX ≤ p.x && p.x ≤ r.maxX && r.minY ≤ p.y && p.y ≤ r.maxY

/-- No side of one lies beyond the opposite side of the other; undefined sides lie beyond nothing. -/
def intersects (r s : Rect) : Bool :=
  !(r.maxX < s.minX || s.maxX < r.minX || r.maxY < s.minY || s.maxY < r.minY)

def union (r s : Rect) : Rect :=
  ⟨minimum r.minX s.minX, minimum r.minY s.minY, maximum r.maxX s.maxX, maximum r.maxY s.maxY⟩

def intersection? (r s : Rect) : Option Rect :=
  if r.intersects s then
    some ⟨maximum r.minX s.minX, maximum r.minY s.minY, minimum r.maxX s.maxX, minimum r.maxY s.maxY⟩
  else none

/-- The smallest rectangle with all points. -/
def bounds? : List Point → Except GeometryError Rect
  | [] => .error .emptyPointSet
  | p :: rest => .ok (rest.foldl (fun r q => r.union (spanning q q)) (spanning p p))

end Rect

end TrackLayout
