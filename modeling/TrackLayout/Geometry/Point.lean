import TrackLayout.Binary64.Arctangent
import TrackLayout.Binary64.Hypotenuse
import TrackLayout.Binary64.Remainder

/-!
# Points and directions

Points of the local plane, in metres, and the directions under which they see
each other, in radians. A difference of angles is taken around the circle, a
deviation from an axis disregards which way either side points.
-/
set_option autoImplicit false

namespace TrackLayout

@[ext]
structure PlanarPoint (α : Type) where
  x : α
  y : α
  deriving DecidableEq, Inhabited

abbrev Point := PlanarPoint Float

namespace PlanarPoint

def map {α β : Type} (f : α → β) (p : PlanarPoint α) : PlanarPoint β := ⟨f p.x, f p.y⟩

variable {α : Type} [Scalar α]

def distance (p q : PlanarPoint α) : α := Scalar.hypot (p.x - q.x) (p.y - q.y)

end PlanarPoint

/-- A point together with its elevation, once it has one. -/
structure Position where
  point : Point
  elevation : Option Float := none
  deriving DecidableEq, Inhabited

def pi : Float := 3.141592653589793

namespace Angle

/-- The direction of the vector to `p` from `q`. -/
def toPoint (p q : Point) : Float := Binary64.direction (p.y - q.y) (p.x - q.x)

/-- The angle between two directions, the short way round. -/
def difference (a b : Float) : Float :=
  let turn := Binary64.floorRemainder (a - b) (2.0 * pi)
  if pi < turn then 2.0 * pi - turn else turn

/-- The angle between a direction and the line along an axis. -/
def fromAxis (direction axis : Float) : Float :=
  let turn := Binary64.floorRemainder (direction - axis) pi
  Binary64.minimum turn (pi - turn)

end Angle

end TrackLayout
