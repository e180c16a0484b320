import TrackLayout.Geometry.Rect

/-!
# Segments

Straight segments between two points: on which side of one a point lies,
whether two of them meet, and where a point lies in the frame of one. The last
is a formula over any scalar.
-/
set_option autoImplicit false

namespace TrackLayout

structure PlanarSegment (α : Type) where
  start : PlanarPoint α
  stop : PlanarPoint α
  deriving DecidableEq, Inhabited

abbrev Segment := PlanarSegment Float

/-- A point in the frame of a segment. -/
structure SegmentOffset (α : Type) where
  /-- Along the segment, from its start. -/
  forward : α
  /-- Across the segment, positive to the left. -/
  sideward : α
  /-- How far `forward` is outside the segment. -/
  overhead : α
  deriving DecidableEq

/-- Square of the distance to the segment. -/
def SegmentOffset.squaredDistance {α : Type} [Scalar α] (o : SegmentOffset α) : α :=
  o.overhead * o.overhead + o.sideward * o.sideward

namespace PlanarSegment

def map {α β : Type} (f : α → β) (s : PlanarSegment α) : PlanarSegment β :=
  ⟨s.start.map f, s.stop.map f⟩

variable {α : Type} [Scalar α]

def length (s : PlanarSegment α) : α := s.start.distance s.stop

/-- The unit vector along the segment; a segment without length runs along the x axis. -/
def heading (s : PlanarSegment α) : PlanarPoint α :=
  if Scalar.below 0.0 s.length then
    ⟨(s.stop.x - s.start.x) / s.length, (s.stop.y - s.start.y) / s.length⟩
  else ⟨1.0, 0.0⟩

def offset (s : PlanarSegment α) (p : PlanarPoint α) : SegmentOffset α :=
  let along := s.heading
  let px := p.x - s.start.x
  let py := p.y - s.start.y
  let forward := px * along.x + py * along.y
  { forward
    sideward := along.x * py - along.y * px
    overhead := Scalar.larger (-forward) 0.0 + Scalar.larger (forward - s.length) 0.0 }

end PlanarSegment

namespace Segment

def bounds (s : Segment) : Rect := .spanning s.start s.stop

/-- Twice the signed area of the triangle of the segment and a point: positive to its left. -/
def cross (s : Segment) (p : Point) : Float :=
  (s.stop.x - s.start.x) * (p.y - s.start.y) - (s.stop.y - s.start.y) * (p.x - s.start.x)

/-- Whether two values lie strictly on opposite sides of zero. -/
def opposed (a b : Float) : Bool := (0.0 < a && b < 0.0) || (a < 0.0 && 0.0 < b)

/-- Whether the segments have a point in common; ends and overlaps count. -/
def meets (s t : Segment) : Bool :=
  (opposed (t.cross s.start) (t.cross s.stop) && opposed (s.cross t.start) (s.cross t.stop)) ||
  (t.cross s.start == 0.0 && t.bounds.contains s.start) ||
  (t.cross s.stop == 0.0 && t.bounds.contains s.stop) ||
  (s.cross t.start == 0.0 && s.bounds.contains t.start) ||
  (s.cross t.stop == 0.0 && s.bounds.contains t.stop)

end Segment

end TrackLayout
