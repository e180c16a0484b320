import TrackLayout.Geometry.Segment
import TrackLayout.Id
import TrackLayout.Track

/-!
# Connections

A straight piece of track between two nodes. It carries the points of its ends
and the box around them; that these are the points of its nodes is a property
of networks and not of the type.
-/
set_option autoImplicit false

namespace TrackLayout

inductive ConnectionEnd where
  | start
  | stop
  deriving DecidableEq

structure Connection where
  id : ConnectionId
  start : NodeId
  stop : NodeId
  startPoint : Point
  stopPoint : Point
  bounds : Rect
  trackType : TrackType
  heightType : HeightType
  /-- Whether it is drawn straight, where its neighbours would suggest a curve. -/
  straight : Bool
  plane : Option HeightPlane
  deriving DecidableEq, Inhabited

namespace Connection

/-- A connection of standard track; its nodes do not know of it yet. -/
def between (id : ConnectionId) (start stop : NodeId) (segment : Segment) : Connection where
  id
  start
  stop
  startPoint := segment.start
  stopPoint := segment.stop
  bounds := segment.bounds
  trackType := .standard
  heightType := .unspecified
  straight := false
  plane := none

def segment (c : Connection) : Segment := ⟨c.startPoint, c.stopPoint⟩

def length (c : Connection) : Float := c.segment.length

def touches (c : Connection) (node : NodeId) : Bool := c.start == node || c.stop == node

/-- The end a node is on. -/
def endOf? (c : Connection) (node : NodeId) : Option ConnectionEnd :=
  if c.start = node then some .start else if c.stop = node then some .stop else none

/-- The node at the other end. -/
def farEnd? (c : Connection) (node : NodeId) : Option NodeId :=
  (c.endOf? node).map fun | .start => c.stop | .stop => c.start

def farPoint? (c : Connection) (node : NodeId) : Option Point :=
  (c.endOf? node).map fun | .start => c.stopPoint | .stop => c.startPoint

/-- The inclines met on the way from an end to the other one. -/
def inclinesLeaving {α : Type} [Scalar α] (inclines : InclineRange α) : ConnectionEnd → InclineRange α
  | .start => inclines
  | .stop => inclines.reversed

/-- The inclines met on the way from a node to the other end. -/
def inclinesLeaving? (c : Connection) (node : NodeId) : Option (InclineRange Float) :=
  (c.endOf? node).map (inclinesLeaving c.trackType.inclines)

/-- Moves one end to another node; the box follows. -/
def rebind (c : Connection) (which : ConnectionEnd) (node : NodeId) (point : Point) : Connection :=
  let moved := match which with
    | .start => { c with start := node, startPoint := point }
    | .stop => { c with stop := node, stopPoint := point }
  { moved with bounds := moved.segment.bounds }

end Connection

end TrackLayout
