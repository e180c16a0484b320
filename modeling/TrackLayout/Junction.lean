import TrackLayout.HeightRule
import TrackLayout.Junction.Sides

/-!
# Junctions

A node of the network: its position, the tracks attached to it, their two
sides and the height rules it has collected. Attaching keeps the sides up to
date; detaching derives them again from the tracks that are left.
-/
set_option autoImplicit false

namespace TrackLayout

structure Junction where
  id : NodeId
  position : Position
  /-- In the order in which they were attached. -/
  tracks : List Attachment := []
  sides : Sides := {}
  rules : List Rule := []
  deriving DecidableEq, Inhabited

namespace Junction

def point (j : Junction) : Point := j.position.point

def elevation (j : Junction) : Option Float := j.position.elevation

def withElevation (j : Junction) (elevation : Float) : Junction :=
  { j with position := { j.position with elevation := some elevation } }

def connections (j : Junction) : List ConnectionId := j.tracks.map (·.connection)

/-- Direction under which the junction sees one of its connections. -/
def direction? (j : Junction) (c : ConnectionId) : Option Float :=
  (j.tracks.find? (·.connection == c)).map (·.direction)

/-- The tracks on the other side from a connection; none if it is not attached. -/
def continuations? (j : Junction) (c : ConnectionId) : Option (List ConnectionId) :=
  if j.sides.forward.contains c then some j.sides.backward
  else if j.sides.backward.contains c then some j.sides.forward
  else none

def addRule (j : Junction) (rule : Rule) : Junction := { j with rules := j.rules ++ [rule] }

/-- The nodes that rules of this junction link it to. -/
def linked (j : Junction) : List NodeId := j.rules.filterMap HeightRule.linked?

def attach (j : Junction) (track : Attachment) : Junction :=
  { j with tracks := j.tracks ++ [track], sides := j.sides.add track }

def detach (j : Junction) (c : ConnectionId) : Junction :=
  let tracks := j.tracks.eraseP (·.connection == c)
  { j with tracks, sides := .ofTracks tracks }

end Junction

end TrackLayout
