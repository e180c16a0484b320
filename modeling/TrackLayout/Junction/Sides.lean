import TrackLayout.Geometry.Point
import TrackLayout.Id

/-!
# The two sides of a junction

A train that enters a junction leaves it on the other side. The tracks of a
junction are therefore split into a forward and a backward side. The first
track is forward; every later one joins the side it points to, except that the
backward side takes what it can get as long as it is empty.
-/
set_option autoImplicit false

namespace TrackLayout

/-- A connection as a junction sees it. -/
structure Attachment where
  connection : ConnectionId
  direction : Float
  deriving DecidableEq, Inhabited

structure Sides where
  forward : List ConnectionId := []
  backward : List ConnectionId := []
  /-- Direction of the first forward track. -/
  forwardDirection : Float := 0.0
  /-- The only backward track points forward, and is there for want of a better one. -/
  backwardDesiresForward : Bool := false
  deriving DecidableEq, Inhabited

namespace Sides

def quarterTurn : Float := 1.5707963267948966

/-- Whether a direction is on the forward side. -/
def pointsForward (forward direction : Float) : Bool := Angle.difference direction forward < quarterTurn

/-- Gives a backward track that desires it to the forward side. -/
def release (g : Sides) : Sides :=
  if g.backwardDesiresForward then
    { g with forward := g.forward ++ g.backward, backward := [], backwardDesiresForward := false }
  else g

def add (g : Sides) (track : Attachment) : Sides :=
  if g.forward.isEmpty then
    { g with forward := [track.connection], forwardDirection := track.direction }
  else
    let g := g.release
    let isForward := pointsForward g.forwardDirection track.direction
    if g.backward.isEmpty then
      { g with backward := [track.connection], backwardDesiresForward := isForward }
    else if isForward then { g with forward := g.forward ++ [track.connection] }
    else { g with backward := g.backward ++ [track.connection] }

/-- The sides of tracks in the order in which they were attached. -/
def ofTracks (tracks : List Attachment) : Sides := tracks.foldl add {}

end Sides

end TrackLayout
