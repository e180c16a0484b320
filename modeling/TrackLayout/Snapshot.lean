import TrackLayout.Network

/-!
# Snapshots

Everything a consumer needs to know about a finished network, as two lists in
network order.
-/
set_option autoImplicit false

namespace TrackLayout

structure NodeEntry where
  id : NodeId
  x : Float
  y : Float
  elevation : Option Float
  forward : List ConnectionId
  backward : List ConnectionId
  deriving DecidableEq, Inhabited

structure ConnectionEntry where
  id : ConnectionId
  start : NodeId
  stop : NodeId
  straight : Bool
  /-- Whether either end has an elevation. -/
  heightFixed : Bool
  trackType : Int64
  deriving DecidableEq, Inhabited

structure Snapshot where
  nodes : List NodeEntry
  connections : List ConnectionEntry
  deriving DecidableEq, Inhabited

def NodeEntry.ofJunction (j : Junction) : NodeEntry where
  id := j.id
  x := j.point.x
  y := j.point.y
  elevation := j.elevation
  forward := j.sides.forward
  backward := j.sides.backward

def Network.snapshot (net : Network) : Snapshot where
  nodes := net.nodes.values.map .ofJunction
  connections := net.connections.values.map fun c =>
    { id := c.id
      start := c.start
      stop := c.stop
      straight := c.straight
      heightFixed := net.hasHeight c.id
      trackType := c.trackType.id }

inductive SnapshotError where
  /-- Too few bytes for a version. -/
  | truncated (bytes : Nat)
  | unsupportedVersion (version : UInt32)
  /-- The bytes behind the version are no snapshot. -/
  | undecodable
  /-- The text is no snapshot. -/
  | unreadable
  deriving DecidableEq

def SnapshotError.message : SnapshotError → String
  | .truncated n => "snapshot too small: " ++ n.repr ++ " bytes"
  | .unsupportedVersion v => "unsupported snapshot version: " ++ v.toNat.repr
  | .undecodable => "failed to decode snapshot"
  | .unreadable => "failed to read snapshot"

end TrackLayout
