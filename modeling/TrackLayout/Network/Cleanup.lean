import TrackLayout.Network.Links

/-!
# Cleaning up junctions

After a cleanup every node has a track, and all tracks of a node belong to one
subnetwork, lie along one axis and have room on their sides. What does not fit
at a node moves to a new node at the same place. Connections are only ever
moved, never made or removed.
-/
set_option autoImplicit false

namespace TrackLayout.Network

/-- Tracks further off the axis of a node do not fit there. -/
def axisTolerance : Float := pi / 6.0

/-- Tracks along one axis that a node may keep. -/
def maxAligned : Nat := 4

def subnetwork? (net : Network) (id : ConnectionId) : Option Subnetwork :=
  (net.connection? id).map (·.trackType.subnetwork)

/-- Tracks of another subnetwork than the first one's. -/
def foreign (net : Network) (j : Junction) (subnetwork : Subnetwork) : List ConnectionId :=
  j.connections.filter fun c => (net.subnetwork? c).any (· != subnetwork)

/-- Tracks off the axis of the first one. -/
def offAxis (j : Junction) (axis : Float) : List ConnectionId :=
  (j.tracks.filter fun t => axisTolerance < Angle.fromAxis t.direction axis).map (·.connection)

/-- Tracks that fit but are one too many: a backward track that desires the other side, or a fifth one. -/
def surplus (j : Junction) : List ConnectionId :=
  if j.sides.backwardDesiresForward then j.sides.backward else j.connections.drop maxAligned

/-- The tracks that do not fit at a node, for the first reason that applies to any. -/
def misfits (net : Network) (j : Junction) : List ConnectionId :=
  match j.tracks.head? with
  | none => []
  | some first =>
    match net.subnetwork? first.connection with
    | none => []
    | some subnetwork =>
      let foreign := net.foreign j subnetwork
      let offAxis := offAxis j first.direction
      if !foreign.isEmpty then foreign else if !offAxis.isEmpty then offAxis else surplus j

/-- Moves one track of a node to another node at the same place. -/
def moveTrack (source target : NodeId) (point : Point) (net : Network) (c : ConnectionId) : Network :=
  match (net.node? source).bind (·.direction? c) with
  | none => net
  | some direction =>
    let net := net.modifyNode source (·.detach c)
    let net := net.modifyNode target (·.attach ⟨c, direction⟩)
    net.modifyConnection c fun conn =>
      match conn.endOf? source with
      | some which => conn.rebind which target point
      | none => conn

/-- Moves what does not fit at a node to a new node and links the two; none if all fits. -/
def extract (net : Network) (id : NodeId) : Except NetworkError (Option (NodeId × Network)) := do
  match net.node? id with
  | none => return none
  | some j =>
    let moved := net.misfits j
    if moved.isEmpty then return none
    let (sibling, net) ← net.addNode j.position
    let net := moved.foldl (moveTrack id sibling j.point) net
    return some (sibling, net.link id sibling)

structure CleanupReport where
  /-- Nodes removed for want of a track. -/
  pruned : Nat := 0
  /-- Nodes created by splitting. -/
  split : Nat := 0
  deriving DecidableEq, Inhabited

/-- Splits the nodes of a queue until none is left; both halves of a split queue up again. -/
def repair (net : Network) (split : Nat) : Nat → List NodeId → Except NetworkError (Nat × Network)
  | 0, _ | _ + 1, [] => .ok (split, net)
  | fuel + 1, id :: queue =>
    match net.extract id with
    | .error e => .error e
    | .ok none => net.repair split fuel queue
    | .ok (some (sibling, net)) => net.repair (split + 1) fuel (queue ++ [sibling, id])

/-- Tracks attached to nodes. Every split leaves a track on both sides, so there are fewer splits. -/
def attachments (net : Network) : Nat := (net.nodes.values.flatMap (·.tracks)).length

/-- Removes the nodes without tracks. -/
def prune (net : Network) : Network := { net with nodes := net.nodes.filter (!·.tracks.isEmpty) }

def cleanup (net : Network) : Except NetworkError (CleanupReport × Network) := do
  let kept := net.prune
  let (split, clean) ← kept.repair 0 (kept.nodes.size + 2 * kept.attachments) kept.nodes.ids
  return (⟨net.nodes.size - kept.nodes.size, split⟩, clean)

end TrackLayout.Network
