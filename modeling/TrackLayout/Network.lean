import TrackLayout.BoxTree
import TrackLayout.Connection
import TrackLayout.Junction
import TrackLayout.Table

/-!
# Track networks

Junctions, the connections between them, and an index of the connections by
the boxes they were created with. Both tables keep the order of creation. What
the ends of a connection and the tracks of a junction have to do with each
other is kept by the operations below and is not part of the type.
-/
set_option autoImplicit false

namespace TrackLayout

structure Network where
  nodes : Table .node Junction
  connections : Table .connection Connection
  index : BoxTree ConnectionId

inductive NetworkError where
  | unknownNode (id : NodeId)
  | unknownConnection (id : ConnectionId)
  | selfLoop (id : NodeId)
  | idsExhausted
  deriving DecidableEq

def NetworkError.message : NetworkError → String
  | .unknownNode id => "node " ++ id.name ++ " is not part of the network"
  | .unknownConnection id => "connection " ++ id.name ++ " is not part of the network"
  | .selfLoop id => "cannot connect node " ++ id.name ++ " to itself"
  | .idsExhausted => "id counter overflow"

namespace Network

def empty : Network := ⟨.empty, .empty, .empty⟩

/-! ## Junctions -/

def node? (net : Network) (id : NodeId) : Option Junction := net.nodes.get? id

def elevation (net : Network) (id : NodeId) : Option Float := (net.node? id).bind Junction.elevation

def addNode (net : Network) (position : Position) : Except NetworkError (NodeId × Network) :=
  match net.nodes.add? fun id => { id, position } with
  | some (id, nodes) => .ok (id, { net with nodes })
  | none => .error .idsExhausted

def modifyNode (net : Network) (id : NodeId) (f : Junction → Junction) : Network :=
  { net with nodes := net.nodes.modify id f }

def editNode (net : Network) (id : NodeId) (f : Junction → Junction) : Except NetworkError Network :=
  if net.nodes.contains id then .ok (net.modifyNode id f) else .error (.unknownNode id)

def setElevation (net : Network) (id : NodeId) (elevation : Float) : Except NetworkError Network :=
  net.editNode id (·.withElevation elevation)

def addRule (net : Network) (id : NodeId) (rule : Rule) : Except NetworkError Network :=
  net.editNode id (·.addRule rule)

/-! ## Connections -/

def connection? (net : Network) (id : ConnectionId) : Option Connection := net.connections.get? id

def modifyConnection (net : Network) (id : ConnectionId) (f : Connection → Connection) : Network :=
  { net with connections := net.connections.modify id f }

/-- What a new connection is made of. -/
structure TrackSpec where
  trackType : TrackType := .standard
  heightType : HeightType := .unspecified
  plane : Option HeightPlane := none
  deriving DecidableEq

/-- The point of a node that must be present. -/
def pointOf (net : Network) (id : NodeId) : Except NetworkError Point :=
  match net.node? id with
  | some j => .ok j.point
  | none => .error (.unknownNode id)

/-- Connects two different nodes and attaches the connection to both, first to its start. -/
def connect (net : Network) (start stop : NodeId) (spec : TrackSpec := {}) :
    Except NetworkError (ConnectionId × Network) := do
  if start = stop then throw (.selfLoop start)
  let p ← net.pointOf start
  let q ← net.pointOf stop
  let segment : Segment := ⟨p, q⟩
  let build (id : ConnectionId) : Connection :=
    { Connection.between id start stop segment with
      trackType := spec.trackType, heightType := spec.heightType, plane := spec.plane }
  match net.connections.add? build with
  | none => throw .idsExhausted
  | some (id, connections) =>
    let nodes := (net.nodes.modify start (·.attach ⟨id, Angle.toPoint p q⟩)).modify stop
      (·.attach ⟨id, Angle.toPoint q p⟩)
    return (id, { nodes, connections, index := net.index.insert segment.bounds id })

/-- The connections whose boxes meet a rectangle, in the order of their ids. -/
def connectionsMeeting (net : Network) (r : Rect) : List ConnectionId :=
  (net.index.query r).mergeSort fun a b => a.val ≤ b.val

/-- The track types in use, each as it was first used; types of one id count as one. -/
def trackTypes (net : Network) : List TrackType :=
  net.connections.values.foldl
    (fun used c => if used.any (·.id == c.trackType.id) then used else used ++ [c.trackType]) []

/-- Height gained per metre from the start of a connection to its end. -/
def incline? (net : Network) (id : ConnectionId) : Option Float := do
  let c ← net.connection? id
  let low ← net.elevation c.start
  let high ← net.elevation c.stop
  return (high - low) / c.length

/-- Whether either end of a connection has an elevation. -/
def hasHeight (net : Network) (id : ConnectionId) : Bool :=
  (net.connection? id).any fun c => (net.elevation c.start).isSome || (net.elevation c.stop).isSome

end Network

end TrackLayout
