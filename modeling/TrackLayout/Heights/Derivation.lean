import TrackLayout.Network.Proximity
import TrackLayout.Settings

/-!
# Deriving height rules

Every node starts at the height of the ground plus the mean of what its tracks
ask for, and gets rules from its tracks and from what passes close by. A node
is visited with the network as the visits before it left it.
-/
set_option autoImplicit false

namespace TrackLayout

/-- Height of the terrain at a point; unknown where it is not a number. -/
abbrev Ground := Point → Float

/-- The ground at a point is unknown. -/
structure GroundWarning where
  point : Point
  deriving DecidableEq

def GroundWarning.message (w : GroundWarning) : String :=
  "Ground height at (" ++ writeTenths w.point.x ++ ", " ++ writeTenths w.point.y ++ ") is NaN, using 0"

/-- The rule for the incline towards the other end, as one end of a connection gets it. -/
def Connection.inclineRule {α : Type} [Scalar α] (inclines : InclineRange α) (here : ConnectionEnd)
    (other : NodeId) (length weight : α) : HeightRule α :=
  .inclineBetween (Connection.inclinesLeaving inclines here) other length weight

namespace Network

/-- The connections of a junction, in the order in which they were attached. -/
def connectionsOf (net : Network) (j : Junction) : List Connection :=
  j.connections.filterMap net.connection?

/-- Ground height plus the mean of the offsets that are defined, if any is. -/
def baseline (ground : Float) (connections : List Connection) : Float :=
  match connections.filterMap (·.heightType.offset?) with
  | [] => ground
  | offsets => ground + Binary64.sum offsets / offsets.length.toFloat

/-- Track on the terrain keeps its node near the baseline. -/
def groundRules (s : RuleSettings) (baseline : Float) (connections : List Connection) : List Rule :=
  if connections.any (·.heightType.followsGround) then
    let embankments := connections.countP (·.heightType == .embankment)
    [.fixedHeight baseline (s.baseTolerance + s.embankmentTolerance * embankments.toFloat)
      s.fixedHeightWeight]
  else []

/-- A node lies between the far ends of every forward and backward track. -/
def smoothingRules (s : RuleSettings) (net : Network) (j : Junction) : List Rule :=
  let ends (ids : List ConnectionId) : List (NodeId × Float) := ids.filterMap fun id => do
    let c ← net.connection? id
    return (← c.farEnd? j.id, c.length)
  (ends j.sides.forward).flatMap fun (ahead, front) =>
    (ends j.sides.backward).map fun (behind, rear) =>
      .betweenNodes ahead behind (front / (front + rear)) s.smoothInclineWeight

/-- Every track keeps its incline. -/
def inclineRules (s : RuleSettings) (j : Junction) (connections : List Connection) : List Rule :=
  connections.filterMap fun c => do
    let here ← c.endOf? j.id
    let other ← c.farEnd? j.id
    return Connection.inclineRule c.trackType.inclines here other c.length s.inclineWeight

/-- A track passing right under or over the node, on a plane of one of its own tracks, pulls the node
towards its own height; the more, the closer it passes. -/
def neighbourRules (s : RuleSettings) (net : Network) (j : Junction) (connections : List Connection) :
    List Rule :=
  (net.connectionsBeside j.point none s.neighbourMaxSideward s.neighbourMaxForward).filterMap fun id => do
    let c ← net.connection? id
    if c.touches j.id || !connections.any (·.plane == c.plane) then none
    else
      let o := PlanarSegment.offset c.segment j.point
      let closeness := 1.0 - (o.sideward / s.neighbourMaxSideward).abs
      return .betweenNodes c.start c.stop (o.forward / c.length) (closeness * s.neighbourWeight)

/-- The elevation a junction starts at, and its rules. -/
def derive (s : RuleSettings) (net : Network) (j : Junction) (ground : Float) : Float × List Rule :=
  let connections := net.connectionsOf j
  let start := baseline ground connections
  (start, groundRules s start connections ++ smoothingRules s net j ++ inclineRules s j connections ++
    neighbourRules s net j connections)

end Network

/-- A network whose nodes have been visited so far. -/
structure Derivation where
  network : Network
  added : Nat := 0
  warnings : List GroundWarning := []

/-- Sets the elevation of a node and appends its rules. Unknown ground counts as zero. -/
def Derivation.visit (s : RuleSettings) (ground : Ground) (d : Derivation) (id : NodeId) : Derivation :=
  match d.network.node? id with
  | none => d
  | some j =>
    let height := ground j.point
    let (start, rules) := d.network.derive s j (if height.isNaN then 0.0 else height)
    { network := d.network.modifyNode id fun j => { j.withElevation start with rules := j.rules ++ rules }
      added := d.added + rules.length
      warnings := if height.isNaN then d.warnings ++ [⟨j.point⟩] else d.warnings }

/-- Visits all nodes in order. -/
def Network.deriveHeights (net : Network) (ground : Ground) (s : RuleSettings) : Derivation :=
  net.nodes.ids.foldl (Derivation.visit s ground) { network := net }

/-- A visit that edits the network once for the elevation and once for each rule. An edit fails if the
node is not there. -/
def Derivation.visitByEdits (s : RuleSettings) (ground : Ground) (d : Derivation) (id : NodeId) :
    Except NetworkError Derivation :=
  match d.network.node? id with
  | none => .ok d
  | some j => do
    let height := ground j.point
    let (start, rules) := d.network.derive s j (if height.isNaN then 0.0 else height)
    let network ← d.network.setElevation id start
    let network ← rules.foldlM (fun net rule => net.addRule id rule) network
    return {
      network
      added := d.added + rules.length
      warnings := if height.isNaN then d.warnings ++ [⟨j.point⟩] else d.warnings }

def Network.deriveByEdits (net : Network) (ground : Ground) (s : RuleSettings) :
    Except NetworkError Derivation :=
  net.nodes.ids.foldlM (Derivation.visitByEdits s ground) { network := net }

end TrackLayout
