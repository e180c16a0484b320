import TrackLayout.Import.Way
import TrackLayout.Network

/-!
# Importing ways

Ways that a classifier handles are added to a network segment by segment. Nodes are
shared between ways by their keys. A key whose first position is off the land
never becomes a node, and segments that touch it are skipped. What was added
before a failure stays.
-/
set_option autoImplicit false

namespace TrackLayout

structure ImportReport where
  /-- Ways accepted by a classifier. -/
  ways : Nat := 0
  nodes : Nat := 0
  connections : Nat := 0
  /-- Segments with an end off the land, and segments from a node to itself. -/
  skippedSegments : Nat := 0
  deriving DecidableEq, Inhabited

structure Importer where
  onLand : Point → Bool := fun _ => true
  /-- The keys seen so far; a key off the land has no node. -/
  known : List (UInt64 × Option NodeId) := []
  report : ImportReport := {}

/-- An importer at work on a network. -/
structure ImportState where
  importer : Importer
  network : Network

/-- What became of a step, and the state it left; a failure stops the import. -/
abbrev ImportStep := Option NetworkError × ImportState

namespace ImportState

def count (s : ImportState) (f : ImportReport → ImportReport) : ImportState :=
  { s with importer.report := f s.importer.report }

/-- Remembers the node of a key, or that it has none. -/
def remember (s : ImportState) (key : UInt64) (node : Option NodeId) : ImportState :=
  { s with importer.known := s.importer.known ++ [(key, node)] }

/-- The node of a key, made when the key is first seen on land. -/
def nodeOfKey (s : ImportState) (n : WayNode) : Except NetworkError (Option NodeId) × ImportState :=
  match s.importer.known.lookup n.key with
  | some known => (.ok known, s)
  | none =>
    if s.importer.onLand n.position then
      match s.network.addNode { point := n.position } with
      | .error e => (.error e, s)
      | .ok (id, network) =>
        let s := { s with network }.count fun r => { r with nodes := r.nodes + 1 }
        (.ok (some id), s.remember n.key (some id))
    else (.ok none, s.remember n.key none)

def skip (s : ImportState) : ImportState :=
  s.count fun r => { r with skippedSegments := r.skippedSegments + 1 }

/-- Connects two known ends, unless one is off the land or both are one node. -/
def connectEnds (s : ImportState) (spec : Network.TrackSpec) : Option NodeId → Option NodeId → ImportStep
  | some start, some stop =>
    if start = stop then (none, s.skip)
    else
      match s.network.connect start stop spec with
      | .error e => (some e, s)
      | .ok (_, network) =>
        (none, { s with network }.count fun r => { r with connections := r.connections + 1 })
  | _, _ => (none, s.skip)

def importSegment (s : ImportState) (spec : Network.TrackSpec) (first second : WayNode) : ImportStep :=
  match s.nodeOfKey first with
  | (.error e, s) => (some e, s)
  | (.ok start, s) =>
    match s.nodeOfKey second with
    | (.error e, s) => (some e, s)
    | (.ok stop, s) => s.connectEnds spec start stop

/-- Takes steps in turn until one fails. -/
def addAll {ι : Type} (step : ImportState → ι → ImportStep) (s : ImportState) : List ι → ImportStep
  | [] => (none, s)
  | x :: rest =>
    match step s x with
    | (some e, s) => (some e, s)
    | (none, s) => addAll step s rest

/-- Adds the segments of a way of known track. -/
def importTrack (s : ImportState) (w : Way) (trackType : TrackType) (heightType : HeightType) :
    ImportStep :=
  (s.count fun r => { r with ways := r.ways + 1 }).addAll
    (fun s (first, second) => s.importSegment ⟨trackType, heightType, w.plane⟩ first second) w.segments

/-- Adds a way if the classifier handles it. -/
def importWay (classifier : WayClassifier) (s : ImportState) (w : Way) : ImportStep :=
  match classifier.trackType? w with
  | none => (none, s)
  | some trackType => s.importTrack w trackType (classifier.heightType w)

/-- Lets every classifier go over all ways, one classifier after the other. -/
def importWays (s : ImportState) (ways : List Way) (classifiers : List WayClassifier) : ImportStep :=
  s.addAll (fun s classifier => s.addAll (importWay classifier) ways) classifiers

end ImportState

end TrackLayout
