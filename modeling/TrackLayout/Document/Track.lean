import TrackLayout.Connection
import TrackLayout.Document

/-!
# Documents of tracks and connections
-/
set_option autoImplicit false

namespace TrackLayout

open Document (toJson)

instance {kind : IdKind} : Document (Id kind) := ⟨fun id => toJson id.val, fun j => j.uint32?.map Id.mk⟩

instance : Document IdCounter where
  toJson c := .record [("next", toJson c.next)]
  ofJson? j := do
    let f ← j.fields? ["next"]
    return ⟨← f.get "next"⟩

def Subnetwork.name : Subnetwork → String
  | .rail => "Rail"
  | .street => "Street"
  | .barrier => "Barrier"
  | .waterway => "Waterway"
  | .contactWire => "ContactWire"

def Subnetwork.all : List Subnetwork := [.rail, .street, .barrier, .waterway, .contactWire]

instance : Document Subnetwork where
  toJson s := .text s.name
  ofJson? := Json.choice? (Subnetwork.all.map fun s => (s.name, s))

def HeightType.name : HeightType → String
  | .bridge => "Bridge"
  | .embankment => "Embankment"
  | .onGround => "OnGround"
  | .tunnel => "Tunnel"
  | .unspecified => "Unspecified"

def HeightType.all : List HeightType := [.bridge, .embankment, .onGround, .tunnel, .unspecified]

instance : Document HeightType where
  toJson h := .text h.name
  ofJson? := Json.choice? (HeightType.all.map fun h => (h.name, h))

instance : Document HeightPlane := ⟨fun p => toJson p.val, fun j => j.uint32?.map HeightPlane.mk⟩

instance : Document TrackType where
  toJson t := .record
    [("id", toJson t.id), ("subnetwork", toJson t.subnetwork), ("min_incline", toJson t.inclines.least),
      ("max_incline", toJson t.inclines.greatest)]
  ofJson? j := do
    let f ← j.fields? ["id", "subnetwork", "min_incline", "max_incline"]
    return ⟨← f.get "id", ← f.get "subnetwork", ⟨← f.get "min_incline", ← f.get "max_incline"⟩⟩

instance : Document Connection where
  toJson c := .record
    ([("id", toJson c.id), ("start", toJson c.start), ("end", toJson c.stop),
      ("start_point", toJson c.startPoint), ("end_point", toJson c.stopPoint), ("bounds", toJson c.bounds),
      ("track_type", toJson c.trackType), ("height_type", toJson c.heightType),
      ("straight", toJson c.straight)] ++ Document.present "height_plane" c.plane)
  ofJson? j := do
    let f ← j.fields? ["id", "start", "end", "start_point", "end_point", "bounds", "track_type",
      "height_type", "straight", "height_plane"]
    return {
      id := ← f.get "id"
      start := ← f.get "start"
      stop := ← f.get "end"
      startPoint := ← f.get "start_point"
      stopPoint := ← f.get "end_point"
      bounds := ← f.get "bounds"
      trackType := ← f.get "track_type"
      heightType := ← f.get "height_type"
      straight := ← f.get "straight"
      plane := ← f.getD "height_plane" none }

end TrackLayout
