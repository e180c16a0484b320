import TrackLayout.Document.Track
import TrackLayout.Snapshot

/-!
# Documents of snapshots

A node without elevation has a null under that name.
-/
set_option autoImplicit false

namespace TrackLayout

open Document (toJson)

instance : Document NodeEntry where
  toJson n := .record
    [("id", toJson n.id), ("x", toJson n.x), ("y", toJson n.y), ("elevation", toJson n.elevation),
      ("forward", toJson n.forward), ("backward", toJson n.backward)]
  ofJson? j := do
    let f ← j.fields? ["id", "x", "y", "elevation", "forward", "backward"]
    return ⟨← f.get "id", ← f.get "x", ← f.get "y", ← f.getOptional "elevation", ← f.get "forward",
      ← f.get "backward"⟩

instance : Document ConnectionEntry where
  toJson c := .record
    [("id", toJson c.id), ("start", toJson c.start), ("end", toJson c.stop), ("straight", toJson c.straight),
      ("height_fixed", toJson c.heightFixed), ("track_type", toJson c.trackType)]
  ofJson? j := do
    let f ← j.fields? ["id", "start", "end", "straight", "height_fixed", "track_type"]
    return ⟨← f.get "id", ← f.get "start", ← f.get "end", ← f.get "straight", ← f.get "height_fixed",
      ← f.get "track_type"⟩

instance : Document Snapshot where
  toJson s := .record [("nodes", toJson s.nodes), ("connections", toJson s.connections)]
  ofJson? j := do
    let f ← j.fields? ["nodes", "connections"]
    return ⟨← f.get "nodes", ← f.get "connections"⟩

namespace Snapshot

def toText (s : Snapshot) : String := (toJson s).pretty

def ofText (text : String) : Except SnapshotError Snapshot :=
  match (Document.parse? text : Option Snapshot) with
  | some s => .ok s
  | none => .error .unreadable

end Snapshot

end TrackLayout
