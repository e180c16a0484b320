import TrackLayout.Document.Track
import TrackLayout.Import.Way

/-!
# Documents of source ways

Of tags under one key the last one counts.
-/
set_option autoImplicit false

namespace TrackLayout

open Document (toJson)

instance : Document WayNode where
  toJson n := .record [("key", toJson n.key), ("position", toJson n.position)]
  ofJson? j := do
    let f ← j.fields? ["key", "position"]
    return ⟨← f.get "key", ← f.get "position"⟩

instance : Document Tags where
  toJson t := .record (t.entries.map fun (key, value) => (key, .text value))
  ofJson? j := do
    let members ← j.members?
    let pairs ← members.mapM fun (key, v) => v.string?.map (key, ·)
    return .ofList pairs

instance : Document Way where
  toJson w := .record
    ([("id", toJson w.id), ("nodes", toJson w.nodes)] ++ Document.present "height_plane" w.plane ++
      [("tags", toJson w.tags)])
  ofJson? j := do
    let f ← j.fields? ["id", "nodes", "height_plane", "tags"]
    return {
      id := ← f.get "id"
      nodes := ← f.get "nodes"
      plane := ← f.getD "height_plane" none
      tags := ← f.getD "tags" .empty }

end TrackLayout
