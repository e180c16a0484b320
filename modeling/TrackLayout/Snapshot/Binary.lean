import TrackLayout.MessagePack.Reader
import TrackLayout.Snapshot

/-!
# Binary snapshots

Four bytes of version, the lowest one first, and the snapshot as one
MessagePack value. Bytes behind the value are not looked at. The version is
the library's own; how the value is spelled is taken as given of rmp-serde 1.3,
as `MessagePack` tells it. Why a value cannot be read is not told.
-/
set_option autoImplicit false

namespace TrackLayout.Snapshot

open MessagePack (record)

def version : UInt32 := 1

/-! ## Writing -/

def packId {kind : IdKind} (id : Id kind) : MessagePack := .unsigned id.val.toUInt64

def packIds (ids : List ConnectionId) : MessagePack := .array (ids.map packId)

def packNode (n : NodeEntry) : MessagePack := record
  [("id", packId n.id), ("x", .float n.x), ("y", .float n.y), ("elevation", n.elevation.elim .nil .float),
    ("forward", packIds n.forward), ("backward", packIds n.backward)]

def packConnection (c : ConnectionEntry) : MessagePack := record
  [("id", packId c.id), ("start", packId c.start), ("end", packId c.stop), ("straight", .bool c.straight),
    ("height_fixed", .bool c.heightFixed), ("track_type", .signed c.trackType)]

def pack (s : Snapshot) : MessagePack := record
  [("nodes", .array (s.nodes.map packNode)), ("connections", .array (s.connections.map packConnection))]

/-- A version, the lowest byte first. -/
def versionBytes (v : UInt32) : Bytes := (MessagePack.bigEndian v.toNat 4).reverse

def toBytes (s : Snapshot) : Bytes := versionBytes version ++ s.pack.encode

/-! ## Reading -/

def unpackId? {kind : IdKind} (v : MessagePack) : Option (Id kind) := v.uint32?.map Id.mk

def unpackNode? (v : MessagePack) : Option NodeEntry := do
  let f ← v.fields? ["id", "x", "y", "elevation", "forward", "backward"]
  return {
    id := ← f.required "id" unpackId?
    x := ← f.required "x" MessagePack.float?
    y := ← f.required "y" MessagePack.float?
    elevation := ← f.optional "elevation" (MessagePack.nullable MessagePack.float?)
    forward := ← f.required "forward" (MessagePack.list? unpackId?)
    backward := ← f.required "backward" (MessagePack.list? unpackId?) }

def unpackConnection? (v : MessagePack) : Option ConnectionEntry := do
  let f ← v.fields? ["id", "start", "end", "straight", "height_fixed", "track_type"]
  return {
    id := ← f.required "id" unpackId?
    start := ← f.required "start" unpackId?
    stop := ← f.required "end" unpackId?
    straight := ← f.required "straight" MessagePack.bool?
    heightFixed := ← f.required "height_fixed" MessagePack.bool?
    trackType := ← f.required "track_type" MessagePack.int64? }

def unpack? (v : MessagePack) : Option Snapshot := do
  let f ← v.fields? ["nodes", "connections"]
  return {
    nodes := ← f.required "nodes" (MessagePack.list? unpackNode?)
    connections := ← f.required "connections" (MessagePack.list? unpackConnection?) }

def ofBytes : Bytes → Except SnapshotError Snapshot
  | a :: b :: c :: d :: body =>
    let found := (MessagePack.ofBigEndian [d, c, b, a]).toUInt32
    if found = version then
      match (MessagePack.decode? body).bind unpack? with
      | some s => .ok s
      | none => .error .undecodable
    else .error (.unsupportedVersion found)
  | bytes => .error (.truncated bytes.length)

end TrackLayout.Snapshot
