import TrackLayout.Proofs.Document.Fields
import TrackLayout.Proofs.MessagePack.Value
import TrackLayout.Snapshot.Binary

/-!
# Binary snapshots read back

A snapshot is read back from its bytes as it was, whatever follows them. Bytes
of which some are missing at the end are rejected, and never read as another
snapshot.
-/
set_option autoImplicit false

namespace TrackLayout

/-! ## Records -/

namespace MessagePack

/-- Names that differ in their bytes. -/
def Distinct (names : List String) : Prop := (names.map (·.toUTF8.toList)).Nodup

instance (names : List String) : Decidable (Distinct names) :=
  inferInstanceAs (Decidable (names.map _).Nodup)

variable {names : List String}

theorem keyName?_ofString (h : Distinct names) {name : String} (hName : name ∈ names) :
    keyName? names (ofString name) = some (some name) := by
  have hFind : names.find? (·.toUTF8.toList == name.toUTF8.toList) = some name := by
    cases hFound : names.find? (·.toUTF8.toList == name.toUTF8.toList) with
    | none => exact absurd BEq.rfl (List.find?_eq_none.mp hFound name hName)
    | some found =>
      have hBytes : found.toUTF8.toList = name.toUTF8.toList := by simpa using List.find?_some hFound
      exact congrArg some (List.inj_on_of_nodup_map h (List.mem_of_find?_eq_some hFound) hName hBytes)
  rw [ofString, keyName?, hFind]

theorem members?_ofString (h : Distinct names) {fields : List (String × MessagePack)}
    (hFields : ∀ f ∈ fields, f.1 ∈ names) :
    members? names (fields.map fun f => (ofString f.1, f.2)) = some fields := by
  have hKeys : (fields.map fun f => (ofString f.1, f.2)).mapM
      (fun e : MessagePack × MessagePack => (keyName? names e.1).map fun name => name.map (·, e.2)) =
      some (fields.map some) := by
    induction fields with
    | nil => rfl
    | cons f rest ih =>
      obtain ⟨hFirst, hRest⟩ := List.forall_mem_cons.mp hFields
      rw [List.map_cons, List.mapM_cons, ih hRest, keyName?_ofString h hFirst]
      rfl
  rw [members?, hKeys]
  simp

/-- A record is read back with all its fields. -/
theorem fields?_record {fields : List (String × MessagePack)} (h : Distinct names)
    (hNames : fields.map Prod.fst = names) : (settled (record fields)).fields? names =
      some ⟨fields.map fun f => (f.1, .given f.2.settled)⟩ := by
  let read := fields.map fun f => (f.1, f.2.settled)
  have hSettled : settled (record fields) = .map (read.map fun f => (ofString f.1, f.2)) := by
    rw [record, settled, settledEntries_eq_map, List.map_map, List.map_map]
    rfl
  have hRead : read.map Prod.fst = names := by
    rw [← hNames, List.map_map]
    rfl
  have hKnown : ∀ f ∈ read, f.1 ∈ names := fun f hf => hRead ▸ List.mem_map_of_mem hf
  have hSelf := Fields.ofNamed?_self (hRead ▸ List.Nodup.of_map _ h)
  rw [hRead, List.map_map] at hSelf
  rw [hSettled, fields?, members?_ofString h hKnown, Option.bind_some, hSelf]
  rfl

theorem writable_record {levels : Nat} {fields : List (String × MessagePack)} (h : fields.length < 2 ^ 32)
    (hNames : ∀ f ∈ fields, f.1.toUTF8.toList.length < 2 ^ 32) (hFields : ∀ f ∈ fields, Writable levels f.2) :
    Writable (levels + 1) (record fields) := by
  refine .map (by rwa [List.length_map]) ?_ ?_
  · simp only [List.forall_mem_map]
    exact fun f hf => .text (hNames f hf)
  · simp only [List.forall_mem_map]
    exact hFields

/-! ## Typed values -/

theorem list?_map {α : Type} {read : MessagePack → Option α} {write : α → MessagePack} {items : List α}
    (h : ∀ a ∈ items, read (write a).settled = some a) :
    list? read (settled (.array (items.map write))) = some items := by
  rw [settled, settledItems_eq_map, List.map_map, list?]
  induction items with
  | nil => rfl
  | cons a rest ih =>
    obtain ⟨hFirst, hRest⟩ := List.forall_mem_cons.mp h
    rw [List.map_cons, List.mapM_cons, ih hRest, Function.comp_apply, hFirst]
    rfl

theorem int64?_settled (n : Int64) : int64? (settled (.signed n)) = some n := by
  rw [settled]
  split
  · next h =>
    have hLt : n.toInt < 2 ^ 63 := n.toInt_lt
    have hSame : n.toInt.toNat.toUInt64.toNat = n.toInt.toNat := UInt64.toNat_ofNat_of_lt' (by
      change n.toInt.toNat < 2 ^ 64
      omega)
    have hSmall : n.toInt.toNat < Nat.pow 2 63 := by
      change n.toInt.toNat < 2 ^ 63
      omega
    rw [int64?, hSame, if_pos hSmall, Int.toNat_of_nonneg h, Int64.ofInt_toInt]
  · rfl

theorem bool?_settled (b : Bool) : bool? (settled (.bool b)) = some b := rfl

theorem float?_settled (x : Float) : float? (settled (.float x)) = some x := rfl

theorem nullable_float? (x : Option Float) : nullable float? (settled (x.elim .nil .float)) = some x := by
  cases x <;> rfl

end MessagePack

namespace Snapshot

open MessagePack

theorem unpackId?_packId {kind : IdKind} (id : Id kind) : unpackId? (settled (packId id)) = some id := by
  have hSmall : id.val.toUInt64.toNat < Nat.pow 2 32 := by
    rw [UInt32.toNat_toUInt64]
    exact id.val.toNat_lt
  rw [packId, settled, unpackId?, uint32?, if_pos hSmall]
  · simp
  all_goals simp

theorem unpackIds?_packIds (ids : List ConnectionId) : list? unpackId? (settled (packIds ids)) = some ids :=
  list?_map fun id _ => unpackId?_packId id

theorem unpackNode?_packNode (n : NodeEntry) : unpackNode? (settled (packNode n)) = some n := by
  rw [packNode, unpackNode?, fields?_record]
  case h => decide +kernel
  case hNames => rfl
  simp [Fields.required, Fields.optional, Fields.slot, List.lookup_cons, unpackId?_packId, unpackIds?_packIds,
    float?_settled, nullable_float?]

theorem unpackConnection?_packConnection (c : ConnectionEntry) :
    unpackConnection? (settled (packConnection c)) = some c := by
  rw [packConnection, unpackConnection?, fields?_record]
  case h => decide +kernel
  case hNames => rfl
  simp [Fields.required, Fields.slot, List.lookup_cons, unpackId?_packId, bool?_settled, int64?_settled]

theorem unpack?_pack (s : Snapshot) : unpack? s.pack.settled = some s := by
  rw [pack, unpack?, fields?_record]
  case h => decide +kernel
  case hNames => rfl
  simp [Fields.required, Fields.slot, List.lookup_cons, list?_map fun n _ => unpackNode?_packNode n,
    list?_map fun c _ => unpackConnection?_packConnection c]

/-! ## Sizes -/

/-- All lists have fewer than 2^32 entries. -/
structure Countable (s : Snapshot) : Prop where
  nodes : s.nodes.length < 2 ^ 32
  connections : s.connections.length < 2 ^ 32
  forward : ∀ n ∈ s.nodes, n.forward.length < 2 ^ 32
  backward : ∀ n ∈ s.nodes, n.backward.length < 2 ^ 32

instance (s : Snapshot) : Decidable s.Countable :=
  decidable_of_iff (s.nodes.length < 2 ^ 32 ∧ s.connections.length < 2 ^ 32 ∧
      (∀ n ∈ s.nodes, n.forward.length < 2 ^ 32) ∧ ∀ n ∈ s.nodes, n.backward.length < 2 ^ 32)
    ⟨fun ⟨hNodes, hConnections, hForward, hBackward⟩ => ⟨hNodes, hConnections, hForward, hBackward⟩,
      fun h => ⟨h.nodes, h.connections, h.forward, h.backward⟩⟩

theorem writable_packIds {ids : List ConnectionId} (h : ids.length < 2 ^ 32) : Writable 1 (packIds ids) :=
  .array (by rwa [List.length_map]) (List.forall_mem_map.mpr fun _ _ => .unsigned _)

theorem writable_packNode {n : NodeEntry} (hForward : n.forward.length < 2 ^ 32)
    (hBackward : n.backward.length < 2 ^ 32) : Writable 2 (packNode n) := by
  apply writable_record
  · simp
  · simp only [List.forall_mem_cons]
    decide +kernel
  · have hElevation : Writable 1 (n.elevation.elim .nil .float) := by
      cases n.elevation with
      | none => exact .nil
      | some x => exact .float x
    simp only [List.forall_mem_cons]
    exact ⟨.unsigned _, .float _, .float _, hElevation, writable_packIds hForward, writable_packIds hBackward,
      List.forall_mem_nil _⟩

theorem writable_packConnection {levels : Nat} (c : ConnectionEntry) :
    Writable (levels + 1) (packConnection c) := by
  apply writable_record
  · simp
  · simp only [List.forall_mem_cons]
    decide +kernel
  · simp only [List.forall_mem_cons]
    exact ⟨.unsigned _, .unsigned _, .unsigned _, .bool _, .bool _, .signed _, List.forall_mem_nil _⟩

theorem Countable.writable {s : Snapshot} (h : s.Countable) : Writable 4 s.pack := by
  apply writable_record
  · simp
  · simp only [List.forall_mem_cons]
    decide +kernel
  · have hNodes : Writable 3 (.array (s.nodes.map packNode)) := by
      apply Writable.array
      · rw [List.length_map]
        exact h.nodes
      · exact List.forall_mem_map.mpr fun n hn => writable_packNode (h.forward n hn) (h.backward n hn)
    have hConnections : Writable 3 (.array (s.connections.map packConnection)) := by
      apply Writable.array
      · rw [List.length_map]
        exact h.connections
      · exact List.forall_mem_map.mpr fun c _ => writable_packConnection c
    simp only [List.forall_mem_cons]
    exact ⟨hNodes, hConnections, List.forall_mem_nil _⟩

/-! ## The whole snapshot -/

theorem toBytes_eq (s : Snapshot) : s.toBytes = 1 :: 0 :: 0 :: 0 :: s.pack.encode := rfl

theorem ofBytes_body (body : Bytes) : ofBytes (1 :: 0 :: 0 :: 0 :: body) =
    match (decode? body).bind unpack? with
    | some s => .ok s
    | none => .error .undecodable := rfl

/-- Bytes that begin as a snapshot does hold a part of the version, or the version and a part of the value. -/
theorem prefix_toBytes {s : Snapshot} {p : Bytes} (h : p <+: s.toBytes) :
    p.length < 4 ∨ ∃ body, p = 1 :: 0 :: 0 :: 0 :: body ∧ body <+: s.pack.encode := by
  match p with
  | [] | [_] | [_, _] | [_, _, _] => exact .inl (by simp)
  | a :: b :: c :: d :: body =>
    simp only [toBytes_eq, List.cons_prefix_cons] at h
    obtain ⟨rfl, rfl, rfl, rfl, hBody⟩ := h
    exact .inr ⟨body, rfl, hBody⟩

theorem ofBytes_truncated {p : Bytes} (h : p.length < 4) : ofBytes p = .error (.truncated p.length) := by
  match p with
  | [] | [_] | [_, _] | [_, _, _] => rfl
  | _ :: _ :: _ :: _ :: body => exact absurd h (Nat.not_lt.mpr (Nat.le_add_left 4 body.length))

/-- Snapshots are read back whatever follows them, and cut off anywhere they are none. -/
theorem ofBytes_toBytes (s : Snapshot) (h : s.Countable) :
    (∀ t, ofBytes (s.toBytes ++ t) = .ok s) ∧
      ∀ p, p <+: s.toBytes → p ≠ s.toBytes →
        ofBytes p = .error (if p.length < 4 then .truncated p.length else .undecodable) := by
  have hDepth : 4 ≤ maxDepth := by decide
  constructor
  · intro t
    rw [toBytes_eq, List.cons_append, List.cons_append, List.cons_append, List.cons_append, ofBytes_body,
      decode?_encode h.writable hDepth, Option.bind_some, unpack?_pack]
  · intro p hPrefix hNe
    rcases prefix_toBytes hPrefix with hShort | ⟨body, rfl, hBody⟩
    · rw [ofBytes_truncated hShort, if_pos hShort]
    · have hCut : body ≠ s.pack.encode := fun hSame => hNe (by rw [toBytes_eq, hSame])
      rw [ofBytes_body, decode?_cut h.writable hDepth hBody hCut, Option.bind_none, if_neg (by simp)]

/-- Two junctions and the track between them. -/
def stretch : Snapshot where
  nodes := [⟨⟨0⟩, 0.5, -2.25, some 12, [⟨300⟩], []⟩, ⟨⟨70000⟩, 100, 0, none, [], [⟨300⟩]⟩]
  connections := [⟨⟨300⟩, ⟨0⟩, ⟨70000⟩, true, true, -129⟩]

theorem ofBytes_stretch : stretch.Countable ∧ ofBytes (stretch.toBytes ++ [0xc1]) = .ok stretch ∧
    ofBytes [1, 0, 0] = .error (.truncated 3) ∧ ofBytes [1, 0, 0, 0] = .error .undecodable := by
  have hCountable : stretch.Countable := by decide
  have hCut := (ofBytes_toBytes stretch hCountable).2
  obtain ⟨rest, hRest⟩ : ∃ rest, stretch.pack.encode = 0x82 :: rest := ⟨_, rfl⟩
  refine ⟨hCountable, (ofBytes_toBytes stretch hCountable).1 [0xc1], hCut _ ?_ ?_, hCut _ ?_ ?_⟩
  all_goals simp [toBytes_eq, hRest]

end Snapshot

end TrackLayout
