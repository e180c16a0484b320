import Mathlib.Data.List.Nodup
import TrackLayout.Network.Cleanup
import TrackLayout.Proofs.Network.WellFormed

/-!
# Adding and removing what networks are made of

New nodes, new connections, and the removal of nodes without tracks. Each is
described by what it does to look-up, and each keeps a network well-formed. A
node that a connection needs has a track, so the removal takes none of those.
-/
set_option autoImplicit false

namespace TrackLayout

/-- Tracks attached in turn. -/
theorem Junction.foldl_attach (j : Junction) (tracks : List Attachment) :
    tracks.foldl attach j =
      { j with tracks := j.tracks ++ tracks, sides := tracks.foldl Sides.add j.sides } := by
  induction tracks generalizing j with
  | nil => simp
  | cons t rest ih => rw [List.foldl_cons, ih, List.foldl_cons]; simp [attach]

theorem Sides.ofTracks_append (tracks more : List Attachment) :
    ofTracks (tracks ++ more) = more.foldl add (ofTracks tracks) := by simp [ofTracks]

namespace Network

variable {net next : Network}

theorem node?_empty (n : NodeId) : empty.node? n = none := Table.get?_empty n

theorem connection?_empty (id : ConnectionId) : empty.connection? id = none := Table.get?_empty id

theorem empty_wellFormed : empty.WellFormed where
  node_id hj := by simp [node?_empty] at hj
  connection_id hc := by simp [connection?_empty] at hc
  ends_ne hc := by simp [connection?_empty] at hc
  start hc := by simp [connection?_empty] at hc
  stop hc := by simp [connection?_empty] at hc
  bounds hc := by simp [connection?_empty] at hc
  attached hj := by simp [node?_empty] at hj
  direction hj := by simp [node?_empty] at hj
  sides hj := by simp [node?_empty] at hj
  index := rfl

/-- No connection touches a node that is not present. -/
theorem WellFormed.touches_absent (hNet : net.WellFormed) {n : NodeId} (hn : net.node? n = none)
    (id : ConnectionId) : (net.connection? id).any (·.touches n) = false := by
  cases hc : net.connection? id with
  | none => rfl
  | some c =>
    have hStart := hNet.start hc
    have hStop := hNet.stop hc
    have hStartNe : c.start ≠ n := by rintro rfl; simp [hn] at hStart
    have hStopNe : c.stop ≠ n := by rintro rfl; simp [hn] at hStop
    simp [Connection.touches, hStartNe, hStopNe]

/-! ## New nodes -/

/-- `next` is `net` with one node more, which has no track. -/
structure Added (net : Network) (position : Position) (id : NodeId) (next : Network) : Prop where
  add : net.nodes.add? (fun id => { id, position }) = some (id, next.nodes)
  connections : next.connections = net.connections
  index : next.index = net.index

theorem addNode_eq_ok {position : Position} {id : NodeId} (h : net.addNode position = .ok (id, next)) :
    Added net position id next := by
  rw [addNode] at h
  split at h
  · next id nodes hAdd =>
    cases h
    exact ⟨hAdd, rfl, rfl⟩
  · cases h

theorem addNode_eq_error {position : Position} {e : NetworkError} (h : net.addNode position = .error e) :
    e = .idsExhausted ∧ UInt32.size ≤ net.nodes.slots.size + 1 := by
  rw [addNode] at h
  split at h
  · cases h
  · next hAdd => exact ⟨(Except.error.inj h).symm, Table.le_of_add?_eq_none hAdd⟩

namespace Added

variable {position : Position} {id : NodeId} (h : Added net position id next)
include h

theorem node? (n : NodeId) : next.node? n = if n = id then some { id, position } else net.node? n :=
  Table.get?_add? h.add n

theorem fresh : net.node? id = none := Table.get?_fresh h.add

theorem connection? (other : ConnectionId) : next.connection? other = net.connection? other := by
  rw [Network.connection?, h.connections, Network.connection?]

theorem node?_of_present {n : NodeId} {β : Type} {f : Junction → β} {b : β}
    (hn : (net.node? n).map f = some b) : (next.node? n).map f = some b := by
  rw [h.node?, if_neg, hn]
  rintro rfl
  simp [h.fresh] at hn

theorem wellFormed (hNet : net.WellFormed) : next.WellFormed where
  node_id {n j} hj := by
    rw [h.node?] at hj
    split at hj
    · next hn => rw [← Option.some.inj hj, hn]
    · exact hNet.node_id hj
  connection_id {other c} hc := hNet.connection_id (h.connection? other ▸ hc)
  ends_ne {other c} hc := hNet.ends_ne (h.connection? other ▸ hc)
  start {other c} hc := h.node?_of_present (hNet.start (h.connection? other ▸ hc))
  stop {other c} hc := h.node?_of_present (hNet.stop (h.connection? other ▸ hc))
  bounds {other c} hc := hNet.bounds (h.connection? other ▸ hc)
  attached {n j} hj other := by
    rw [h.node?] at hj
    rw [h.connection?]
    split at hj
    · next hn =>
      rw [← Option.some.inj hj, hn, hNet.touches_absent h.fresh]
      rfl
    · exact hNet.attached hj other
  direction {n j} hj t ht := by
    rw [h.node?] at hj
    rw [h.connection?]
    split at hj
    · rw [← Option.some.inj hj] at ht
      cases ht
    · exact hNet.direction hj t ht
  sides {n j} hj := by
    rw [h.node?] at hj
    split at hj
    · rw [← Option.some.inj hj]
      rfl
    · exact hNet.sides hj
  index := by
    rw [h.index, boxes, h.connections]
    exact hNet.index

end Added

/-! ## New connections -/

/-- The connection that is laid between two points. -/
def TrackSpec.connection (spec : TrackSpec) (start stop : NodeId) (p q : Point) (id : ConnectionId) :
    Connection :=
  { Connection.between id start stop ⟨p, q⟩ with
    trackType := spec.trackType, heightType := spec.heightType, plane := spec.plane }

theorem TrackSpec.touches_connection (spec : TrackSpec) (start stop : NodeId) (p q : Point)
    (id : ConnectionId) (n : NodeId) :
    (spec.connection start stop p q id).touches n = decide (n = start ∨ n = stop) := by
  rw [Bool.eq_iff_iff, decide_eq_true_iff, eq_comm (a := n), eq_comm (a := n)]
  simp [connection, Connection.between, Connection.touches]

/-- `next` is `net` with one connection more. -/
structure Connected (net : Network) (start stop : NodeId) (spec : TrackSpec) (p q : Point)
    (id : ConnectionId) (next : Network) : Prop where
  ends_ne : start ≠ stop
  startPoint : (net.node? start).map Junction.point = some p
  stopPoint : (net.node? stop).map Junction.point = some q
  add : net.connections.add? (spec.connection start stop p q) = some (id, next.connections)
  nodes : next.nodes = (net.nodes.modify start (·.attach ⟨id, Angle.toPoint p q⟩)).modify stop
    (·.attach ⟨id, Angle.toPoint q p⟩)
  index : next.index = net.index.insert (.spanning p q) id

theorem pointOf_eq_ok {n : NodeId} {p : Point} (h : net.pointOf n = .ok p) :
    (net.node? n).map Junction.point = some p := by
  rw [pointOf] at h
  split at h
  · next j hj => rw [hj, Option.map_some, Except.ok.inj h]
  · cases h

theorem connect_eq_ok {start stop : NodeId} {spec : TrackSpec} {id : ConnectionId}
    (h : net.connect start stop spec = .ok (id, next)) :
    ∃ p q, Connected net start stop spec p q id next := by
  rw [connect] at h
  split at h
  · cases h
  · next hNe =>
    cases hp : net.pointOf start with
    | error e => rw [hp] at h; cases h
    | ok p =>
      cases hq : net.pointOf stop with
      | error e => rw [hp, hq] at h; cases h
      | ok q =>
        rw [hp, hq] at h
        dsimp only [bind, Except.bind, pure, Except.pure] at h
        split at h
        · cases h
        · next id connections hAdd =>
          cases h
          exact ⟨p, q, hNe, pointOf_eq_ok hp, pointOf_eq_ok hq, hAdd, rfl, rfl⟩

/-- Different nodes that are present can be connected as long as there are ids. -/
theorem connect_eq_error {start stop : NodeId} {spec : TrackSpec} {e : NetworkError} (hNe : start ≠ stop)
    (hStart : (net.node? start).isSome = true) (hStop : (net.node? stop).isSome = true)
    (h : net.connect start stop spec = .error e) :
    e = .idsExhausted ∧ UInt32.size ≤ net.connections.slots.size + 1 := by
  obtain ⟨i, hi⟩ := Option.isSome_iff_exists.mp hStart
  obtain ⟨j, hj⟩ := Option.isSome_iff_exists.mp hStop
  rw [connect, if_neg hNe, pointOf, hi, pointOf, hj] at h
  dsimp only [bind, Except.bind, pure, Except.pure] at h
  split at h
  · next hAdd => exact ⟨(Except.error.inj h).symm, Table.le_of_add?_eq_none hAdd⟩
  · cases h

/-- What a new connection attaches to a node. -/
def newTracks (id : ConnectionId) (start stop : NodeId) (p q : Point) (n : NodeId) : List Attachment :=
  if n = start then [⟨id, Angle.toPoint p q⟩] else if n = stop then [⟨id, Angle.toPoint q p⟩] else []

theorem count_newTracks (id : ConnectionId) (start stop : NodeId) (p q : Point) (n : NodeId)
    (other : ConnectionId) : ((newTracks id start stop p q n).map (·.connection)).count other =
      if other = id ∧ (n = start ∨ n = stop) then 1 else 0 := by
  obtain hOther | hOther := eq_or_ne other id
  · subst hOther
    rw [newTracks]
    split
    · simp [*]
    · split <;> simp [*]
  · rw [if_neg (fun h => hOther h.1), List.count_eq_zero, newTracks]
    split
    · simpa using hOther
    · split <;> simp [hOther]

namespace Connected

variable {start stop : NodeId} {spec : TrackSpec} {p q : Point} {id : ConnectionId}
  (h : Connected net start stop spec p q id next)
include h

theorem node? (n : NodeId) :
    next.node? n = (net.node? n).map fun j =>
      { j with
        tracks := j.tracks ++ newTracks id start stop p q n
        sides := (newTracks id start stop p q n).foldl Sides.add j.sides } := by
  rw [Network.node?, h.nodes, Table.get?_modify, Table.get?_modify, newTracks]
  have hNe := h.ends_ne
  obtain hStart | hStart := eq_or_ne n start
  · subst hStart
    simp [hNe, Network.node?, Junction.attach]
  · obtain hStop | hStop := eq_or_ne n stop
    · simp [hStop, hNe.symm, Network.node?, Junction.attach]
    · simp [hStart, hStop, Network.node?]

theorem connection? (other : ConnectionId) : next.connection? other =
    if other = id then some (spec.connection start stop p q id) else net.connection? other :=
  Table.get?_add? h.add other

theorem fresh : net.connection? id = none := Table.get?_fresh h.add

theorem point (n : NodeId) : (next.node? n).map Junction.point = (net.node? n).map Junction.point := by
  rw [h.node?, Option.map_map]
  rfl

theorem boxes : next.boxes = net.boxes ++ [(.spanning p q, id)] := by
  rw [Network.boxes, Table.toList_add? h.add, List.map_append]
  rfl

theorem connection_cases {other : ConnectionId} {c : Connection} (hc : next.connection? other = some c) :
    (other = id ∧ c = spec.connection start stop p q id) ∨ net.connection? other = some c := by
  rw [h.connection?] at hc
  split at hc
  · next hOther => exact .inl ⟨hOther, (Option.some.inj hc).symm⟩
  · exact .inr hc

theorem attached (hNet : net.WellFormed) {n : NodeId} {j : Junction} (hj : next.node? n = some j)
    (other : ConnectionId) :
    j.connections.count other = if (next.connection? other).any (·.touches n) then 1 else 0 := by
  rw [h.node?] at hj
  obtain ⟨i, hi, rfl⟩ := Option.map_eq_some_iff.mp hj
  have hOld := hNet.attached hi other
  rw [h.connection?]
  simp only [Junction.connections, List.map_append, List.count_append] at hOld ⊢
  rw [hOld, count_newTracks]
  obtain hOther | hOther := eq_or_ne other id
  · simp [hOther, h.fresh, TrackSpec.touches_connection]
  · simp [hOther]

/-- The new attachments point to the other end. -/
theorem direction_newTracks {n : NodeId} {j : Junction} (hj : net.node? n = some j) {t : Attachment}
    (ht : t ∈ newTracks id start stop p q n) : t.connection = id ∧
      ((spec.connection start stop p q id).farPoint? n).map (Angle.toPoint j.point) = some t.direction := by
  have hNe := h.ends_ne
  rw [newTracks] at ht
  split at ht
  · next hStart =>
    have hPoint := h.startPoint
    rw [← hStart, hj, Option.map_some, Option.some.injEq] at hPoint
    rw [List.mem_singleton.mp ht, hPoint]
    simp [TrackSpec.connection, Connection.between, Connection.farPoint?, Connection.endOf?, hStart]
  · split at ht
    · next hStop =>
      have hPoint := h.stopPoint
      rw [← hStop, hj, Option.map_some, Option.some.injEq] at hPoint
      rw [List.mem_singleton.mp ht, hPoint]
      simp [TrackSpec.connection, Connection.between, Connection.farPoint?, Connection.endOf?, hStop, hNe]
    · cases ht

theorem direction (hNet : net.WellFormed) {n : NodeId} {j : Junction} (hj : next.node? n = some j)
    {t : Attachment} (ht : t ∈ j.tracks) :
    ((next.connection? t.connection).bind (·.farPoint? n)).map (Angle.toPoint j.point) =
      some t.direction := by
  rw [h.node?] at hj
  obtain ⟨i, hi, rfl⟩ := Option.map_eq_some_iff.mp hj
  rw [h.connection?]
  rcases List.mem_append.mp ht with hOld | hNew
  · have hDirection := hNet.direction hi t hOld
    rw [if_neg]
    · exact hDirection
    · intro hId
      simp [hId, h.fresh] at hDirection
  · obtain ⟨hId, hDirection⟩ := h.direction_newTracks hi hNew
    rw [if_pos hId]
    exact hDirection

theorem wellFormed (hNet : net.WellFormed) : next.WellFormed where
  node_id {n j} hj := by
    rw [h.node?] at hj
    obtain ⟨i, hi, rfl⟩ := Option.map_eq_some_iff.mp hj
    have hId := hNet.node_id hi
    exact hId
  connection_id {other c} hc := by
    obtain ⟨rfl, rfl⟩ | hc := h.connection_cases hc
    · rfl
    · exact hNet.connection_id hc
  ends_ne {other c} hc := by
    obtain ⟨rfl, rfl⟩ | hc := h.connection_cases hc
    · exact h.ends_ne
    · exact hNet.ends_ne hc
  start {other c} hc := by
    rw [h.point]
    obtain ⟨rfl, rfl⟩ | hc := h.connection_cases hc
    · exact h.startPoint
    · exact hNet.start hc
  stop {other c} hc := by
    rw [h.point]
    obtain ⟨rfl, rfl⟩ | hc := h.connection_cases hc
    · exact h.stopPoint
    · exact hNet.stop hc
  bounds {other c} hc := by
    obtain ⟨rfl, rfl⟩ | hc := h.connection_cases hc
    · rfl
    · exact hNet.bounds hc
  attached hj other := h.attached hNet hj other
  direction hj t ht := h.direction hNet hj ht
  sides {n j} hj := by
    rw [h.node?] at hj
    obtain ⟨i, hi, rfl⟩ := Option.map_eq_some_iff.mp hj
    rw [hNet.sides hi, Sides.ofTracks_append]
  index := by
    rw [h.index, h.boxes, BoxTree.ofEntries_concat, hNet.index]

end Connected

/-! ## Nodes without tracks -/

/-- The connections attached to a node are those that touch it. -/
theorem WellFormed.mem_connections (hNet : net.WellFormed) {n : NodeId} {j : Junction}
    (hj : net.node? n = some j) (id : ConnectionId) :
    id ∈ j.connections ↔ (net.connection? id).any (·.touches n) = true := by
  rw [← List.count_pos_iff, hNet.attached hj]
  split <;> simp [*]

theorem WellFormed.connections_nodup (hNet : net.WellFormed) {n : NodeId} {j : Junction}
    (hj : net.node? n = some j) : j.connections.Nodup := by
  rw [List.nodup_iff_count_le_one]
  intro id
  rw [hNet.attached hj]
  split <;> decide

theorem node?_prune (net : Network) (n : NodeId) :
    net.prune.node? n = (net.node? n).filter (!·.tracks.isEmpty) := Table.get?_filter ..

theorem node?_of_prune {n : NodeId} {j : Junction} (h : net.prune.node? n = some j) :
    net.node? n = some j ∧ j.tracks ≠ [] := by
  rw [node?_prune, Option.filter_eq_some_iff] at h
  simpa using h

theorem WellFormed.node?_prune_of_touches (hNet : net.WellFormed) {id : ConnectionId} {c : Connection}
    (hc : net.connection? id = some c) {n : NodeId} (hTouches : c.touches n = true) :
    net.prune.node? n = net.node? n := by
  rw [node?_prune]
  cases hj : net.node? n with
  | none => rfl
  | some j =>
    have hMem : id ∈ j.connections := by simpa [hNet.mem_connections hj, hc] using hTouches
    have hTracks : j.tracks ≠ [] := by
      rintro hNil
      simp [Junction.connections, hNil] at hMem
    simp [Option.filter_some, hTracks]

theorem WellFormed.prune (hNet : net.WellFormed) : net.prune.WellFormed where
  node_id hj := hNet.node_id (node?_of_prune hj).1
  connection_id hc := hNet.connection_id hc
  ends_ne hc := hNet.ends_ne hc
  start {id c} hc := by
    rw [hNet.node?_prune_of_touches hc (by simp [Connection.touches])]
    exact hNet.start hc
  stop {id c} hc := by
    rw [hNet.node?_prune_of_touches hc (by simp [Connection.touches])]
    exact hNet.stop hc
  bounds hc := hNet.bounds hc
  attached hj := hNet.attached (node?_of_prune hj).1
  direction hj := hNet.direction (node?_of_prune hj).1
  sides hj := hNet.sides (node?_of_prune hj).1
  index := hNet.index

end Network

end TrackLayout
