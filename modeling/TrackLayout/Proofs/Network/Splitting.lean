import TrackLayout.Proofs.Network.Fitting

/-!
# Splitting junctions

A track that moves from one node to another at the same place takes its
connection along: the end that was at the first node is at the second one. The
points stay where they are. Nothing else changes, and a network stays
well-formed under every single move.
-/
set_option autoImplicit false

namespace TrackLayout

namespace Connection

/-- The end at one node given to another node. Points and box stay. -/
def handOver (source target : NodeId) (c : Connection) : Connection :=
  if c.start = source then { c with start := target }
  else if c.stop = source then { c with stop := target }
  else c

variable {source target : NodeId} {c : Connection}

theorem loose_handOver : (c.handOver source target).loose = c.loose := by
  rw [handOver]
  split
  · rfl
  · split <;> rfl

theorem start_handOver : (c.handOver source target).start = if c.start = source then target else c.start := by
  rw [handOver]
  split
  · rfl
  · split <;> rfl

theorem stop_handOver (hEnds : c.start ≠ c.stop) :
    (c.handOver source target).stop = if c.stop = source then target else c.stop := by
  rw [handOver]
  split
  · next hStart => rw [if_neg fun hStop => hEnds (hStart.trans hStop.symm)]
  · split <;> rfl

theorem ends_ne_handOver (hEnds : c.start ≠ c.stop) (hAway : c.touches target = false) :
    (c.handOver source target).start ≠ (c.handOver source target).stop := by
  simp only [touches, Bool.or_eq_false_iff, beq_eq_false_iff_ne] at hAway
  rw [handOver]
  split
  · exact hAway.2.symm
  · split
    · exact hAway.1
    · exact hEnds

theorem touches_handOver (hNe : source ≠ target) (hEnds : c.start ≠ c.stop)
    (hHere : c.touches source = true) (hAway : c.touches target = false) (n : NodeId) :
    (c.handOver source target).touches n =
      if n = source then false else if n = target then true else c.touches n := by
  simp only [touches, Bool.or_eq_false_iff, Bool.or_eq_true, beq_eq_false_iff_ne, beq_iff_eq] at hHere hAway
  rw [Bool.eq_iff_iff]
  rcases hHere with rfl | rfl <;> simp only [handOver, touches] <;> grind

theorem farPoint?_handOver (hNe : source ≠ target) (hEnds : c.start ≠ c.stop)
    (hHere : c.touches source = true) (hAway : c.touches target = false) {n : NodeId} (hn : n ≠ source) :
    (c.handOver source target).farPoint? n = if n = target then c.farPoint? source else c.farPoint? n := by
  simp only [touches, Bool.or_eq_false_iff, Bool.or_eq_true, beq_eq_false_iff_ne, beq_iff_eq] at hHere hAway
  rcases hHere with rfl | rfl <;> simp only [handOver, farPoint?, endOf?] <;> grind

/-- Putting the end elsewhere at the same place only changes its node. -/
theorem rebind_eq_handOver {point : Point} (hBounds : c.bounds = .spanning c.startPoint c.stopPoint)
    (hStart : c.start = source → c.startPoint = point) (hStop : c.stop = source → c.stopPoint = point) :
    (match c.endOf? source with
      | some which => c.rebind which target point
      | none => c) = c.handOver source target := by
  obtain ⟨id, start, stop, startPoint, stopPoint, bounds, trackType, heightType, straight, plane⟩ := c
  dsimp only at hBounds hStart hStop
  subst hBounds
  obtain hs | hs := eq_or_ne start source
  · rw [← hStart hs]
    simp [endOf?, handOver, rebind, segment, Segment.bounds, hs]
  · obtain ht | ht := eq_or_ne stop source
    · rw [← hStop ht]
      simp [endOf?, handOver, rebind, segment, Segment.bounds, hs, ht]
    · simp [endOf?, handOver, hs, ht]

end Connection

namespace Network

/-- `next` is `net` with tracks of one node moved to another one in turn. -/
structure Moved (net : Network) (source target : NodeId) (ts : List Attachment) (next : Network) : Prop where
  node? : ∀ n, next.node? n = (net.node? n).map fun j =>
    if n = source then ts.foldl (fun j t => j.detach t.connection) j
    else if n = target then ts.foldl Junction.attach j
    else j
  connection? : ∀ id, next.connection? id = (net.connection? id).map fun c =>
    if id ∈ ts.map (·.connection) then c.handOver source target else c
  index : next.index = net.index
  nodeSlots : next.nodes.slots.size = net.nodes.slots.size
  connectionSlots : next.connections.slots.size = net.connections.slots.size

variable {net next : Network} {source target : NodeId} {j : Junction} {t : Attachment}

theorem direction?_of_mem (hNodup : j.connections.Nodup) (ht : t ∈ j.tracks) :
    j.direction? t.connection = some t.direction := by
  rw [Junction.direction?]
  obtain ⟨u, hu⟩ := Option.isSome_iff_exists.mp
    (List.find?_isSome.mpr ⟨t, ht, beq_self_eq_true t.connection⟩ :
      (j.tracks.find? (·.connection == t.connection)).isSome = true)
  have hSame : u.connection = t.connection := by simpa using List.find?_some hu
  have hEq : u = t := List.inj_on_of_nodup_map hNodup (List.mem_of_find?_eq_some hu) ht hSame
  rw [hu, hEq, Option.map_some]

theorem moveTrack_moved (hNet : net.WellFormed) (hNe : source ≠ target) (hj : net.node? source = some j)
    (ht : t ∈ j.tracks) :
    Moved net source target [t] (moveTrack source target j.point net t.connection) := by
  have hDirection : (net.node? source).bind (·.direction? t.connection) = some t.direction := by
    rw [hj, Option.bind_some, direction?_of_mem (hNet.connections_nodup hj) ht]
  have hMove : moveTrack source target j.point net t.connection =
      ((net.modifyNode source (·.detach t.connection)).modifyNode target (·.attach t)).modifyConnection
        t.connection fun c =>
          match c.endOf? source with
          | some which => c.rebind which target j.point
          | none => c := by
    unfold moveTrack
    split
    · next hNone =>
      rw [hDirection] at hNone
      cases hNone
    · next hSome =>
      rw [hDirection] at hSome
      cases hSome
      rfl
  rw [hMove]
  refine ⟨fun n => ?_, fun id => ?_, rfl, ?_, ?_⟩
  · simp only [modifyNode, modifyConnection, Network.node?, Table.get?_modify]
    obtain hs | hs := eq_or_ne n source
    · simp [hs, hNe]
    · obtain hn | hn := eq_or_ne n target <;> simp [hs, hn, hNe.symm]
  · simp only [modifyNode, modifyConnection, Network.connection?, Table.get?_modify, List.map_cons,
      List.map_nil, List.mem_singleton]
    split
    · cases hc : net.connections.get? id with
      | none => rfl
      | some c =>
        have hStart := hNet.start hc
        have hStop := hNet.stop hc
        rw [Option.map_some, Option.map_some, Connection.rebind_eq_handOver (hNet.bounds hc)]
        · rintro rfl
          simpa [hj, eq_comm] using hStart
        · rintro rfl
          simpa [hj, eq_comm] using hStop
    · simp
  · simp [modifyNode, modifyConnection]
  · simp [modifyNode, modifyConnection]

/-- Taking away an attachment takes away the only mention of its connection. -/
theorem count_eraseP {tracks : List Attachment} (h : (tracks.map (·.connection)).Nodup)
    (id other : ConnectionId) : ((tracks.eraseP (·.connection == id)).map (·.connection)).count other =
      if other = id then 0 else (tracks.map (·.connection)).count other := by
  have hErase : (tracks.eraseP (·.connection == id)).map (·.connection) =
      (tracks.map (·.connection)).erase id := by
    rw [List.erase_eq_eraseP', List.eraseP_map]
    rfl
  rw [hErase]
  split
  · next hOther =>
    rw [hOther, List.count_eq_zero]
    exact h.not_mem_erase
  · next hOther => exact List.count_erase_of_ne hOther

theorem boxes_of_loose {other : Network}
    (h : net.connections.map Connection.loose = other.connections.map Connection.loose) :
    net.boxes = other.boxes := by
  have hBoxes : ∀ net : Network, net.boxes =
      (net.connections.map Connection.loose).toList.map fun e => (e.2.bounds, e.1) := fun net => by
    simp only [boxes, Table.toList_map, List.map_map]
    rfl
  rw [hBoxes, h, ← hBoxes]

namespace Moved

variable {ts : List Attachment}

theorem loose (h : Moved net source target ts next) :
    next.connections.map Connection.loose = net.connections.map Connection.loose := by
  refine Table.map_eq_of_get? h.connectionSlots fun id => ?_
  have hGet := h.connection? id
  rw [Network.connection?, Network.connection?] at hGet
  rw [hGet, Option.map_map]
  congr
  funext c
  dsimp only [Function.comp]
  split
  · exact Connection.loose_handOver
  · rfl

section Step

variable (h : Moved net source target [t] next)
include h

theorem connection?_of_ne {id : ConnectionId} (hId : id ≠ t.connection) :
    next.connection? id = net.connection? id := by
  simp [h.connection?, hId]

theorem connection_cases {d : Connection} (hd : net.connection? t.connection = some d) {id : ConnectionId}
    {c : Connection} (hc : next.connection? id = some c) :
    (id ≠ t.connection ∧ net.connection? id = some c) ∨
      (id = t.connection ∧ c = d.handOver source target) := by
  rw [h.connection?] at hc
  obtain ⟨b, hb, rfl⟩ := Option.map_eq_some_iff.mp hc
  obtain hId | hId := eq_or_ne id t.connection
  · rw [hId, hd] at hb
    exact .inr ⟨hId, by simp [hId, Option.some.inj hb]⟩
  · exact .inl ⟨hId, by simp [hId, hb]⟩

theorem point (n : NodeId) : (next.node? n).map Junction.point = (net.node? n).map Junction.point := by
  have hPoint : ∀ j : Junction, (if n = source then j.detach t.connection
      else if n = target then j.attach t else j).point = j.point := fun j => by
    split
    · rfl
    · split <;> rfl
  rw [h.node?, Option.map_map]
  exact congrArg (Option.map · (net.node? n)) (funext hPoint)

theorem any_touches (hNe : source ≠ target) {d : Connection} (hd : net.connection? t.connection = some d)
    (hEnds : d.start ≠ d.stop) (hHere : d.touches source = true) (hAway : d.touches target = false)
    (id : ConnectionId) (n : NodeId) : (next.connection? id).any (·.touches n) =
      if id = t.connection ∧ n = source then false
      else if id = t.connection ∧ n = target then true
      else (net.connection? id).any (·.touches n) := by
  obtain hId | hId := eq_or_ne id t.connection
  · simp [hId, h.connection?, hd, Connection.touches_handOver hNe hEnds hHere hAway]
  · simp [hId, h.connection?_of_ne]

theorem farPoint? (hNe : source ≠ target) {d : Connection} (hd : net.connection? t.connection = some d)
    (hEnds : d.start ≠ d.stop) (hHere : d.touches source = true) (hAway : d.touches target = false)
    {id : ConnectionId} {n : NodeId} (hn : id = t.connection → n ≠ source) :
    (next.connection? id).bind (·.farPoint? n) =
      if id = t.connection ∧ n = target then d.farPoint? source
      else (net.connection? id).bind (·.farPoint? n) := by
  obtain hId | hId := eq_or_ne id t.connection
  · simp [hId, h.connection?, hd, Connection.farPoint?_handOver hNe hEnds hHere hAway (hn hId)]
  · simp [hId, h.connection?_of_ne]

theorem attached (hNet : net.WellFormed) (hNe : source ≠ target) {d : Connection}
    (hd : net.connection? t.connection = some d) (hHere : d.touches source = true)
    (hAway : d.touches target = false) {n : NodeId} {i : Junction} (hi : next.node? n = some i)
    (id : ConnectionId) :
    i.connections.count id = if (next.connection? id).any (·.touches n) then 1 else 0 := by
  rw [h.any_touches hNe hd (hNet.ends_ne hd) hHere hAway]
  rw [h.node?] at hi
  obtain ⟨b, hb, rfl⟩ := Option.map_eq_some_iff.mp hi
  have hOld := hNet.attached hb id
  rw [Junction.connections] at hOld ⊢
  obtain hSource | hSource := eq_or_ne n source
  · rw [if_pos hSource]
    refine (count_eraseP (hNet.connections_nodup hb) ..).trans ?_
    rw [hOld]
    obtain hId | hId := eq_or_ne id t.connection <;> simp [hId, hSource, hNe]
  · rw [if_neg hSource]
    obtain hTarget | hTarget := eq_or_ne n target
    · rw [if_pos hTarget]
      simp only [List.foldl_cons, List.foldl_nil, Junction.attach, List.map_append, List.map_cons,
        List.map_nil, List.count_append, hOld]
      obtain hId | hId := eq_or_ne id t.connection
      · simp [hId, hTarget, hd, hAway, hNe.symm]
      · simp [hId, Ne.symm hId]
    · rw [if_neg hTarget, hOld]
      simp [hSource, hTarget]

theorem direction (hNet : net.WellFormed) (hNe : source ≠ target) (hj : net.node? source = some j)
    (ht : t ∈ j.tracks) (hPoint : (net.node? target).map Junction.point = some j.point) {d : Connection}
    (hd : net.connection? t.connection = some d) (hHere : d.touches source = true)
    (hAway : d.touches target = false) {n : NodeId} {i : Junction} (hi : next.node? n = some i)
    {u : Attachment} (hu : u ∈ i.tracks) :
    ((next.connection? u.connection).bind (·.farPoint? n)).map (Angle.toPoint i.point) =
      some u.direction := by
  have hFar : (u.connection = t.connection → n ≠ source) →
      (next.connection? u.connection).bind (·.farPoint? n) =
        if u.connection = t.connection ∧ n = target then d.farPoint? source
        else (net.connection? u.connection).bind (·.farPoint? n) :=
    h.farPoint? hNe hd (hNet.ends_ne hd) hHere hAway
  rw [h.node?] at hi
  obtain ⟨b, hb, rfl⟩ := Option.map_eq_some_iff.mp hi
  obtain hSource | hSource := eq_or_ne n source
  · rw [if_pos hSource] at hu ⊢
    have hOther : u.connection ≠ t.connection := fun hId => by
      have hCount := count_eraseP (hNet.connections_nodup hb) t.connection u.connection
      rw [if_pos hId, List.count_eq_zero] at hCount
      exact hCount (List.mem_map_of_mem hu)
    rw [hFar fun hId => absurd hId hOther, if_neg fun hBoth => hOther hBoth.1]
    exact hNet.direction hb u (List.mem_of_mem_eraseP hu)
  · rw [hFar fun _ => hSource]
    rw [if_neg hSource] at hu ⊢
    obtain hTarget | hTarget := eq_or_ne n target
    · rw [if_pos hTarget] at hu ⊢
      rw [hTarget] at hb
      rcases List.mem_append.mp hu with hOld | hNew
      · have hOther : u.connection ≠ t.connection := fun hId => by
          have hTouches := (hNet.mem_connections hb u.connection).mp (List.mem_map_of_mem hOld)
          simp [hId, hd, hAway] at hTouches
        rw [if_neg fun hBoth => hOther hBoth.1, hTarget]
        exact hNet.direction hb u hOld
      · have hDirection := hNet.direction hj t ht
        rw [hd, Option.bind_some] at hDirection
        rw [hb, Option.map_some, Option.some.injEq] at hPoint
        rw [List.mem_singleton.mp hNew, if_pos ⟨rfl, hTarget⟩, ← hDirection, ← hPoint]
        rfl
    · rw [if_neg hTarget] at hu ⊢
      rw [if_neg fun hBoth => hTarget hBoth.2]
      exact hNet.direction hb u hu

theorem wellFormed (hNet : net.WellFormed) (hNe : source ≠ target) (hj : net.node? source = some j)
    (ht : t ∈ j.tracks) (hPoint : (net.node? target).map Junction.point = some j.point)
    (hAway : (net.connection? t.connection).any (·.touches target) = false) : next.WellFormed := by
  obtain ⟨d, hd, hHere⟩ := hNet.exists_connection hj ht
  rw [hd, Option.any_some] at hAway
  have hEnds := hNet.ends_ne hd
  have hLoose := Connection.loose_eq_iff.mp
    (Connection.loose_handOver : (d.handOver source target).loose = d.loose)
  exact {
    node_id := fun {n i} hi => by
      rw [h.node?] at hi
      obtain ⟨b, hb, rfl⟩ := Option.map_eq_some_iff.mp hi
      have hId := hNet.node_id hb
      split
      · exact hId
      · split <;> exact hId
    connection_id := fun {id c} hc => by
      rcases h.connection_cases hd hc with ⟨-, hc⟩ | ⟨hId, hc⟩
      · exact hNet.connection_id hc
      · rw [hc, hId, ← hNet.connection_id hd]
        exact hLoose.1
    ends_ne := fun {id c} hc => by
      rcases h.connection_cases hd hc with ⟨-, hc⟩ | ⟨hId, hc⟩
      · exact hNet.ends_ne hc
      · rw [hc]
        exact Connection.ends_ne_handOver hEnds hAway
    start := fun {id c} hc => by
      rw [h.point]
      rcases h.connection_cases hd hc with ⟨-, hc⟩ | ⟨hId, hc⟩
      · exact hNet.start hc
      · have hStart := hNet.start hd
        rw [hc, Connection.start_handOver, hLoose.2.1]
        split
        · next hSource =>
          rw [hSource, hj] at hStart
          exact hPoint.trans hStart
        · exact hStart
    stop := fun {id c} hc => by
      rw [h.point]
      rcases h.connection_cases hd hc with ⟨-, hc⟩ | ⟨hId, hc⟩
      · exact hNet.stop hc
      · have hStop := hNet.stop hd
        rw [hc, Connection.stop_handOver hEnds, hLoose.2.2.1]
        split
        · next hSource =>
          rw [hSource, hj] at hStop
          exact hPoint.trans hStop
        · exact hStop
    bounds := fun {id c} hc => by
      rcases h.connection_cases hd hc with ⟨-, hc⟩ | ⟨hId, hc⟩
      · exact hNet.bounds hc
      · rw [hc, hLoose.2.1, hLoose.2.2.1, hLoose.2.2.2.1]
        exact hNet.bounds hd
    attached := fun hi id => h.attached hNet hNe hd hHere hAway hi id
    direction := fun hi u hu => h.direction hNet hNe hj ht hPoint hd hHere hAway hi hu
    sides := fun {n i} hi => by
      rw [h.node?] at hi
      obtain ⟨b, hb, rfl⟩ := Option.map_eq_some_iff.mp hi
      have hSides := hNet.sides hb
      split
      · rfl
      · split
        · simp [Junction.attach, hSides, Sides.ofTracks_append]
        · exact hSides
    index := by rw [h.index, boxes_of_loose h.loose, hNet.index] }

end Step

theorem nil (net : Network) (source target : NodeId) : Moved net source target [] net :=
  ⟨fun n => by simp, fun id => by simp, rfl, rfl, rfl⟩

/-- The moves of different tracks one after the other. -/
theorem cons {mid : Network} (hFirst : Moved net source target [t] mid) (hRest : Moved mid source target ts next)
    (hNew : t.connection ∉ ts.map (·.connection)) : Moved net source target (t :: ts) next where
  node? n := by
    rw [hRest.node?, hFirst.node?, Option.map_map]
    congr
    funext j
    dsimp only [Function.comp, List.foldl_cons, List.foldl_nil]
    split
    · rfl
    · split <;> rfl
  connection? id := by
    rw [hRest.connection?, hFirst.connection?, Option.map_map]
    congr
    funext c
    dsimp only [Function.comp]
    obtain hId | hId := eq_or_ne id t.connection
    · rw [hId, if_neg hNew]
      simp
    · simp [hId]
  index := hRest.index.trans hFirst.index
  nodeSlots := hRest.nodeSlots.trans hFirst.nodeSlots
  connectionSlots := hRest.connectionSlots.trans hFirst.connectionSlots

end Moved

/-- Moving tracks of one node to another one at the same place, that none of them touches yet. -/
theorem foldl_moveTrack {ts : List Attachment} (hNet : net.WellFormed) (hNe : source ≠ target)
    (hj : net.node? source = some j) (hMem : ∀ t ∈ ts, t ∈ j.tracks)
    (hNodup : (ts.map (·.connection)).Nodup) (hPoint : (net.node? target).map Junction.point = some j.point)
    (hAway : ∀ t ∈ ts, (net.connection? t.connection).any (·.touches target) = false) :
    Moved net source target ts ((ts.map (·.connection)).foldl (moveTrack source target j.point) net) ∧
      ((ts.map (·.connection)).foldl (moveTrack source target j.point) net).WellFormed := by
  -- a move leaves a well-formed network in which the tracks after it are still to be moved
  induction ts generalizing net j with
  | nil => exact ⟨.nil net source target, hNet⟩
  | cons t rest ih =>
    rw [List.map_cons, List.nodup_cons] at hNodup
    obtain ⟨hNew, hRest⟩ := hNodup
    have ht := hMem t List.mem_cons_self
    have hStep := moveTrack_moved hNet hNe hj ht
    have hMid := hStep.wellFormed hNet hNe hj ht hPoint (hAway t List.mem_cons_self)
    have hSource : (moveTrack source target j.point net t.connection).node? source =
        some (j.detach t.connection) := by
      rw [hStep.node?, hj, Option.map_some, if_pos rfl]
      rfl
    have hOther : ∀ u ∈ rest, u.connection ≠ t.connection := fun u hu hId =>
      hNew (hId ▸ List.mem_map_of_mem hu)
    obtain ⟨hMoved, hNext⟩ := ih hMid hSource
      (fun u hu => (List.mem_eraseP_of_neg (by simpa using hOther u hu)).mpr
        (hMem u (List.mem_cons_of_mem t hu)))
      hRest ((hStep.point target).trans hPoint)
      (fun u hu => by
        rw [hStep.connection?_of_ne (hOther u hu)]
        exact hAway u (List.mem_cons_of_mem t hu))
    exact ⟨hStep.cons hMoved hNew, hNext⟩

/-! ## One split -/

theorem mem_foldl_detach {ts : List Attachment} {u : Attachment} (hu : u ∈ j.tracks)
    (hStays : u.connection ∉ ts.map (·.connection)) :
    u ∈ (ts.foldl (fun j t => j.detach t.connection) j).tracks := by
  induction ts generalizing j with
  | nil => exact hu
  | cons t rest ih =>
    rw [List.map_cons, List.mem_cons, not_or] at hStays
    exact ih ((List.mem_eraseP_of_neg (by simpa using hStays.1)).mpr hu) hStays.2

/-- `next` is `net` with some of the later tracks of a node split off to a new one. -/
structure Split (net : Network) (n : NodeId) (j : Junction) (ts : List Attachment) (sibling : NodeId)
    (next : Network) : Prop where
  node : net.node? n = some j
  moved_ne_nil : ts ≠ []
  later : ts.Sublist j.tracks.tail
  sibling_val : sibling.val.toNat = net.nodes.slots.size
  nodeSlots : next.nodes.slots.size = net.nodes.slots.size + 1
  node? : ∀ m, (next.node? m).map Junction.unlinked =
    if m = sibling then some { id := sibling, position := j.position, tracks := ts, sides := .ofTracks ts }
    else (net.node? m).map fun i =>
      (if m = n then ts.foldl (fun j t => j.detach t.connection) i else i).unlinked
  loose : next.connections.map Connection.loose = net.connections.map Connection.loose
  index : next.index = net.index

/-- A new node at the same place, moves to it, and links between whatever nodes make a split. -/
theorem Added.split {n id : NodeId} {mid moved : Network} {ts : List Attachment}
    (hAdd : Added net j.position id mid) (hMoved : Moved mid n id ts moved)
    (hLink : next.unlinked = moved.unlinked) (hj : net.node? n = some j) (hNil : ts ≠ [])
    (hLater : ts.Sublist j.tracks.tail) : Split net n j ts id next where
  node := hj
  moved_ne_nil := hNil
  later := hLater
  sibling_val := Table.id_add? hAdd.add
  nodeSlots := by
    rw [Table.slots_size_of_map_eq (congrArg Network.nodes hLink), hMoved.nodeSlots,
      Table.slots_size_add? hAdd.add]
  node? m := by
    have hNe : n ≠ id := by
      rintro rfl
      simp [hAdd.fresh] at hj
    rw [node?_of_unlinked hLink, hMoved.node?, hAdd.node?, Option.map_map]
    obtain hm | hm := eq_or_ne m id
    · simp [hm, hNe.symm, Junction.foldl_attach, Junction.unlinked, Sides.ofTracks]
    · simp [hm, Function.comp_def]
  loose := by rw [connections_of_unlinked hLink, hMoved.loose, hAdd.connections]
  index := (congrArg Network.index hLink).trans (hMoved.index.trans hAdd.index)

/-- Later tracks of a node moved to a node that was just added at the same place. -/
theorem Added.moved {n id : NodeId} {mid : Network} {ts : List Attachment} (hAdd : Added net j.position id mid)
    (hNet : net.WellFormed) (hj : net.node? n = some j) (hLater : ts.Sublist j.tracks.tail) :
    Moved mid n id ts ((ts.map (·.connection)).foldl (moveTrack n id j.point) mid) ∧
      ((ts.map (·.connection)).foldl (moveTrack n id j.point) mid).WellFormed := by
  have hNe : n ≠ id := by
    rintro rfl
    simp [hAdd.fresh] at hj
  have hSource : mid.node? n = some j := by rw [hAdd.node?, if_neg hNe, hj]
  have hPoint : (mid.node? id).map Junction.point = some j.point := by
    rw [hAdd.node?, if_pos rfl]
    rfl
  have hAll := hLater.trans (List.tail_sublist j.tracks)
  have hNodup : (ts.map (·.connection)).Nodup := (hAll.map _).nodup (hNet.connections_nodup hj)
  have hAway : ∀ t ∈ ts, (mid.connection? t.connection).any (·.touches id) = false := fun t _ => by
    rw [hAdd.connection?, hNet.touches_absent hAdd.fresh]
  exact foldl_moveTrack (hAdd.wellFormed hNet) hNe hSource (fun t ht => hAll.subset ht) hNodup hPoint hAway

/-- A split adds a node, moves what does not fit to it, and links the two. -/
theorem extract_eq_some_iff {n sibling : NodeId} (hj : net.node? n = some j) :
    net.extract n = .ok (some (sibling, next)) ↔ net.misfits j ≠ [] ∧
      ∃ mid, net.addNode j.position = .ok (sibling, mid) ∧
        next = ((net.misfits j).foldl (moveTrack n sibling j.point) mid).link n sibling := by
  obtain hFits | hMisfits := eq_or_ne (net.misfits j) []
  · simp [extract_of_fitting hj hFits, hFits]
  · rw [extract_of_misfits hj hMisfits]
    cases hAdd : net.addNode j.position with
    | error e => simp [Except.map]
    | ok added =>
      obtain ⟨id, mid⟩ := added
      simp only [Except.map, Except.ok.injEq, Option.some.injEq, Prod.mk.injEq]
      constructor
      · rintro ⟨rfl, rfl⟩
        exact ⟨hMisfits, mid, ⟨rfl, rfl⟩, rfl⟩
      · rintro ⟨-, _, ⟨rfl, rfl⟩, rfl⟩
        exact ⟨rfl, rfl⟩

/-- A split moves the misfits, which are later tracks of the node. -/
theorem extract_eq_split {n sibling : NodeId} (hNet : net.WellFormed)
    (h : net.extract n = .ok (some (sibling, next))) : next.WellFormed ∧
      ∃ j ts, Split net n j ts sibling next ∧ net.misfits j = ts.map (·.connection) := by
  cases hj : net.node? n with
  | none => simp [extract_of_absent hj] at h
  | some j =>
    obtain ⟨hMisfitsNe, mid, hAddNode, rfl⟩ := (extract_eq_some_iff hj).mp h
    have hAdd := addNode_eq_ok hAddNode
    obtain ⟨ts, hLater, hMisfits⟩ := hNet.misfits_eq hj
    obtain ⟨hMoved, hWellFormed⟩ := hAdd.moved hNet hj hLater
    rw [← hMisfits] at hMoved hWellFormed
    have hLink := unlinked_link ((net.misfits j).foldl (moveTrack n sibling j.point) mid) n sibling
    have hNil : ts ≠ [] := by
      rintro rfl
      exact hMisfitsNe hMisfits
    exact ⟨hWellFormed.of_bare (bare_of_unlinked hLink).symm, j, ts,
      hAdd.split hMoved hLink hj hNil hLater, hMisfits⟩

theorem extract_eq_some {n sibling : NodeId} (hNet : net.WellFormed)
    (h : net.extract n = .ok (some (sibling, next))) :
    next.WellFormed ∧ ∃ j ts, Split net n j ts sibling next := by
  obtain ⟨hNext, j, ts, hSplit, -⟩ := extract_eq_split hNet h
  exact ⟨hNext, j, ts, hSplit⟩

end Network

end TrackLayout
