import TrackLayout.Proofs.BoxTree.Insertion
import TrackLayout.Proofs.Network.View

/-!
# Well-formed networks

The two tables of a network say the same thing twice: connections know their
ends and where those are, junctions know the connections attached to them and
in what direction they leave, and the index holds every connection under its
box. Rules, elevations and what a connection is made of have no part in this:
networks that are equal when bare are well-formed together.
-/
set_option autoImplicit false

namespace TrackLayout

namespace Network

/-- Every connection with its box, in the order of their ids. -/
def boxes (net : Network) : List (Rect × ConnectionId) :=
  net.connections.toList.map fun e => (e.2.bounds, e.1)

structure WellFormed (net : Network) : Prop where
  node_id : ∀ {n j}, net.node? n = some j → j.id = n
  connection_id : ∀ {id c}, net.connection? id = some c → c.id = id
  ends_ne : ∀ {id c}, net.connection? id = some c → c.start ≠ c.stop
  start : ∀ {id c}, net.connection? id = some c → (net.node? c.start).map Junction.point = some c.startPoint
  stop : ∀ {id c}, net.connection? id = some c → (net.node? c.stop).map Junction.point = some c.stopPoint
  bounds : ∀ {id c}, net.connection? id = some c → c.bounds = .spanning c.startPoint c.stopPoint
  /-- A connection is attached once to either end and nowhere else. -/
  attached : ∀ {n j}, net.node? n = some j → ∀ id,
    j.connections.count id = if (net.connection? id).any (·.touches n) then 1 else 0
  direction : ∀ {n j}, net.node? n = some j → ∀ t ∈ j.tracks,
    ((net.connection? t.connection).bind (·.farPoint? n)).map (Angle.toPoint j.point) = some t.direction
  sides : ∀ {n j}, net.node? n = some j → j.sides = .ofTracks j.tracks
  index : net.index = .ofEntries net.boxes

/-- The connections are listed in the order of their ids. -/
theorem WellFormed.values_pairwise {net : Network} (hNet : net.WellFormed) :
    net.connections.values.Pairwise (·.id.val < ·.id.val) := by
  have hIds : net.connections.values.map Connection.id = net.connections.ids := by
    rw [← Table.map_snd_toList, Table.ids, List.map_map]
    refine List.map_congr_left fun entry hEntry => hNet.connection_id (Table.mem_toList.mp hEntry)
  have hPairwise := net.connections.ids_pairwise
  rwa [← hIds, List.pairwise_map] at hPairwise

/-! ## Networks that are equal when bare -/

section Bare

variable {net other : Network}

theorem boxes_of_bare (h : net.bare = other.bare) : net.boxes = other.boxes := by
  have hBoxes : ∀ net : Network, net.bare.boxes = net.boxes := fun net => by
    simp only [boxes, bare, Table.toList_map, List.map_map]
    rfl
  rw [← hBoxes, h, hBoxes]

theorem any_touches_of_bare (h : net.bare = other.bare) (id : ConnectionId) (n : NodeId) :
    (net.connection? id).any (·.touches n) = (other.connection? id).any (·.touches n) := by
  have hTouches := connection?_congr_of_bare h (·.touches n) (fun _ => rfl) id
  simpa [Option.any_map] using congrArg (Option.any fun touches => touches) hTouches

theorem farPoint?_of_bare (h : net.bare = other.bare) (id : ConnectionId) (n : NodeId) :
    (net.connection? id).bind (·.farPoint? n) = (other.connection? id).bind (·.farPoint? n) := by
  have hFar := connection?_congr_of_bare h (·.farPoint? n) (fun _ => rfl) id
  simpa [Option.bind_map, Function.comp_def] using congrArg (Option.bind · fun point => point) hFar

theorem exists_node_of_bare (h : net.bare = other.bare) {n : NodeId} {j : Junction}
    (hj : other.node? n = some j) : ∃ i, net.node? n = some i ∧
      i.id = j.id ∧ i.point = j.point ∧ i.tracks = j.tracks ∧ i.sides = j.sides := by
  have hNode := node?_of_bare h n
  rw [hj] at hNode
  obtain ⟨i, hi, hBare⟩ := Option.map_eq_some_iff.mp hNode
  exact ⟨i, hi, Junction.bare_eq_iff.mp hBare⟩

theorem exists_connection_of_bare (h : net.bare = other.bare) {id : ConnectionId} {c : Connection}
    (hc : other.connection? id = some c) : ∃ d, net.connection? id = some d ∧
      d.id = c.id ∧ d.start = c.start ∧ d.stop = c.stop ∧ d.startPoint = c.startPoint ∧
        d.stopPoint = c.stopPoint ∧ d.bounds = c.bounds := by
  have hConnection := connection?_of_bare h id
  rw [hc] at hConnection
  obtain ⟨d, hd, hBare⟩ := Option.map_eq_some_iff.mp hConnection
  exact ⟨d, hd, Connection.bare_eq_iff.mp hBare⟩

theorem WellFormed.of_bare (hNet : net.WellFormed) (h : net.bare = other.bare) : other.WellFormed where
  node_id {n j} hj := by
    obtain ⟨i, hi, hId, -⟩ := exists_node_of_bare h hj
    exact hId.symm.trans (hNet.node_id hi)
  connection_id {id c} hc := by
    obtain ⟨d, hd, hId, -⟩ := exists_connection_of_bare h hc
    exact hId.symm.trans (hNet.connection_id hd)
  ends_ne {id c} hc := by
    obtain ⟨d, hd, -, hStart, hStop, -⟩ := exists_connection_of_bare h hc
    rw [← hStart, ← hStop]
    exact hNet.ends_ne hd
  start {id c} hc := by
    obtain ⟨d, hd, -, hStart, -, hPoint, -⟩ := exists_connection_of_bare h hc
    rw [← hStart, ← hPoint, ← node?_congr_of_bare h Junction.point (fun _ => rfl)]
    exact hNet.start hd
  stop {id c} hc := by
    obtain ⟨d, hd, -, -, hStop, -, hPoint, -⟩ := exists_connection_of_bare h hc
    rw [← hStop, ← hPoint, ← node?_congr_of_bare h Junction.point (fun _ => rfl)]
    exact hNet.stop hd
  bounds {id c} hc := by
    obtain ⟨d, hd, -, -, -, hStart, hStop, hBounds⟩ := exists_connection_of_bare h hc
    rw [← hBounds, ← hStart, ← hStop]
    exact hNet.bounds hd
  attached {n j} hj id := by
    obtain ⟨i, hi, -, -, hTracks, -⟩ := exists_node_of_bare h hj
    rw [Junction.connections, ← hTracks, ← any_touches_of_bare h]
    exact hNet.attached hi id
  direction {n j} hj t ht := by
    obtain ⟨i, hi, -, hPoint, hTracks, -⟩ := exists_node_of_bare h hj
    rw [← hPoint, ← farPoint?_of_bare h]
    exact hNet.direction hi t (hTracks ▸ ht)
  sides {n j} hj := by
    obtain ⟨i, hi, -, -, hTracks, hSides⟩ := exists_node_of_bare h hj
    rw [← hSides, ← hTracks]
    exact hNet.sides hi
  index := by
    rw [← boxes_of_bare h, show other.index = net.index from (congrArg Network.index h).symm]
    exact hNet.index

end Bare

end Network

end TrackLayout
