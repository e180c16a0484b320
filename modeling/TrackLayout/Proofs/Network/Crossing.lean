import TrackLayout.Proofs.Geometry.Crossing
import TrackLayout.Proofs.Network.Proximity

/-!
# Connections that cross

The search for the connections that cross one asks the index for its box only.
Boxes meet in either order or in none, and so do segments, so the search is
symmetric. Segments between whole points do not meet unless their boxes do, so
there the search loses nothing against a scan of all connections.
-/
set_option autoImplicit false

namespace TrackLayout.Network

variable {net : Network} {id other : ConnectionId} {c d : Connection}

/-! ## Connections without a common node -/

/-- No end of one connection is an end of the other one. -/
def apart (c d : Connection) : Bool :=
  c.start != d.start && c.start != d.stop && c.stop != d.start && c.stop != d.stop

theorem apart_comm (c d : Connection) : apart c d = apart d c := by
  simp only [apart, bne_comm (a := c.start), bne_comm (a := c.stop)]
  ac_rfl

theorem crosses_eq (c d : Connection) :
    crosses c d = (d.id != c.id && apart c d && c.segment.meets d.segment) := by
  rw [Bool.eq_iff_iff]
  simp only [crosses, apart, Connection.touches, Bool.and_eq_true, Bool.not_eq_true', Bool.or_eq_false_iff,
    beq_eq_false_iff_ne, bne_iff_ne]
  constructor
  · rintro ⟨⟨⟨hId, hStart⟩, hStop⟩, hMeets⟩
    exact ⟨⟨hId, ⟨⟨hStart.1.symm, hStart.2.symm⟩, hStop.1.symm⟩, hStop.2.symm⟩, hMeets⟩
  · rintro ⟨⟨hId, ⟨⟨hStart, hStartStop⟩, hStopStart⟩, hStop⟩, hMeets⟩
    exact ⟨⟨⟨hId, hStart.symm, hStartStop.symm⟩, hStopStart.symm, hStop.symm⟩, hMeets⟩

theorem crosses_comm (c d : Connection) : crosses c d = crosses d c := by
  rw [crosses_eq, crosses_eq, apart_comm, Segment.meets_comm, bne_comm]

/-! ## The search -/

theorem WellFormed.connectionsCrossing_eq (hNet : net.WellFormed) (hPlaced : net.Placed)
    (hc : net.connection? id = some c) :
    net.connectionsCrossing id =
      (net.connections.toList.filter fun e => e.2.bounds.intersects c.bounds && crosses c e.2).map (·.1) := by
  rw [connectionsCrossing, hc]
  dsimp only
  rw [hNet.connectionsMeeting_eq hPlaced, List.filter_map, List.filter_filter]
  refine congrArg _ (List.filter_congr fun e he => ?_)
  have hGet : net.connection? e.1 = some e.2 := Table.mem_toList.mp he
  simp [hGet, Bool.and_comm]

theorem WellFormed.mem_connectionsCrossing (hNet : net.WellFormed) (hPlaced : net.Placed) :
    other ∈ net.connectionsCrossing id ↔ ∃ c d, net.connection? id = some c ∧ net.connection? other = some d ∧
      d.bounds.intersects c.bounds = true ∧ crosses c d = true := by
  cases hc : net.connection? id with
  | none => simp [connectionsCrossing, hc]
  | some c =>
    rw [hNet.connectionsCrossing_eq hPlaced hc]
    constructor
    · intro hOther
      obtain ⟨⟨_, d⟩, hd, rfl⟩ := List.mem_map.mp hOther
      obtain ⟨hPresent, hFound⟩ := List.mem_filter.mp hd
      obtain ⟨hMeets, hCrosses⟩ := Bool.and_eq_true_iff.mp hFound
      exact ⟨c, d, rfl, Table.mem_toList.mp hPresent, hMeets, hCrosses⟩
    · rintro ⟨_, d, hSame, hd, hMeets, hCrosses⟩
      cases hSame
      exact List.mem_map.mpr ⟨(other, d), List.mem_filter.mpr ⟨Table.mem_toList.mpr hd,
        Bool.and_eq_true_iff.mpr ⟨hMeets, hCrosses⟩⟩, rfl⟩

theorem WellFormed.mem_connectionsCrossing_comm (hNet : net.WellFormed) (hPlaced : net.Placed) :
    other ∈ net.connectionsCrossing id ↔ id ∈ net.connectionsCrossing other := by
  have hHalf {id other : ConnectionId} (hOther : other ∈ net.connectionsCrossing id) :
      id ∈ net.connectionsCrossing other := by
    obtain ⟨c, d, hc, hd, hMeets, hCrosses⟩ := (hNet.mem_connectionsCrossing hPlaced).mp hOther
    rw [Rect.intersects_comm] at hMeets
    rw [crosses_comm] at hCrosses
    exact (hNet.mem_connectionsCrossing hPlaced).mpr ⟨d, c, hd, hc, hMeets, hCrosses⟩
  exact ⟨hHalf, hHalf⟩

/-! ## Whole places -/

/-- Every node is at whole coordinates. -/
def Whole (net : Network) : Prop :=
  ∀ j ∈ net.nodes.values, Binary64.IsWhole j.point.x ∧ Binary64.IsWhole j.point.y

instance (net : Network) : Decidable net.Whole :=
  inferInstanceAs (Decidable (∀ j ∈ net.nodes.values, Binary64.IsWhole j.point.x ∧ Binary64.IsWhole j.point.y))

theorem Whole.exists_at (hWhole : net.Whole) {n : NodeId} {p : Point}
    (hn : (net.node? n).map Junction.point = some p) : ∃ a, p.At a := by
  obtain ⟨j, hj, rfl⟩ := Option.map_eq_some_iff.mp hn
  obtain ⟨hx, hy⟩ := hWhole j (Table.mem_values.mpr ⟨n, hj⟩)
  exact PlanarPoint.exists_at hx hy

theorem Whole.placed (hWhole : net.Whole) : net.Placed := by
  intro j hj
  obtain ⟨hx, hy⟩ := hWhole j hj
  obtain ⟨a, ha⟩ := PlanarPoint.exists_at hx hy
  exact ha.defined

/-- Where all places are whole, connections do not cross unless their boxes meet. -/
theorem WellFormed.intersects_of_crosses (hNet : net.WellFormed) (hWhole : net.Whole)
    (hc : net.connection? id = some c) (hd : net.connection? other = some d) (hCrosses : crosses c d = true) :
    d.bounds.intersects c.bounds = true := by
  have hMeets : c.segment.meets d.segment = true := (Bool.and_eq_true_iff.mp hCrosses).2
  calc d.bounds.intersects c.bounds = d.segment.bounds.intersects c.segment.bounds :=
        congrArg₂ Rect.intersects (hNet.bounds hd) (hNet.bounds hc)
    _ = c.segment.bounds.intersects d.segment.bounds := Rect.intersects_comm _ _
    _ = true := Segment.intersects_of_meets
      ⟨hWhole.exists_at (hNet.start hc), hWhole.exists_at (hNet.stop hc)⟩
      ⟨hWhole.exists_at (hNet.start hd), hWhole.exists_at (hNet.stop hd)⟩ hMeets

/-- What a scan of all connections finds to cross a connection. -/
def scanCrossing (net : Network) (id : ConnectionId) : List ConnectionId :=
  match net.connection? id with
  | none => []
  | some c => (net.connections.toList.filter fun e =>
      e.1 != id && apart c e.2 && c.segment.meets e.2.segment).map (·.1)

theorem WellFormed.connectionsCrossing_eq_scan (hNet : net.WellFormed) (hWhole : net.Whole)
    (id : ConnectionId) : net.connectionsCrossing id = net.scanCrossing id := by
  cases hc : net.connection? id with
  | none => rw [connectionsCrossing, scanCrossing, hc]
  | some c =>
    rw [hNet.connectionsCrossing_eq hWhole.placed hc, scanCrossing, hc]
    refine congrArg _ (List.filter_congr fun e he => ?_)
    have hd : net.connection? e.1 = some e.2 := Table.mem_toList.mp he
    calc (e.2.bounds.intersects c.bounds && crosses c e.2)
        = crosses c e.2 := Bool.and_eq_right_iff_imp.mpr (hNet.intersects_of_crosses hWhole hc hd)
      _ = (e.1 != id && apart c e.2 && c.segment.meets e.2.segment) := by
        rw [crosses_eq, hNet.connection_id hc, hNet.connection_id hd]

theorem scanCrossing_pairwise (net : Network) (id : ConnectionId) :
    (net.scanCrossing id).Pairwise (·.val < ·.val) := by
  rw [scanCrossing]
  split
  · exact .nil
  · exact net.connections.ids_pairwise.sublist (List.filter_sublist.map _)

/-- Whatever run of operations made the network, splits among them: if no place is undefined, connections
cross in either order or in none; if all places are whole, the search finds what a scan of all
connections finds, in increasing order. -/
theorem connectionsCrossing_run (ops : List Operation) :
    ((run ops).Placed → ∀ id other,
        other ∈ (run ops).connectionsCrossing id ↔ id ∈ (run ops).connectionsCrossing other) ∧
      ((run ops).Whole → ∀ id,
        (run ops).connectionsCrossing id = (run ops).scanCrossing id ∧
          ((run ops).connectionsCrossing id).Pairwise (·.val < ·.val)) := by
  have hNet := wellFormed_run ops
  constructor
  · intro hPlaced id other
    exact hNet.mem_connectionsCrossing_comm hPlaced
  · intro hWhole id
    rw [hNet.connectionsCrossing_eq_scan hWhole id]
    exact ⟨rfl, scanCrossing_pairwise _ id⟩

/-- Two tracks at right angles that cross, and a third one that ends on the second. -/
def trestle : List Operation :=
  [.addNode { point := ⟨0.0, 0.0⟩ }, .addNode { point := ⟨10.0, 0.0⟩ }, .addNode { point := ⟨5.0, -5.0⟩ },
    .addNode { point := ⟨5.0, 5.0⟩ }, .addNode { point := ⟨5.0, 2.0⟩ }, .addNode { point := ⟨9.0, 2.0⟩ },
    .connect ⟨0⟩ ⟨1⟩ {}, .connect ⟨2⟩ ⟨3⟩ {}, .connect ⟨4⟩ ⟨5⟩ {}, .cleanup]

theorem connectionsCrossing_trestle :
    (run trestle).Placed ∧ (run trestle).Whole ∧
      (run trestle).connectionsCrossing ⟨1⟩ = [⟨0⟩, ⟨2⟩] ∧
      (⟨1⟩ : ConnectionId) ∈ (run trestle).connectionsCrossing ⟨2⟩ := by
  have hPlaced : (run trestle).Placed := by decide +kernel
  have hWhole : (run trestle).Whole := by decide +kernel
  have hScan : (run trestle).scanCrossing ⟨1⟩ = [⟨0⟩, ⟨2⟩] := by decide +kernel
  obtain ⟨hSymmetric, hFound⟩ := connectionsCrossing_run trestle
  have hCrossing : (run trestle).connectionsCrossing ⟨1⟩ = [⟨0⟩, ⟨2⟩] := (hFound hWhole ⟨1⟩).1.trans hScan
  refine ⟨hPlaced, hWhole, hCrossing, (hSymmetric hPlaced ⟨1⟩ ⟨2⟩).mp ?_⟩
  rw [hCrossing]
  decide

end TrackLayout.Network
