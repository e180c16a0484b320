import TrackLayout.Network.Proximity
import TrackLayout.Proofs.Network.Reachable

/-!
# Searches by the index

The index of a well-formed network finds the connections whose boxes meet a
rectangle, neither more nor fewer, in the order of their ids. A search beside a
point asks it for a square along the axes, while what lies beside a connection
is measured along and across that connection. So a search finds what a scan of
all connections finds, except for connections whose boxes miss the square.
-/
set_option autoImplicit false

namespace TrackLayout.Network

variable {net : Network}

/-- No node is at an undefined place. -/
def Placed (net : Network) : Prop :=
  ∀ j ∈ net.nodes.values, j.point.x.isNaN = false ∧ j.point.y.isNaN = false

instance (net : Network) : Decidable net.Placed :=
  inferInstanceAs (Decidable (∀ j ∈ net.nodes.values, j.point.x.isNaN = false ∧ j.point.y.isNaN = false))

theorem Placed.defined (hPlaced : net.Placed) {n : NodeId} {p : Point}
    (hn : (net.node? n).map Junction.point = some p) : p.x.isNaN = false ∧ p.y.isNaN = false := by
  obtain ⟨j, hj, rfl⟩ := Option.map_eq_some_iff.mp hn
  exact hPlaced j (Table.mem_values.mpr ⟨n, hj⟩)

theorem WellFormed.boxes_defined (hNet : net.WellFormed) (hPlaced : net.Placed) :
    ∀ e ∈ net.boxes, e.1.Defined := by
  intro e he
  obtain ⟨⟨id, c⟩, hc, rfl⟩ := List.mem_map.mp he
  rw [Table.mem_toList] at hc
  rw [hNet.bounds hc]
  exact .spanning (hPlaced.defined (hNet.start hc)) (hPlaced.defined (hNet.stop hc))

/-- The index finds exactly the connections whose boxes meet a rectangle, in order. -/
theorem WellFormed.connectionsMeeting_eq (hNet : net.WellFormed) (hPlaced : net.Placed) (r : Rect) :
    net.connectionsMeeting r =
      (net.connections.toList.filter fun e => e.2.bounds.intersects r).map (·.1) := by
  have hFound : (net.index.query r).Perm
      ((net.connections.toList.filter fun e => e.2.bounds.intersects r).map (·.1)) := by
    have hQuery := BoxTree.query_ofEntries_perm (hNet.boxes_defined hPlaced) r
    rw [← hNet.index, BoxNode.meeting, boxes, List.filter_map, List.map_map] at hQuery
    exact hQuery
  have hOrder : ((net.connections.toList.filter fun e => e.2.bounds.intersects r).map (·.1)).Pairwise
      fun a b => decide (a.val ≤ b.val) = true := by
    refine (net.connections.ids_pairwise.sublist (List.filter_sublist.map _)).imp fun {a b} hlt => ?_
    simpa using UInt32.le_of_lt hlt
  refine List.Perm.eq_of_pairwise ?_ (List.pairwise_mergeSort ?_ ?_ _) hOrder
    ((List.mergeSort_perm _ _).trans hFound)
  · intro a b _ _ hab hba
    have hVal : a.val = b.val := UInt32.le_antisymm (by simpa using hab) (by simpa using hba)
    cases a
    cases b
    exact congrArg Id.mk hVal
  · intro a b c hab hbc
    simp only [decide_eq_true_eq] at hab hbc ⊢
    exact UInt32.le_trans hab hbc
  · intro a b
    simpa using UInt32.le_total a.val b.val

/-- The index is never behind: whatever run of operations made the network, splits among them, it finds
the connections whose boxes meet a rectangle now, each once and in increasing order. -/
theorem connectionsMeeting_run (ops : List Operation) (hPlaced : (run ops).Placed) (r : Rect) :
    ((run ops).connectionsMeeting r).Pairwise (·.val < ·.val) ∧
      ∀ id, id ∈ (run ops).connectionsMeeting r ↔
        ∃ c, (run ops).connection? id = some c ∧ c.bounds.intersects r = true := by
  rw [(wellFormed_run ops).connectionsMeeting_eq hPlaced r]
  constructor
  · exact (run ops).connections.ids_pairwise.sublist (List.filter_sublist.map _)
  · intro id
    constructor
    · intro hId
      obtain ⟨⟨_, c⟩, hc, rfl⟩ := List.mem_map.mp hId
      obtain ⟨hPresent, hMeets⟩ := List.mem_filter.mp hc
      exact ⟨c, Table.mem_toList.mp hPresent, hMeets⟩
    · rintro ⟨c, hc, hMeets⟩
      exact List.mem_map.mpr ⟨(id, c), List.mem_filter.mpr ⟨Table.mem_toList.mpr hc, hMeets⟩, rfl⟩

/-- A corner of two tracks that a cleanup splits: the second track is rebound to a new node. -/
def corner : List Operation :=
  [.addNode { point := ⟨0.0, 0.0⟩ }, .addNode { point := ⟨10.0, 0.0⟩ }, .addNode { point := ⟨0.0, 10.0⟩ },
    .connect ⟨0⟩ ⟨1⟩ {}, .connect ⟨0⟩ ⟨2⟩ {}, .cleanup]

theorem connectionsMeeting_corner :
    (run corner).Placed ∧ (run corner).nodes.size = 4 ∧
      (⟨1⟩ : ConnectionId) ∈ (run corner).connectionsMeeting ⟨-1.0, 5.0, 1.0, 6.0⟩ ∧
      (⟨0⟩ : ConnectionId) ∉ (run corner).connectionsMeeting ⟨-1.0, 5.0, 1.0, 6.0⟩ := by
  have hPlaced : (run corner).Placed := by decide +kernel
  have hSize : (run corner).nodes.size = 4 := by decide +kernel
  have hFound := (connectionsMeeting_run corner hPlaced ⟨-1.0, 5.0, 1.0, 6.0⟩).2
  refine ⟨hPlaced, hSize, ?_, ?_⟩
  · have hMeets : ((run corner).connection? ⟨1⟩).any (·.bounds.intersects ⟨-1.0, 5.0, 1.0, 6.0⟩) = true := by
      decide +kernel
    exact (hFound ⟨1⟩).mpr ((Option.any_eq_true _ _).mp hMeets)
  · have hMisses : ((run corner).connection? ⟨0⟩).any (·.bounds.intersects ⟨-1.0, 5.0, 1.0, 6.0⟩) = false := by
      decide +kernel
    intro hId
    rw [(Option.any_eq_true _ _).mpr ((hFound ⟨0⟩).mp hId)] at hMisses
    cases hMisses

/-! ## Beside a point -/

/-- The connection is of the subnetwork that is asked for, if one is. -/
def Belongs (subnetwork : Option Subnetwork) (c : Connection) : Prop :=
  ∀ s ∈ subnetwork, c.trackType.subnetwork = s

instance (subnetwork : Option Subnetwork) (c : Connection) : Decidable (Belongs subnetwork c) :=
  inferInstanceAs (Decidable (∀ s ∈ subnetwork, c.trackType.subnetwork = s))

theorem isOf_iff {subnetwork : Option Subnetwork} {c : Connection} :
    isOf subnetwork c = true ↔ Belongs subnetwork c := by
  cases subnetwork with
  | none => simp [isOf, Belongs]
  | some s =>
    rw [isOf, Option.all_some, beq_iff_eq, Belongs]
    simp only [Option.mem_def, Option.some.injEq, forall_eq']
    exact eq_comm

theorem isBeside_iff {p : Point} {sideward forward : Float} {c : Connection} :
    isBeside p sideward forward c = true ↔ (PlanarSegment.offset c.segment p).sideward.abs ≤ sideward ∧
      (PlanarSegment.offset c.segment p).overhead ≤ forward := by
  rw [isBeside, Bool.and_eq_true, decide_eq_true_eq, decide_eq_true_eq]

/-- What a scan of all connections finds beside a point: those of the subnetwork in whose frame the point is
within both limits. -/
def scanBeside (net : Network) (p : Point) (subnetwork : Option Subnetwork) (sideward forward : Float) :
    List ConnectionId :=
  (net.connections.toList.filter fun e => Belongs subnetwork e.2 ∧
    (PlanarSegment.offset e.2.segment p).sideward.abs ≤ sideward ∧
      (PlanarSegment.offset e.2.segment p).overhead ≤ forward).map (·.1)

/-- Whether the box of a connection meets the square that the index is asked for. -/
def isNarrowed (net : Network) (p : Point) (sideward forward : Float) (id : ConnectionId) : Bool :=
  (net.connection? id).any fun c => c.bounds.intersects (.around p (Binary64.maximum sideward forward))

section Beside

variable (p : Point) (subnetwork : Option Subnetwork) (sideward forward : Float)

theorem WellFormed.connectionsBeside_eq (hNet : net.WellFormed) (hPlaced : net.Placed) :
    net.connectionsBeside p subnetwork sideward forward =
      (net.scanBeside p subnetwork sideward forward).filter (net.isNarrowed p sideward forward) := by
  rw [connectionsBeside, hNet.connectionsMeeting_eq hPlaced, scanBeside, List.filter_map, List.filter_map,
    List.filter_filter, List.filter_filter]
  refine congrArg _ (List.filter_congr fun e he => ?_)
  have hGet : net.connection? e.1 = some e.2 := Table.mem_toList.mp he
  rw [Bool.eq_iff_iff]
  simp [isNarrowed, hGet, isOf_iff, isBeside_iff, and_comm]

/-- A search finds those connections of the scan whose boxes meet the square, in the order of their
ids. It agrees with the scan exactly if no box of a connection beside the point misses the square. -/
theorem connectionsBeside_eq_scan_iff (ops : List Operation) (hPlaced : (run ops).Placed) :
    (run ops).connectionsBeside p subnetwork sideward forward =
        ((run ops).scanBeside p subnetwork sideward forward).filter
          ((run ops).isNarrowed p sideward forward) ∧
      ((run ops).connectionsBeside p subnetwork sideward forward).Pairwise (·.val < ·.val) ∧
      ((run ops).connectionsBeside p subnetwork sideward forward =
          (run ops).scanBeside p subnetwork sideward forward ↔
        ∀ id ∈ (run ops).scanBeside p subnetwork sideward forward,
          (run ops).isNarrowed p sideward forward id = true) := by
  have hSearch := (wellFormed_run ops).connectionsBeside_eq p subnetwork sideward forward hPlaced
  have hOrder : ((run ops).scanBeside p subnetwork sideward forward).Pairwise (·.val < ·.val) :=
    (run ops).connections.ids_pairwise.sublist (List.filter_sublist.map _)
  rw [hSearch]
  exact ⟨rfl, hOrder.sublist List.filter_sublist, List.filter_eq_self⟩

end Beside

/-- One connection that runs at a slant and ends at the origin. -/
def slant : List Operation :=
  [.addNode { point := ⟨-100.0, -10.0⟩ }, .addNode { point := ⟨0.0, 0.0⟩ }, .connect ⟨0⟩ ⟨1⟩ {}]

theorem connectionsBeside_slant :
    (run slant).Placed ∧ (run slant).connectionsBeside ⟨-50.0, 0.0⟩ none 10.0 1.0 = [⟨0⟩] ∧
      (run slant).connectionsBeside ⟨-50.0, 0.0⟩ (some .street) 10.0 1.0 = [] := by
  obtain ⟨hPlaced, hScan, hNarrowed, hStreets⟩ : (run slant).Placed ∧
      (run slant).scanBeside ⟨-50.0, 0.0⟩ none 10.0 1.0 = [⟨0⟩] ∧
      (∀ id ∈ (run slant).scanBeside ⟨-50.0, 0.0⟩ none 10.0 1.0,
        (run slant).isNarrowed ⟨-50.0, 0.0⟩ 10.0 1.0 id = true) ∧
      (run slant).scanBeside ⟨-50.0, 0.0⟩ (some .street) 10.0 1.0 = [] := by decide +kernel
  have hStreet := (connectionsBeside_eq_scan_iff ⟨-50.0, 0.0⟩ (some .street) 10.0 1.0 slant hPlaced).1
  rw [hStreets, List.filter_nil] at hStreet
  exact ⟨hPlaced, ((connectionsBeside_eq_scan_iff _ _ _ _ slant hPlaced).2.2.mpr hNarrowed).trans hScan, hStreet⟩

/-- A point beyond the end of a slanting connection and to its left is within both limits, yet the
square of the larger limit around it is clear of the box of the connection. -/
theorem connectionsBeside_ne_scan :
    (run slant).Placed ∧ (run slant).connectionsBeside ⟨0.0, 10.02⟩ none 10.0 1.0 = [] ∧
      (run slant).scanBeside ⟨0.0, 10.02⟩ none 10.0 1.0 = [⟨0⟩] := by
  have hPlaced : (run slant).Placed := by decide +kernel
  have hScan : (run slant).scanBeside ⟨0.0, 10.02⟩ none 10.0 1.0 = [⟨0⟩] := by decide +kernel
  refine ⟨hPlaced, ?_, hScan⟩
  rw [(wellFormed_run slant).connectionsBeside_eq _ _ _ _ hPlaced, hScan]
  decide +kernel

end TrackLayout.Network
