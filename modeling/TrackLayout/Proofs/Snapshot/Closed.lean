import TrackLayout.Proofs.Heights.Totals
import TrackLayout.Snapshot

/-!
# Closed snapshots

A snapshot of a well-formed network names only what it contains: the nodes
that list a connection are the two nodes that the connection names as its ends.
-/
set_option autoImplicit false

namespace TrackLayout

/-- The connections of a node, forward ones first. -/
def NodeEntry.listed (n : NodeEntry) : List ConnectionId := n.forward ++ n.backward

structure Snapshot.Closed (s : Snapshot) : Prop where
  nodeIds : (s.nodes.map (·.id)).Pairwise (·.val < ·.val)
  connectionIds : (s.connections.map (·.id)).Pairwise (·.val < ·.val)
  /-- No node lists a connection twice, whether on one side or on both. -/
  once : ∀ n ∈ s.nodes, n.listed.Nodup
  known : ∀ n ∈ s.nodes, ∀ id ∈ n.listed, id ∈ s.connections.map (·.id)
  /-- Two nodes list a connection: its start and its end. -/
  ends : ∀ c ∈ s.connections,
    ((s.nodes.filter (c.id ∈ ·.listed)).map (·.id)).Perm [c.start, c.stop]
  heightFixed : ∀ c ∈ s.connections, c.heightFixed = true

namespace Network

variable {net : Network} {n : NodeId} {j : Junction} {id : ConnectionId} {c : Connection}

theorem WellFormed.listed_perm (hNet : net.WellFormed) (hj : net.node? n = some j) :
    (NodeEntry.ofJunction j).listed.Perm j.connections := by
  rw [NodeEntry.listed, NodeEntry.ofJunction, hNet.sides hj]
  exact Sides.ofTracks_perm j.tracks

theorem WellFormed.mem_listed (hNet : net.WellFormed) (hj : net.node? n = some j) :
    id ∈ (NodeEntry.ofJunction j).listed ↔ (net.connection? id).any (·.touches n) = true := by
  rw [(hNet.listed_perm hj).mem_iff, hNet.mem_connections hj]

theorem WellFormed.map_id_nodes (hNet : net.WellFormed) : net.snapshot.nodes.map (·.id) = net.nodes.ids := by
  rw [snapshot, List.map_map, ← Table.map_snd_toList, List.map_map]
  apply List.map_congr_left
  rintro ⟨n, j⟩ hj
  exact hNet.node_id (Table.mem_toList.mp hj)

theorem WellFormed.map_id_connections (hNet : net.WellFormed) :
    net.snapshot.connections.map (·.id) = net.connections.ids := by
  rw [snapshot, List.map_map, ← Table.map_snd_toList, List.map_map]
  apply List.map_congr_left
  rintro ⟨id, c⟩ hc
  exact hNet.connection_id (Table.mem_toList.mp hc)

/-- The nodes that list a connection are those that it touches. -/
theorem WellFormed.map_id_filter_listed (hNet : net.WellFormed) (hc : net.connection? id = some c) :
    (net.snapshot.nodes.filter (id ∈ ·.listed)).map (·.id) = net.nodes.ids.filter c.touches := by
  rw [snapshot, ← Table.map_snd_toList, List.map_map, List.filter_map, List.map_map, Table.ids, List.filter_map]
  have hFilter : net.nodes.toList.filter ((fun n : NodeEntry => decide (id ∈ n.listed)) ∘ .ofJunction ∘ (·.2)) =
      net.nodes.toList.filter (c.touches ∘ (·.1)) := by
    apply List.filter_congr
    rintro ⟨n, j⟩ hj
    rw [Bool.eq_iff_iff, Function.comp_apply, Function.comp_apply, decide_eq_true_iff,
      hNet.mem_listed (Table.mem_toList.mp hj), hc]
    rfl
  rw [hFilter]
  apply List.map_congr_left
  rintro ⟨n, j⟩ hj
  exact hNet.node_id (Table.mem_toList.mp (List.mem_of_mem_filter hj))

theorem WellFormed.hasHeight (hNet : net.WellFormed) (hElevated : net.Elevated)
    (hc : net.connection? id = some c) : net.hasHeight id = true := by
  obtain ⟨j, hj, -⟩ := Option.map_eq_some_iff.mp (hNet.start hc)
  rw [Network.hasHeight, hc, Option.any_some, elevation, hj, Option.bind_some, hElevated hj, Bool.true_or]

/-- A snapshot of a well-formed network with heights everywhere is closed. -/
theorem WellFormed.snapshot_closed (hNet : net.WellFormed) (hElevated : net.Elevated) :
    net.snapshot.Closed where
  nodeIds := hNet.map_id_nodes ▸ net.nodes.ids_pairwise
  connectionIds := hNet.map_id_connections ▸ net.connections.ids_pairwise
  once n hn := by
    obtain ⟨j, hj, rfl⟩ := List.mem_map.mp hn
    obtain ⟨m, hm⟩ := Table.mem_values.mp hj
    exact (hNet.listed_perm hm).nodup_iff.mpr (hNet.connections_nodup hm)
  known n hn id hId := by
    obtain ⟨j, hj, rfl⟩ := List.mem_map.mp hn
    obtain ⟨m, hm⟩ := Table.mem_values.mp hj
    obtain ⟨c, hc, -⟩ := (Option.any_eq_true _ _).mp ((hNet.mem_listed hm).mp hId)
    rw [hNet.map_id_connections]
    exact Table.mem_ids.mpr ⟨c, hc⟩
  ends c hc := by
    obtain ⟨d, hd, rfl⟩ := List.mem_map.mp hc
    obtain ⟨id, hId⟩ := Table.mem_values.mp hd
    rw [hNet.map_id_filter_listed (hNet.connection_id hId ▸ hId)]
    exact hNet.filter_touches_perm hId
  heightFixed c hc := by
    obtain ⟨d, hd, rfl⟩ := List.mem_map.mp hc
    obtain ⟨id, hId⟩ := Table.mem_values.mp hd
    exact hNet.hasHeight hElevated (hNet.connection_id hId ▸ hId)

end Network

end TrackLayout
