import Mathlib.Algebra.Order.BigOperators.Group.List
import Mathlib.Algebra.Order.Ring.Nat
import TrackLayout.Proofs.Network.Splitting

/-!
# Counting attachments

In a well-formed network every connection is attached to two nodes, so there
are twice as many attachments as connections, however they are spread over the
nodes. Where every node has a track, there are at most as many nodes.
-/
set_option autoImplicit false

namespace TrackLayout

theorem sum_ite_eq_countP {α : Type} (p : α → Bool) (xs : List α) :
    (xs.map fun x => if p x then 1 else 0).sum = xs.countP p := by
  induction xs with
  | nil => rfl
  | cons x rest ih => rw [List.map_cons, List.sum_cons, ih, List.countP_cons, Nat.add_comm]

/-- Pairs are counted row by row or column by column. -/
theorem sum_countP_comm {α β : Type} (p : α → β → Bool) (xs : List α) (ys : List β) :
    (xs.map fun x => ys.countP (p x)).sum = (ys.map fun y => xs.countP (p · y)).sum := by
  induction xs with
  | nil => simp
  | cons x rest ih =>
    simp only [List.map_cons, List.sum_cons, List.countP_cons, List.sum_map_add, ih, sum_ite_eq_countP]
    exact Nat.add_comm ..

namespace Network

variable {net : Network}

/-- A node has as many tracks as connections touch it. -/
theorem WellFormed.length_tracks (hNet : net.WellFormed) {n : NodeId} {j : Junction}
    (hj : net.node? n = some j) : j.tracks.length = net.connections.toList.countP fun e => e.2.touches n := by
  have hNodup : ((net.connections.toList.filter fun e => e.2.touches n).map (·.1)).Nodup :=
    (List.filter_sublist.map _).nodup net.connections.ids_nodup
  have hPerm : j.connections.Perm ((net.connections.toList.filter fun e => e.2.touches n).map (·.1)) := by
    rw [List.perm_ext_iff_of_nodup (hNet.connections_nodup hj) hNodup]
    intro id
    rw [hNet.mem_connections hj]
    simp [Option.any_eq_true, Table.mem_toList, connection?]
  have hLength := hPerm.length_eq
  rwa [Junction.connections, List.length_map, List.length_map, ← List.countP_eq_length_filter] at hLength

/-- A connection touches two of the nodes that are present. -/
theorem WellFormed.filter_touches_perm (hNet : net.WellFormed) {id : ConnectionId} {c : Connection}
    (hc : net.connection? id = some c) : (net.nodes.ids.filter c.touches).Perm [c.start, c.stop] := by
  have hMem : ∀ n p, (net.node? n).map Junction.point = some p → n ∈ net.nodes.ids := fun n p hn => by
    obtain ⟨j, hj, -⟩ := Option.map_eq_some_iff.mp hn
    exact Table.mem_ids.mpr ⟨j, hj⟩
  rw [List.perm_ext_iff_of_nodup (net.nodes.ids_nodup.filter _) (by simpa using hNet.ends_ne hc)]
  intro n
  rw [List.mem_filter, Connection.touches, Bool.or_eq_true, beq_iff_eq, beq_iff_eq, List.mem_pair,
    eq_comm (a := n), eq_comm (a := n)]
  refine and_iff_right_of_imp ?_
  rintro (rfl | rfl)
  · exact hMem _ _ (hNet.start hc)
  · exact hMem _ _ (hNet.stop hc)

theorem WellFormed.countP_touches (hNet : net.WellFormed) {id : ConnectionId} {c : Connection}
    (hc : net.connection? id = some c) : net.nodes.ids.countP c.touches = 2 := by
  rw [List.countP_eq_length_filter, (hNet.filter_touches_perm hc).length_eq]
  rfl

theorem WellFormed.attachments_eq (hNet : net.WellFormed) :
    net.attachments = 2 * net.connections.size := by
  have hNodes : net.attachments =
      (net.nodes.ids.map fun n => net.connections.toList.countP fun e => e.2.touches n).sum := by
    rw [attachments, List.length_flatMap, ← Table.map_snd_toList, Table.ids, List.map_map, List.map_map]
    refine congrArg List.sum (List.map_congr_left ?_)
    rintro ⟨n, j⟩ hj
    exact hNet.length_tracks (Table.mem_toList.mp hj)
  have hConnections : (net.connections.toList.map fun e => net.nodes.ids.countP e.2.touches) =
      net.connections.toList.map fun _ => 2 := by
    refine List.map_congr_left ?_
    rintro ⟨id, c⟩ hc
    exact hNet.countP_touches (Table.mem_toList.mp hc)
  rw [hNodes, sum_countP_comm (fun (n : NodeId) (e : ConnectionId × Connection) => e.2.touches n),
    hConnections]
  simp [Table.size, ← Table.map_snd_toList, Nat.mul_comm]

/-- Every node has a track. -/
def Tracked (net : Network) : Prop := ∀ ⦃n j⦄, net.node? n = some j → j.tracks ≠ []

theorem Tracked.size_le (hTracked : net.Tracked) : net.nodes.size ≤ net.attachments := by
  have hLe := List.sum_le_sum (l := net.nodes.values) (f := fun _ => 1) (g := (·.tracks.length)) fun j hj => by
    obtain ⟨n, hn⟩ := Table.mem_values.mp hj
    exact List.length_pos_iff.mpr (hTracked hn)
  simpa [attachments, List.length_flatMap, Table.size] using hLe

theorem Tracked.size_lt (hTracked : net.Tracked) {n : NodeId} {j : Junction} (hj : net.node? n = some j)
    (hMany : 1 < j.tracks.length) : net.nodes.size < net.attachments := by
  have hLt := List.sum_lt_sum (l := net.nodes.values) (fun _ => 1) (·.tracks.length)
    (fun i hi => by
      obtain ⟨m, hm⟩ := Table.mem_values.mp hi
      exact List.length_pos_iff.mpr (hTracked hm))
    ⟨j, Table.mem_values.mpr ⟨n, hj⟩, hMany⟩
  simpa [attachments, List.length_flatMap, Table.size] using hLt

end Network

end TrackLayout
