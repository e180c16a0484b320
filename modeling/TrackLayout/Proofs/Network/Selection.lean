import TrackLayout.Proofs.Heights.Rule
import TrackLayout.Proofs.Network.Splitting
import TrackLayout.Proofs.Table.Selection

/-!
# One height plane of a network

A selection names the nodes and the connections of one height plane. A network
may be the selected part of another one: the same junctions and connections
under numbers of their own. For this no connection may lead from a selected
node to another one, no link either, and no rule of a selected node may look at
a node that was not selected. Changes to nodes that were not selected leave the
part as it is, and changes to selected nodes can be made to the part as well.
-/
set_option autoImplicit false

namespace TrackLayout

structure Selection where
  plane : Option HeightPlane
  node : NodeId → Bool
  connection : ConnectionId → Bool

namespace Selection

variable (S : Selection)

abbrev nodeId (n : NodeId) : NodeId := n.renumber S.node

abbrev connectionId (id : ConnectionId) : ConnectionId := id.renumber S.connection

def attachment (t : Attachment) : Attachment := ⟨S.connectionId t.connection, t.direction⟩

def sides (g : Sides) : Sides :=
  { g with forward := g.forward.map S.connectionId, backward := g.backward.map S.connectionId }

def junction (j : Junction) : Junction where
  id := S.nodeId j.id
  position := j.position
  tracks := j.tracks.map S.attachment
  sides := S.sides j.sides
  rules := j.rules.map (·.rename S.nodeId)

/-- A connection with its own number and those of its ends changed. -/
def track (c : Connection) : Connection :=
  { c with id := S.connectionId c.id, start := S.nodeId c.start, stop := S.nodeId c.stop }

/-! ## Sides and tracks -/

variable {S : Selection}

theorem sides_add (g : Sides) (t : Attachment) : S.sides (g.add t) = (S.sides g).add (S.attachment t) := by
  have hRelease : S.sides g.release = (S.sides g).release := by
    cases hDesires : g.backwardDesiresForward <;> simp [Sides.release, sides, hDesires]
  rw [Sides.add, Sides.add]
  cases hForward : g.forward with
  | nil => simp [sides, attachment, hForward]
  | cons first rest =>
    have hSome : (S.sides g).forward.isEmpty = false := by simp [sides, hForward]
    rw [hSome, ← hRelease]
    generalize g.release = r
    cases hBackward : r.backward with
    | nil => simp [sides, attachment, hBackward]
    | cons b bs =>
      cases hAligned : Sides.pointsForward r.forwardDirection t.direction <;>
        simp [sides, attachment, hBackward, hAligned]

theorem sides_ofTracks (tracks : List Attachment) :
    S.sides (.ofTracks tracks) = .ofTracks (tracks.map S.attachment) := by
  have hFold : ∀ g, S.sides (tracks.foldl Sides.add g) = (tracks.map S.attachment).foldl Sides.add (S.sides g) := by
    induction tracks with
    | nil => exact fun g => rfl
    | cons t rest ih => exact fun g => by rw [List.foldl_cons, ih, sides_add, List.map_cons, List.foldl_cons]
  exact hFold {}

theorem connections_junction (j : Junction) :
    (S.junction j).connections = j.connections.map S.connectionId := by
  simp only [Junction.connections, junction, List.map_map]
  rfl

theorem linked_junction (j : Junction) : (S.junction j).linked = j.linked.map S.nodeId := by
  simp only [Junction.linked, junction, List.filterMap_map, List.map_filterMap]
  congr
  funext r
  exact HeightRule.linked?_rename S.nodeId r

theorem junction_attach (j : Junction) (t : Attachment) :
    S.junction (j.attach t) = (S.junction j).attach (S.attachment t) := by
  simp [junction, Junction.attach, sides_add]

theorem connection_beq {c d : ConnectionId} (hc : S.connection c = true) (hd : S.connection d = true) :
    (S.connectionId c == S.connectionId d) = (c == d) := by
  rw [Bool.eq_iff_iff, beq_iff_eq, beq_iff_eq, renumber_inj hc hd]

theorem eraseP_congr {α : Type} {p q : α → Bool} {xs : List α} (h : ∀ x ∈ xs, p x = q x) :
    xs.eraseP p = xs.eraseP q := by
  induction xs with
  | nil => rfl
  | cons x rest ih =>
    obtain ⟨hx, hRest⟩ := List.forall_mem_cons.mp h
    rw [List.eraseP_cons, List.eraseP_cons, hx, ih hRest]

theorem junction_detach {j : Junction} {id : ConnectionId} (hId : S.connection id = true)
    (hTracks : ∀ t ∈ j.tracks, S.connection t.connection = true) :
    S.junction (j.detach id) = (S.junction j).detach (S.connectionId id) := by
  have hErase : (j.tracks.eraseP (·.connection == id)).map S.attachment =
      (j.tracks.map S.attachment).eraseP (·.connection == S.connectionId id) := by
    rw [List.eraseP_map, eraseP_congr fun t ht => (connection_beq (hTracks t ht) hId).symm]
    rfl
  simp only [junction, Junction.detach, hErase, sides_ofTracks]

/-! ## Connections -/

variable {c : Connection} {n m : NodeId}

theorem endOf?_track (hn : S.node n = true) (hStart : S.node c.start = true) (hStop : S.node c.stop = true) :
    (S.track c).endOf? (S.nodeId n) = c.endOf? n := by
  simp only [Connection.endOf?, track, renumber_inj hStart hn, renumber_inj hStop hn]

theorem touches_track (hn : S.node n = true) (hStart : S.node c.start = true) (hStop : S.node c.stop = true) :
    (S.track c).touches (S.nodeId n) = c.touches n := by
  rw [Bool.eq_iff_iff]
  simp [Connection.touches, track, renumber_inj hStart hn, renumber_inj hStop hn]

theorem farEnd?_track (hn : S.node n = true) (hStart : S.node c.start = true) (hStop : S.node c.stop = true) :
    (S.track c).farEnd? (S.nodeId n) = (c.farEnd? n).map S.nodeId := by
  rw [Connection.farEnd?, endOf?_track hn hStart hStop, Connection.farEnd?, Option.map_map]
  congr
  funext which
  cases which <;> rfl

theorem track_handOver (hn : S.node n = true) (hStart : S.node c.start = true) (hStop : S.node c.stop = true) :
    S.track (c.handOver n m) = (S.track c).handOver (S.nodeId n) (S.nodeId m) := by
  simp only [Connection.handOver, track, renumber_inj hStart hn, renumber_inj hStop hn]
  split
  · rfl
  · split <;> rfl

end Selection

/-! ## Parts of networks -/

namespace Network

/-- `part` is what the selection shows of `net`. -/
structure Selects (S : Selection) (net part : Network) : Prop where
  nodes : net.nodes.Selects S.node S.junction part.nodes
  connections : net.connections.Selects S.connection S.track part.connections
  whole : net.WellFormed
  own : part.WellFormed
  plane : ∀ {id c}, net.connection? id = some c → (S.connection id = true ↔ c.plane = S.plane)
  start : ∀ {id c}, net.connection? id = some c → S.node c.start = S.connection id
  stop : ∀ {id c}, net.connection? id = some c → S.node c.stop = S.connection id
  /-- Links stay among selected nodes or among the others. -/
  links : ∀ {n j}, net.node? n = some j → ∀ m ∈ j.linked, S.node m = S.node n
  read : ∀ {n j}, net.node? n = some j → S.node n = true → ∀ r ∈ j.rules, ∀ m ∈ r.read, S.node m = true

variable {S : Selection} {net part : Network}

namespace Selects

variable (h : net.Selects S part)
include h

theorem node? {n : NodeId} (hn : S.node n = true) :
    part.node? (S.nodeId n) = (net.node? n).map S.junction := h.nodes.get? n hn

theorem connection? {id : ConnectionId} (hId : S.connection id = true) :
    part.connection? (S.connectionId id) = (net.connection? id).map S.track := h.connections.get? id hId

theorem elevation {n : NodeId} (hn : S.node n = true) : part.elevation (S.nodeId n) = net.elevation n := by
  rw [Network.elevation, h.node? hn, Network.elevation, Option.bind_map]
  rfl

theorem of_touches {id : ConnectionId} {c : Connection} (hc : net.connection? id = some c) {n : NodeId}
    (hTouches : c.touches n = true) : S.connection id = S.node n := by
  rw [Connection.touches, Bool.or_eq_true, beq_iff_eq, beq_iff_eq] at hTouches
  rcases hTouches with rfl | rfl
  · exact (h.start hc).symm
  · exact (h.stop hc).symm

/-- A connection is selected with the nodes it is attached to. -/
theorem of_attached {n : NodeId} {j : Junction} (hj : net.node? n = some j) {id : ConnectionId}
    (hId : id ∈ j.connections) : S.connection id = S.node n := by
  rw [h.whole.mem_connections hj, Option.any_eq_true] at hId
  obtain ⟨c, hc, hTouches⟩ := hId
  exact h.of_touches hc hTouches

theorem tracks {n : NodeId} {j : Junction} (hj : net.node? n = some j) (hn : S.node n = true) :
    ∀ t ∈ j.tracks, S.connection t.connection = true := fun _ ht =>
  (h.of_attached hj (List.mem_map_of_mem ht)).trans hn

theorem ends {id : ConnectionId} (hId : S.connection id = true) {c : Connection}
    (hc : net.connection? id = some c) : S.node c.start = true ∧ S.node c.stop = true :=
  ⟨(h.start hc).trans hId, (h.stop hc).trans hId⟩

theorem subnetwork? {id : ConnectionId} (hId : S.connection id = true) :
    part.subnetwork? (S.connectionId id) = net.subnetwork? id := by
  rw [Network.subnetwork?, h.connection? hId, Network.subnetwork?, Option.map_map]
  rfl

/-! ### Changes of junctions -/

/-- A change to a selected node made to the part as well. -/
theorem modifyNode {n : NodeId} (hn : S.node n = true) {f f' : Junction → Junction}
    (hBare : ∀ j, (f j).bare = j.bare) (hBare' : ∀ j, (f' j).bare = j.bare)
    (hAlike : ∀ j, net.node? n = some j → S.junction (f j) = f' (S.junction j))
    (hLinks : ∀ j, net.node? n = some j → ∀ m ∈ (f j).linked, S.node m = S.node n)
    (hRead : ∀ j, net.node? n = some j → ∀ r ∈ (f j).rules, ∀ m ∈ r.read, S.node m = true) :
    (net.modifyNode n f).Selects S (part.modifyNode (S.nodeId n) f') where
  nodes := h.nodes.modify hn hAlike
  connections := h.connections
  whole := h.whole.of_bare (bare_modifyNode hBare net n).symm
  own := h.own.of_bare (bare_modifyNode hBare' part (S.nodeId n)).symm
  plane := h.plane
  start := h.start
  stop := h.stop
  links {m i} hi := by
    obtain ⟨rfl, j, hj, rfl⟩ | ⟨-, hOld⟩ := node_of_modifyNode hi
    · exact hLinks j hj
    · exact h.links hOld
  read {m i} hi hm := by
    obtain ⟨rfl, j, hj, rfl⟩ | ⟨-, hOld⟩ := node_of_modifyNode hi
    · exact hRead j hj
    · exact h.read hOld hm

/-- A change to a node that was not selected does not show. -/
theorem modifyNode_dropped {n : NodeId} (hn : S.node n = false) {f : Junction → Junction}
    (hBare : ∀ j, (f j).bare = j.bare)
    (hLinks : ∀ j, net.node? n = some j → ∀ m ∈ (f j).linked, S.node m = S.node n) :
    (net.modifyNode n f).Selects S part where
  nodes := h.nodes.modify_dropped hn f
  connections := h.connections
  whole := h.whole.of_bare (bare_modifyNode hBare net n).symm
  own := h.own
  plane := h.plane
  start := h.start
  stop := h.stop
  links {m i} hi := by
    obtain ⟨rfl, j, hj, rfl⟩ | ⟨-, hOld⟩ := node_of_modifyNode hi
    · exact hLinks j hj
    · exact h.links hOld
  read {m i} hi hm := by
    obtain ⟨rfl, -⟩ | ⟨-, hOld⟩ := node_of_modifyNode hi
    · rw [hn] at hm
      cases hm
    · exact h.read hOld hm

/-! ### What does not fit -/

theorem foreign {n : NodeId} {j : Junction} (hj : net.node? n = some j) (hn : S.node n = true)
    (subnetwork : Subnetwork) :
    part.foreign (S.junction j) subnetwork = (net.foreign j subnetwork).map S.connectionId := by
  rw [Network.foreign, Selection.connections_junction, List.filter_map, Network.foreign]
  refine congrArg _ (List.filter_congr fun id hId => ?_)
  dsimp only [Function.comp]
  rw [h.subnetwork? ((h.of_attached hj hId).trans hn)]

theorem misfits {n : NodeId} {j : Junction} (hj : net.node? n = some j) (hn : S.node n = true) :
    part.misfits (S.junction j) = (net.misfits j).map S.connectionId := by
  have hOffAxis (axis : Float) : offAxis (S.junction j) axis = (offAxis j axis).map S.connectionId := by
    simp only [offAxis, Selection.junction, List.filter_map, List.map_map]
    rfl
  have hSurplus : surplus (S.junction j) = (surplus j).map S.connectionId := by
    rw [surplus, surplus, Selection.connections_junction, ← List.map_drop]
    exact (apply_ite (List.map S.connectionId) ..).symm
  rw [Network.misfits, Network.misfits]
  cases hTracks : j.tracks with
  | nil => simp [Selection.junction, hTracks]
  | cons first rest =>
    have hFirst : (S.junction j).tracks.head? = some (S.attachment first) := by
      simp [Selection.junction, hTracks]
    have hKept : S.connection first.connection = true := h.tracks hj hn first (by simp [hTracks])
    rw [hFirst, List.head?_cons]
    dsimp only [Selection.attachment]
    rw [h.subnetwork? hKept]
    cases net.subnetwork? first.connection with
    | none => rfl
    | some subnetwork =>
      dsimp only
      rw [h.foreign hj hn, hOffAxis, hSurplus]
      cases net.foreign j subnetwork <;> cases offAxis j first.direction <;> simp

end Selects

end Network

end TrackLayout
