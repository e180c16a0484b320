import Mathlib.Data.List.ProdSigma
import TrackLayout.Proofs.Heights.SelectedDerivation

/-!
# What is around a node

What a node should get, told without deriving it: by the connections that end
at the node, by the sides they are on, and by the connections of others that
pass it closely. Heights and rules are not among this, neither those of the
node nor those of other nodes. In a well-formed network a derivation finds the
same connections by their ids and by the index, and comes to the same.
-/
set_option autoImplicit false

namespace TrackLayout

/-- The height that counts as the ground at a point: zero where it is unknown. -/
def Ground.known (ground : Ground) (p : Point) : Float := if (ground p).isNaN then 0.0 else ground p

/-- A node and the connections around it. -/
structure Surroundings where
  node : NodeId
  point : Point
  /-- Those that end at the node, in the order in which they were attached. -/
  own : List Connection
  ahead : List Connection
  behind : List Connection
  /-- Those of the whole network, in the order of their ids. -/
  all : List Connection

namespace Surroundings

variable (around : Surroundings) (ground : Ground) (s : RuleSettings)

/-- The ground, raised by the mean of the offsets of the own connections if any of them has one. -/
def elevation : Float :=
  let offsets := around.own.filterMap (·.heightType.offset?)
  if offsets = [] then ground.known around.point
  else ground.known around.point + Binary64.sum offsets / offsets.length.toFloat

/-- The node at the other end of an own connection. -/
def opposite (c : Connection) : NodeId := if c.start = around.node then c.stop else c.start

/-- The inclines of an own connection on the way from the node to the other end. -/
def inclines (c : Connection) : InclineRange Float :=
  if c.start = around.node then c.trackType.inclines
  else ⟨-c.trackType.inclines.greatest, -c.trackType.inclines.least⟩

/-- A connection of others on the plane of an own one, whose box meets the square of the larger limit around
the node and in whose frame the node is within both limits. -/
def Passes (c : Connection) : Prop :=
  (c.start ≠ around.node ∧ c.stop ≠ around.node) ∧ (∃ d ∈ around.own, d.plane = c.plane) ∧
    c.bounds.intersects (.around around.point (Binary64.maximum s.neighbourMaxSideward s.neighbourMaxForward)) =
      true ∧
    (PlanarSegment.offset c.segment around.point).sideward.abs ≤ s.neighbourMaxSideward ∧
    (PlanarSegment.offset c.segment around.point).overhead ≤ s.neighbourMaxForward

instance (c : Connection) : Decidable (around.Passes s c) := by
  unfold Passes
  infer_instance

/-- Track on the terrain keeps the node near its elevation, the more loosely the more of it is raised. -/
def terrainRules : List Rule :=
  let raised := around.own.filter (·.heightType = .embankment)
  if ∃ c ∈ around.own, c.heightType = .onGround ∨ c.heightType = .embankment then
    [.fixedHeight (around.elevation ground) (s.baseTolerance + s.embankmentTolerance * raised.length.toFloat)
      s.fixedHeightWeight]
  else []

/-- The node lies between the far ends of every connection ahead and every one behind. -/
def transitionRules : List Rule :=
  (around.ahead.product around.behind).map fun (c, d) =>
    .betweenNodes (around.opposite c) (around.opposite d) (c.length / (c.length + d.length)) s.smoothInclineWeight

/-- Every own connection keeps its incline. -/
def inclineRules : List Rule :=
  around.own.map fun c => .inclineBetween (around.inclines c) (around.opposite c) c.length s.inclineWeight

/-- A connection that passes pulls the node towards its height at the nearest place, the more the closer. -/
def pull (c : Connection) : Rule :=
  .betweenNodes c.start c.stop ((PlanarSegment.offset c.segment around.point).forward / c.length)
    ((1.0 - ((PlanarSegment.offset c.segment around.point).sideward / s.neighbourMaxSideward).abs) *
      s.neighbourWeight)

def passingRules : List Rule := (around.all.filter (around.Passes s)).map (around.pull s)

def rules : List Rule :=
  around.terrainRules ground s ++ around.transitionRules s ++ around.inclineRules s ++ around.passingRules s

end Surroundings

namespace Network

/-- The connections with some ids, in the order of the ids. -/
def withIds (all : List Connection) (ids : List ConnectionId) : List Connection :=
  ids.flatMap fun id => all.filter (·.id = id)

def surroundings (net : Network) (j : Junction) : Surroundings where
  node := j.id
  point := j.point
  own := withIds net.connections.values (j.tracks.map (·.connection))
  ahead := withIds net.connections.values j.sides.forward
  behind := withIds net.connections.values j.sides.backward
  all := net.connections.values

namespace WellFormed

variable {net : Network} (hNet : net.WellFormed) {n : NodeId} {j : Junction}
include hNet

theorem filter_values_id (id : ConnectionId) :
    net.connections.values.filter (·.id = id) = (net.connection? id).toList := by
  have hNodup : (net.connections.values.filter (·.id = id)).Nodup := by
    refine (hNet.values_pairwise.imp ?_).filter _
    rintro c d hLess rfl
    exact UInt32.lt_irrefl _ hLess
  have hMem (c : Connection) :
      c ∈ net.connections.values.filter (·.id = id) ↔ net.connection? id = some c := by
    rw [List.mem_filter, decide_eq_true_eq, Table.mem_values]
    constructor
    · rintro ⟨⟨other, hc⟩, rfl⟩
      have hId : c.id = other := hNet.connection_id hc
      rwa [hId]
    · intro hc
      exact ⟨⟨id, hc⟩, hNet.connection_id hc⟩
  cases hc : net.connection? id with
  | none =>
    rw [Option.toList_none, List.eq_nil_iff_forall_not_mem]
    intro c hMem'
    rw [hMem, hc] at hMem'
    cases hMem'
  | some c =>
    rw [Option.toList_some, ← List.perm_singleton, List.perm_ext_iff_of_nodup hNodup (List.nodup_singleton c)]
    intro d
    rw [hMem, hc, List.mem_singleton, Option.some.injEq, eq_comm]

theorem withIds_values (ids : List ConnectionId) :
    withIds net.connections.values ids = ids.filterMap net.connection? := by
  rw [withIds, List.filterMap_eq_flatMap_toList]
  congr 1
  funext id
  exact hNet.filter_values_id id

theorem connectionsOf_eq (j : Junction) : net.connectionsOf j = (net.surroundings j).own :=
  (hNet.withIds_values j.connections).symm

/-! ## Ends of own connections -/

theorem start_or_stop (hj : net.node? n = some j) {id : ConnectionId} {c : Connection} (hId : id ∈ j.connections)
    (hc : net.connection? id = some c) : c.start = n ∨ c.stop = n := by
  rw [hNet.mem_connections hj, hc, Option.any_some, Connection.touches, Bool.or_eq_true, beq_iff_eq, beq_iff_eq]
    at hId
  exact hId

theorem endOf?_eq (hj : net.node? n = some j) {id : ConnectionId} {c : Connection} (hId : id ∈ j.connections)
    (hc : net.connection? id = some c) : c.endOf? j.id = some (if c.start = j.id then .start else .stop) := by
  have hEnds := hNet.start_or_stop hj hId hc
  rw [← hNet.node_id hj] at hEnds
  rw [Connection.endOf?]
  split
  · rfl
  · next hStart => rw [if_pos (hEnds.resolve_left hStart)]

theorem farEnd?_eq (hj : net.node? n = some j) {id : ConnectionId} {c : Connection} (hId : id ∈ j.connections)
    (hc : net.connection? id = some c) : c.farEnd? j.id = some ((net.surroundings j).opposite c) := by
  have hEnd := hNet.endOf?_eq hj hId hc
  rw [Connection.farEnd?, Surroundings.opposite]
  change _ = some (if c.start = j.id then c.stop else c.start)
  by_cases hStart : c.start = j.id
  · rw [hEnd, if_pos hStart, if_pos hStart, Option.map_some]
  · rw [hEnd, if_neg hStart, if_neg hStart, Option.map_some]

theorem sideEnds_eq (hj : net.node? n = some j) {ids : List ConnectionId} (hIds : ∀ id ∈ ids, id ∈ j.connections) :
    net.sideEnds j.id ids =
      (withIds net.connections.values ids).map fun c => ((net.surroundings j).opposite c, c.length) := by
  rw [hNet.withIds_values, List.map_filterMap, sideEnds]
  refine List.filterMap_congr fun id hId => ?_
  cases hc : net.connection? id with
  | none => rfl
  | some c =>
    have hFar := hNet.farEnd?_eq hj (hIds id hId) hc
    simp [hFar]

/-! ## What is derived -/

theorem baseline_eq (ground : Ground) (j : Junction) :
    baseline (ground.known j.point) (net.connectionsOf j) = (net.surroundings j).elevation ground := by
  rw [hNet.connectionsOf_eq, baseline, Surroundings.elevation]
  cases (net.surroundings j).own.filterMap (·.heightType.offset?) <;> rfl

theorem groundRules_eq (ground : Ground) (s : RuleSettings) (j : Junction) :
    groundRules s ((net.surroundings j).elevation ground) (net.connectionsOf j) =
      (net.surroundings j).terrainRules ground s := by
  have hTerrain (c : Connection) : c.heightType.followsGround = true ↔
      c.heightType = .onGround ∨ c.heightType = .embankment := by
    cases c.heightType <;> decide
  have hCount : (net.surroundings j).own.countP (·.heightType == .embankment) =
      ((net.surroundings j).own.filter (·.heightType = .embankment)).length := by
    rw [List.countP_eq_length_filter]
    rfl
  rw [hNet.connectionsOf_eq, groundRules, Surroundings.terrainRules, hCount]
  simp only [List.any_eq_true, hTerrain]

theorem smoothingRules_eq (s : RuleSettings) (hj : net.node? n = some j) :
    smoothingRules s net j = (net.surroundings j).transitionRules s := by
  have hAhead := hNet.sideEnds_eq hj fun id hId => hNet.mem_sides hj (.inl hId)
  have hBehind := hNet.sideEnds_eq hj fun id hId => hNet.mem_sides hj (.inr hId)
  rw [Network.smoothingRules_eq, hAhead, hBehind, Surroundings.transitionRules, List.product, List.map_flatMap,
    List.flatMap_map]
  simp only [List.map_map]
  rfl

theorem inclineRules_eq (s : RuleSettings) (hj : net.node? n = some j) :
    inclineRules s j (net.connectionsOf j) = (net.surroundings j).inclineRules s := by
  rw [Surroundings.inclineRules, ← hNet.connectionsOf_eq, inclineRules, ← List.filterMap_eq_map]
  refine List.filterMap_congr fun c hMem => ?_
  obtain ⟨id, hId, hc⟩ := List.mem_filterMap.mp hMem
  have hEnd := hNet.endOf?_eq hj hId hc
  have hFar := hNet.farEnd?_eq hj hId hc
  have hInclines : Connection.inclinesLeaving c.trackType.inclines (if c.start = j.id then .start else .stop) =
      (net.surroundings j).inclines c := by
    rw [Surroundings.inclines]
    change _ = if c.start = j.id then _ else _
    split <;> rfl
  simp [hEnd, hFar, Connection.inclineRule, hInclines]

theorem passes_iff (s : RuleSettings) (j : Junction) {id : ConnectionId} {c : Connection}
    (hc : net.connection? id = some c) : (net.surroundings j).Passes s c ↔
      ((Belongs none c ∧ (PlanarSegment.offset c.segment j.point).sideward.abs ≤ s.neighbourMaxSideward ∧
          (PlanarSegment.offset c.segment j.point).overhead ≤ s.neighbourMaxForward) ∧
        net.isNarrowed j.point s.neighbourMaxSideward s.neighbourMaxForward id = true) ∧
      ¬(c.touches j.id || !(net.connectionsOf j).any (·.plane == c.plane)) = true := by
  have hBelongs : Belongs none c := nofun
  have hNarrowed : net.isNarrowed j.point s.neighbourMaxSideward s.neighbourMaxForward id =
      c.bounds.intersects (.around j.point (Binary64.maximum s.neighbourMaxSideward s.neighbourMaxForward)) := by
    rw [isNarrowed, hc, Option.any_some]
  have hApart : c.touches j.id = false ↔ c.start ≠ j.id ∧ c.stop ≠ j.id := by
    rw [Connection.touches, Bool.or_eq_false_iff, beq_eq_false_iff_ne, beq_eq_false_iff_ne]
  have hPlane : (net.connectionsOf j).any (·.plane == c.plane) = true ↔
      ∃ d ∈ (net.surroundings j).own, d.plane = c.plane := by
    rw [hNet.connectionsOf_eq, List.any_eq_true]
    simp only [beq_iff_eq]
  have hRest : ¬(c.touches j.id || !(net.connectionsOf j).any (·.plane == c.plane)) = true ↔
      (c.start ≠ j.id ∧ c.stop ≠ j.id) ∧ ∃ d ∈ (net.surroundings j).own, d.plane = c.plane := by
    rw [Bool.not_eq_true, Bool.or_eq_false_iff, hApart, Bool.not_eq_false', hPlane]
  rw [hRest, hNarrowed]
  constructor
  · rintro ⟨hEnds, hShared, hMeets, hBeside⟩
    exact ⟨⟨⟨hBelongs, hBeside⟩, hMeets⟩, hEnds, hShared⟩
  · rintro ⟨⟨⟨-, hBeside⟩, hMeets⟩, hEnds, hShared⟩
    exact ⟨hEnds, hShared, hMeets, hBeside⟩

theorem neighbourRules_eq (hPlaced : net.Placed) (s : RuleSettings) (j : Junction) :
    neighbourRules s net j (net.connectionsOf j) = (net.surroundings j).passingRules s := by
  have hPassing : (net.surroundings j).passingRules s = net.connections.toList.filterMap fun e =>
      if (net.surroundings j).Passes s e.2 then some ((net.surroundings j).pull s e.2) else none := by
    have hAll : (net.surroundings j).all = net.connections.toList.map (·.2) := (Table.map_snd_toList _).symm
    rw [Surroundings.passingRules, hAll, List.filter_map, List.map_map, ← List.filterMap_eq_map,
      List.filterMap_filter]
    simp
  rw [hPassing, neighbourRules, hNet.connectionsBeside_eq _ _ _ _ hPlaced, scanBeside, List.filter_map,
    List.filterMap_map, List.filterMap_filter, List.filterMap_filter]
  refine List.filterMap_congr fun e he => ?_
  have hGet : net.connection? e.1 = some e.2 := Table.mem_toList.mp he
  simp only [Function.comp, hGet, decide_eq_true_eq, bind, Option.bind_some]
  rw [← ite_and, ← ite_not ((e.2.touches j.id || !(net.connectionsOf j).any (·.plane == e.2.plane)) = true), ← ite_and]
  exact if_congr (hNet.passes_iff s j hGet).symm rfl rfl

/-- In a network without undefined places a node gets what its surroundings tell. -/
theorem derive_eq (hPlaced : net.Placed) (hj : net.node? n = some j) (ground : Ground) (s : RuleSettings) :
    net.derive s j (ground.known j.point) =
      ((net.surroundings j).elevation ground, (net.surroundings j).rules ground s) := by
  rw [derive, hNet.baseline_eq, hNet.groundRules_eq, hNet.smoothingRules_eq s hj, hNet.inclineRules_eq s hj,
    hNet.neighbourRules_eq hPlaced]
  rfl

end WellFormed

end Network

end TrackLayout
