import TrackLayout.Proofs.Heights.Derived
import TrackLayout.Proofs.Network.Building
import TrackLayout.Proofs.Network.Proximity

/-!
# Deriving the heights of one height plane

What is derived for a selected node comes from the connections attached to it
and from connections on its own plane that pass close by. Both are selected, so
the part derives the same elevation and the same rules. The index of the part
has a shape of its own; that it finds the selected ones among the connections
that the other index finds rests on both finding exactly what meets a rectangle.
-/
set_option autoImplicit false

namespace TrackLayout.Network

variable {S : Selection} {net part : Network} {n : NodeId} {j : Junction}

theorem Placed.of_bare {other : Network} (hPlaced : net.Placed) (h : other.bare = net.bare) :
    other.Placed := by
  intro i hi
  obtain ⟨m, hm⟩ := Table.mem_values.mp hi
  have hPoint := node?_congr_of_bare h Junction.point (fun _ => rfl) m
  refine hPlaced.defined (n := m) ?_
  rw [← hPoint, Network.node?, hm, Option.map_some]

/-- The rules of a node look only at nodes of connections that share a plane with one of its own. -/
theorem WellFormed.read_derive (hNet : net.WellFormed) (hj : net.node? n = some j) {s : RuleSettings}
    {ground : Float} {r : Rule} (hr : r ∈ (net.derive s j ground).2) : r.linked? = none ∧
      ∀ m ∈ r.read, ∃ id c, net.connection? id = some c ∧ c.touches m = true ∧
        (net.connectionsOf j).any (·.plane == c.plane) = true := by
  have hOwn {c : Connection} {here : ConnectionEnd} (h : net.Leaves j c here) : ∃ id d,
      net.connection? id = some d ∧ d.touches (c.node here.other) = true ∧
        (net.connectionsOf j).any (·.plane == d.plane) = true := by
    obtain ⟨id, hc, -⟩ := (hNet.leaves_iff hj).mp h
    exact ⟨id, c, hc, c.touches_node _, List.any_eq_true.mpr ⟨c, h.1, beq_self_eq_true _⟩⟩
  cases hNet.derived hj hr with
  | ground => exact ⟨rfl, nofun⟩
  | smoothing hAhead hBehind =>
    refine ⟨rfl, fun m hm => ?_⟩
    rcases List.mem_pair.mp hm with rfl | rfl
    · exact hOwn hAhead
    · exact hOwn hBehind
  | incline hLeaves =>
    refine ⟨rfl, fun m hm => ?_⟩
    rw [List.mem_singleton.mp hm]
    exact hOwn hLeaves
  | @neighbour id c hc _ hPlane =>
    refine ⟨rfl, fun m hm => ⟨id, c, hc, ?_, hPlane⟩⟩
    rcases List.mem_pair.mp hm with rfl | rfl
    · exact c.touches_node .start
    · exact c.touches_node .stop

/-- What a visit makes of the visited node. -/
def visited (start : Float) (rules : List Rule) (j : Junction) : Junction :=
  { j.withElevation start with rules := j.rules ++ rules }

theorem linked_visited {start : Float} {rules : List Rule} (hRules : ∀ r ∈ rules, r.linked? = none)
    (j : Junction) : (visited start rules j).linked = j.linked := by
  rw [Junction.linked, visited, List.filterMap_append, List.filterMap_eq_nil_iff.mpr hRules, List.append_nil]
  rfl

theorem bare_visited (start : Float) (rules : List Rule) (j : Junction) :
    (visited start rules j).bare = j.bare := rfl

theorem visit_of_absent {d : Derivation} (s : RuleSettings) (ground : Ground)
    (hn : d.network.node? n = none) : (d.visit s ground n).network = d.network := by
  rw [Derivation.visit, hn]

theorem visit_of_present {d : Derivation} (s : RuleSettings) (ground : Ground)
    (hj : d.network.node? n = some j) : ∃ height,
      height = (if (ground j.point).isNaN then 0.0 else ground j.point) ∧
        (d.visit s ground n).added = d.added + (d.network.derive s j height).2.length ∧
        (d.visit s ground n).network = d.network.modifyNode n
          (visited (d.network.derive s j height).1 (d.network.derive s j height).2) := by
  rw [Derivation.visit, hj]
  exact ⟨_, rfl, rfl, rfl⟩

namespace Selects

section Reading

variable (h : net.Selects S part)
include h

theorem placed (hPlaced : net.Placed) : part.Placed := by
  intro i hi
  obtain ⟨m, hm⟩ := Table.mem_values.mp hi
  obtain ⟨n, j, -, hj, -, rfl⟩ := h.nodes.mem_iff.mp hm
  exact hPlaced j (Table.mem_values.mpr ⟨n, hj⟩)

/-! ## Straightness -/

theorem sides (hj : net.node? n = some j) (hn : S.node n = true) {id : ConnectionId}
    (hId : id ∈ j.sides.forward ∨ id ∈ j.sides.backward) : S.connection id = true :=
  (h.of_attached hj (h.whole.mem_sides hj hId)).trans hn

theorem continuations? (hj : net.node? n = some j) (hn : S.node n = true) {id : ConnectionId}
    (hId : S.connection id = true) : (S.junction j).continuations? (S.connectionId id) =
      (j.continuations? id).map (·.map S.connectionId) := by
  have hForward := contains_map_renumber (fun other hOther => h.sides hj hn (.inl hOther)) hId
  have hBackward := contains_map_renumber (fun other hOther => h.sides hj hn (.inr hOther)) hId
  simp only [Junction.continuations?, Selection.junction, Selection.sides, hForward, hBackward]
  split
  · rfl
  · split <;> rfl

theorem continuation? (hn : S.node n = true) {id : ConnectionId} (hId : S.connection id = true) :
    part.continuation? (S.nodeId n) (S.connectionId id) = net.continuation? n id := by
  rw [Network.continuation?, Network.continuation?, h.node? hn]
  cases hj : net.node? n with
  | none => rfl
  | some j =>
    dsimp only [Option.map_some, bind, Option.bind]
    rw [h.continuations? hj hn hId]
    cases hIds : j.continuations? id with
    | none => rfl
    | some ids =>
      match ids, hIds with
      | [], _ => rfl
      | [single], hIds =>
        have hSingle : S.connection single = true := by
          apply h.sides hj hn
          rw [Junction.continuations?] at hIds
          split at hIds
          · right
            simp [Option.some.inj hIds]
          · split at hIds
            · left
              simp [Option.some.inj hIds]
            · cases hIds
        change (part.connection? (S.connectionId single)).bind _ = (net.connection? single).bind _
        rw [h.connection? hSingle]
        cases net.connection? single <;> rfl
      | _ :: _ :: _, _ => rfl

theorem markStraight : net.markStraight.Selects S part.markStraight where
  nodes := h.nodes
  connections := by
    refine h.connections.map fun id c hId hc => ?_
    obtain ⟨hStart, hStop⟩ := h.ends hId hc
    have hOwn : S.connection c.id = true := by rwa [h.whole.connection_id hc]
    have hStraight : part.isStraight (S.track c) = net.isStraight c := by
      have hBefore := h.continuation? hStart hOwn
      have hBehind := h.continuation? hStop hOwn
      dsimp only [Network.isStraight, Selection.track] at hBefore hBehind ⊢
      rw [hBefore, hBehind]
      rfl
    rw [hStraight]
    rfl
  whole := h.whole.of_bare (bare_markStraight net).symm
  own := h.own.of_bare (bare_markStraight part).symm
  plane {id c} hc := by
    obtain ⟨d, hd, rfl⟩ := Option.map_eq_some_iff.mp ((Table.get?_map ..).symm.trans hc)
    have hPlane := h.plane hd
    exact hPlane
  start {id c} hc := by
    obtain ⟨d, hd, rfl⟩ := Option.map_eq_some_iff.mp ((Table.get?_map ..).symm.trans hc)
    have hStart := h.start hd
    exact hStart
  stop {id c} hc := by
    obtain ⟨d, hd, rfl⟩ := Option.map_eq_some_iff.mp ((Table.get?_map ..).symm.trans hc)
    have hStop := h.stop hd
    exact hStop
  links := h.links
  read := h.read

/-! ## Rules -/

theorem mem_connectionsOf (hj : net.node? n = some j) (hn : S.node n = true) {c : Connection}
    (hc : c ∈ net.connectionsOf j) :
    ∃ id, S.connection id = true ∧ net.connection? id = some c := by
  obtain ⟨id, hId, hSome⟩ := List.mem_filterMap.mp hc
  exact ⟨id, (h.of_attached hj hId).trans hn, hSome⟩

theorem connectionsOf (hj : net.node? n = some j) (hn : S.node n = true) :
    part.connectionsOf (S.junction j) = (net.connectionsOf j).map S.track := by
  rw [Network.connectionsOf, Selection.connections_junction, List.filterMap_map, Network.connectionsOf,
    List.map_filterMap]
  apply List.filterMap_congr
  intro id hId
  exact h.connection? ((h.of_attached hj hId).trans hn)

omit h in
theorem baseline (ground : Float) (connections : List Connection) :
    Network.baseline ground (connections.map S.track) = Network.baseline ground connections := by
  rw [Network.baseline, List.filterMap_map, Network.baseline]
  rfl

omit h in
theorem groundRules (s : RuleSettings) (height : Float) (connections : List Connection) :
    Network.groundRules s height (connections.map S.track) =
      (Network.groundRules s height connections).map (·.rename S.nodeId) := by
  rw [Network.groundRules, List.any_map, List.countP_map, Network.groundRules, apply_ite (List.map _)]
  rfl

theorem sideEnds (hn : S.node n = true) {ids : List ConnectionId} (hIds : ∀ id ∈ ids, S.connection id = true) :
    part.sideEnds (S.nodeId n) (ids.map S.connectionId) = (net.sideEnds n ids).map (Prod.map S.nodeId id) := by
  rw [Network.sideEnds, List.filterMap_map, Network.sideEnds, List.map_filterMap]
  apply List.filterMap_congr
  intro id hId
  dsimp only [Function.comp]
  rw [h.connection? (hIds id hId)]
  cases hc : net.connection? id with
  | none => rfl
  | some c =>
    obtain ⟨hStart, hStop⟩ := h.ends (hIds id hId) hc
    dsimp only [Option.map_some, bind, Option.bind]
    rw [Selection.farEnd?_track hn hStart hStop]
    cases c.farEnd? n <;> rfl

theorem smoothingRules (s : RuleSettings) (hj : net.node? n = some j) (hn : S.node n = true) :
    Network.smoothingRules s part (S.junction j) =
      (Network.smoothingRules s net j).map (·.rename S.nodeId) := by
  have hForward := h.sideEnds hn fun id hId => h.sides hj hn (.inl hId)
  have hBackward := h.sideEnds hn fun id hId => h.sides hj hn (.inr hId)
  rw [← h.whole.node_id hj] at hForward hBackward
  rw [smoothingRules_eq, smoothingRules_eq, List.map_flatMap]
  dsimp only [Selection.junction, Selection.sides]
  rw [hForward, hBackward, List.flatMap_map]
  simp only [List.map_map]
  rfl

theorem inclineRules (s : RuleSettings) (hj : net.node? n = some j) (hn : S.node n = true) :
    Network.inclineRules s (S.junction j) ((net.connectionsOf j).map S.track) =
      (Network.inclineRules s j (net.connectionsOf j)).map (·.rename S.nodeId) := by
  rw [Network.inclineRules, List.filterMap_map, Network.inclineRules, List.map_filterMap]
  apply List.filterMap_congr
  intro c hc
  obtain ⟨id, hId, hSome⟩ := h.mem_connectionsOf hj hn hc
  obtain ⟨hStart, hStop⟩ := h.ends hId hSome
  have hOwn : S.node j.id = true := by rwa [h.whole.node_id hj]
  dsimp only [Function.comp, Selection.junction, bind]
  rw [Selection.farEnd?_track hOwn hStart hStop, Selection.endOf?_track hOwn hStart hStop]
  cases c.endOf? j.id with
  | none => rfl
  | some here => cases c.farEnd? j.id <;> rfl

theorem connectionsMeeting (hPlaced : net.Placed) (r : Rect) : part.connectionsMeeting r =
    ((net.connectionsMeeting r).filter S.connection).map S.connectionId := by
  rw [h.own.connectionsMeeting_eq (h.placed hPlaced), h.whole.connectionsMeeting_eq hPlaced,
    h.connections.toList_eq, List.filter_map, List.filter_map, List.map_map, List.map_map, List.filter_filter,
    List.filter_filter]
  simp only [Function.comp_def, Bool.and_comm]
  rfl

theorem connectionsBeside (hPlaced : net.Placed) (p : Point) (subnetwork : Option Subnetwork)
    (sideward forward : Float) : part.connectionsBeside p subnetwork sideward forward =
      ((net.connectionsBeside p subnetwork sideward forward).filter S.connection).map S.connectionId := by
  rw [Network.connectionsBeside, h.connectionsMeeting hPlaced, List.filter_map, Network.connectionsBeside,
    List.filter_filter, List.filter_filter]
  refine congrArg _ (List.filter_congr fun id _ => ?_)
  cases hId : S.connection id with
  | false => simp
  | true =>
    dsimp only [Function.comp]
    rw [h.connection? hId, Option.any_map, Bool.and_true, Bool.true_and]
    rfl

/-- Only connections on the plane of a node are its neighbours. -/
theorem any_plane (hj : net.node? n = some j) (hn : S.node n = true) {id : ConnectionId} {c : Connection}
    (hc : net.connection? id = some c) (hPlane : (net.connectionsOf j).any (·.plane == c.plane) = true) :
    S.connection id = true := by
  obtain ⟨d, hd, hSame⟩ := List.any_eq_true.mp hPlane
  obtain ⟨other, hOther, hSome⟩ := h.mem_connectionsOf hj hn hd
  rw [h.plane hc, ← eq_of_beq hSame]
  exact (h.plane hSome).mp hOther

theorem neighbourRules (s : RuleSettings) (hPlaced : net.Placed) (hj : net.node? n = some j)
    (hn : S.node n = true) :
    Network.neighbourRules s part (S.junction j) ((net.connectionsOf j).map S.track) =
      (Network.neighbourRules s net j (net.connectionsOf j)).map (·.rename S.nodeId) := by
  have hPoint : (S.junction j).point = j.point := rfl
  rw [Network.neighbourRules, hPoint, h.connectionsBeside hPlaced, List.filterMap_map, List.filterMap_filter,
    Network.neighbourRules, List.map_filterMap]
  apply List.filterMap_congr
  intro id hBeside
  dsimp only [Function.comp, bind]
  cases hId : S.connection id with
  | false =>
    -- a connection that was not selected is on another plane
    cases hc : net.connection? id with
    | none => rfl
    | some c =>
      have hOther : (net.connectionsOf j).any (·.plane == c.plane) = false := by
        rw [Bool.eq_false_iff]
        intro hPlane
        rw [h.any_plane hj hn hc hPlane] at hId
        cases hId
      dsimp only [Option.bind]
      rw [hOther, Bool.not_false, Bool.or_true]
      rfl
  | true =>
    rw [h.connection? hId]
    cases hc : net.connection? id with
    | none => rfl
    | some c =>
      obtain ⟨hStart, hStop⟩ := h.ends hId hc
      have hOwn : S.node j.id = true := by rwa [h.whole.node_id hj]
      have hTouches : (S.track c).touches (S.junction j).id = c.touches j.id :=
        Selection.touches_track hOwn hStart hStop
      dsimp only [Option.map_some, Option.bind]
      rw [hTouches, List.any_map]
      rw [apply_ite (Option.map _)]
      rfl

theorem derive (s : RuleSettings) (hPlaced : net.Placed) (hj : net.node? n = some j) (hn : S.node n = true)
    (ground : Float) : part.derive s (S.junction j) ground =
      Prod.map id (List.map (·.rename S.nodeId)) (net.derive s j ground) := by
  rw [Network.derive, h.connectionsOf hj hn, baseline, groundRules, h.smoothingRules s hj hn,
    h.inclineRules s hj hn, h.neighbourRules s hPlaced hj hn, ← List.map_append, ← List.map_append,
    ← List.map_append]
  rfl

end Reading

/-! ## Visits -/

section Visits

variable {d d' : Derivation} (h : d.network.Selects S d'.network) (s : RuleSettings) (ground : Ground)
include h

theorem visit (hPlaced : d.network.Placed) (hn : S.node n = true) :
    (d.visit s ground n).network.Selects S (d'.visit s ground (S.nodeId n)).network := by
  cases hj : d.network.node? n with
  | none =>
    rw [visit_of_absent s ground hj, visit_of_absent s ground (by rw [h.node? hn, hj, Option.map_none])]
    exact h
  | some j =>
    obtain ⟨height, hHeight, -, hVisit⟩ := visit_of_present s ground hj
    obtain ⟨height', hHeight', -, hVisit'⟩ := visit_of_present s ground (d := d') (n := S.nodeId n)
      (by rw [h.node? hn, hj, Option.map_some])
    have hDerive : d'.network.derive s (S.junction j) height' =
        Prod.map id (List.map (·.rename S.nodeId)) (d.network.derive s j height) := by
      rw [hHeight', hHeight]
      exact h.derive s hPlaced hj hn _
    have hRules {r : Rule} (hr : r ∈ (d.network.derive s j height).2) := h.whole.read_derive hj hr
    rw [hVisit, hVisit', hDerive]
    refine h.modifyNode hn (bare_visited _ _) (bare_visited _ _) ?_ ?_ ?_
    · intro i _
      simp [Selection.junction, visited, Junction.withElevation]
    · intro i hi m hm
      rw [linked_visited fun r hr => (hRules hr).1] at hm
      exact h.links hi m hm
    · intro i hi r hr m hm
      rcases List.mem_append.mp hr with hOld | hNew
      · exact h.read hi hn r hOld m hm
      · obtain ⟨id, c, hc, hTouches, hPlane⟩ := (hRules hNew).2 m hm
        rw [← h.of_touches hc hTouches]
        exact h.any_plane hj hn hc hPlane

theorem visit_dropped (hn : S.node n = false) : (d.visit s ground n).network.Selects S d'.network := by
  cases hj : d.network.node? n with
  | none =>
    rw [visit_of_absent s ground hj]
    exact h
  | some j =>
    obtain ⟨height, -, -, hVisit⟩ := visit_of_present s ground hj
    rw [hVisit]
    refine h.modifyNode_dropped hn (bare_visited _ _) fun i hi m hm => ?_
    rw [linked_visited fun r hr => (h.whole.read_derive hj hr).1] at hm
    exact h.links hi m hm

omit h in
theorem deriveHeights (h : net.Selects S part) (hPlaced : net.Placed) :
    (net.deriveHeights ground s).network.Selects S (part.deriveHeights ground s).network := by
  -- a visit leaves every node where it is, so the index stays exact
  have hPlacedVisit (d : Derivation) (n : NodeId) (hPlaced : d.network.Placed) :
      (d.visit s ground n).network.Placed := by
    cases hj : d.network.node? n with
    | none => rwa [visit_of_absent s ground hj]
    | some j =>
      obtain ⟨height, -, -, hVisit⟩ := visit_of_present s ground hj
      rw [hVisit]
      exact hPlaced.of_bare (bare_modifyNode (bare_visited _ _) d.network n)
  have hRuns : (net.deriveHeights ground s).network.Selects S (part.deriveHeights ground s).network ∧
      (net.deriveHeights ground s).network.Placed := by
    rw [Network.deriveHeights, Network.deriveHeights, h.nodes.ids_eq]
    refine foldl_filter_related
      (R := fun d d' : Derivation => d.network.Selects S d'.network ∧ d.network.Placed) ?_ ?_ _ ⟨h, hPlaced⟩
    · intro n d d' hn hBoth
      exact ⟨hBoth.1.visit s ground hBoth.2 hn, hPlacedVisit d n hBoth.2⟩
    · intro n d d' hn hBoth
      exact ⟨hBoth.1.visit_dropped s ground hn, hPlacedVisit d n hBoth.2⟩
  exact hRuns.1

end Visits

end Selects

end TrackLayout.Network
