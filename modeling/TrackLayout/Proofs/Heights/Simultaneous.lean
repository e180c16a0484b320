import TrackLayout.Proofs.Heights.Surroundings

/-!
# Deriving all heights at once

The rules of a node come from where the nodes are, from the connections and from
the sides of the node. A visit writes none of these, so it does not matter which
nodes were visited before: the derivation leaves what it would leave if every
node were given what its surroundings tell at the same time. No edit on the way
fails, since a visit starts from a node that is there.
-/
set_option autoImplicit false

namespace TrackLayout

def Junction.withoutHeights (j : Junction) : Junction :=
  { j with position := { j.position with elevation := none }, rules := [] }

namespace Network

/-- The positions, the connections and the sides of a network. -/
def withoutHeights (net : Network) : Network := { net with nodes := net.nodes.map Junction.withoutHeights }

/-- A junction with the elevation and the rules that the network without its heights tells. -/
def settled (ground : Ground) (s : RuleSettings) (net : Network) (j : Junction) : Junction :=
  let around := net.withoutHeights.surroundings j.withoutHeights
  { j with
    position := { j.position with elevation := some (around.elevation ground) }
    rules := j.rules ++ around.rules ground s }

/-- The network with all its nodes settled at the same time. -/
def settleAll (ground : Ground) (s : RuleSettings) (net : Network) : Network :=
  { net with nodes := net.nodes.map (settled ground s net) }

/-- Deriving went through, settled all nodes at the same time, and counted the rules they got. -/
def Settles (ground : Ground) (s : RuleSettings) (net : Network) (outcome : Except NetworkError Derivation) : Prop :=
  ∃ d, outcome = .ok d ∧ d.network = settleAll ground s net ∧ d.added = (net.nodes.values.map fun j =>
    ((net.withoutHeights.surroundings j.withoutHeights).rules ground s).length).sum

/-! ## Edits -/

section Edits

variable {net : Network} {n : NodeId} {j : Junction}

theorem node?_modifyNode_self (hj : net.node? n = some j) (f : Junction → Junction) :
    (net.modifyNode n f).node? n = some (f j) := by
  rw [node?, modifyNode, Table.get?_modify, if_pos rfl, show net.nodes.get? n = some j from hj]
  rfl

theorem editNode_of_present (hj : net.node? n = some j) (f : Junction → Junction) :
    net.editNode n f = .ok (net.modifyNode n f) := by
  apply if_pos
  rw [Table.contains, show net.nodes.get? n = some j from hj]
  rfl

theorem modifyNode_modifyNode (net : Network) (n : NodeId) (f g : Junction → Junction) :
    (net.modifyNode n f).modifyNode n g = net.modifyNode n (g ∘ f) := by
  have hNodes : (net.nodes.modify n f).modify n g = net.nodes.modify n (g ∘ f) := by
    refine Table.ext_get? (by simp) ?_
    intro m
    simp only [Table.get?_modify]
    split
    · rw [Option.map_map]
    · rfl
  rw [modifyNode, modifyNode, hNodes]
  rfl

theorem foldlM_addRule (rules : List Rule) (hj : net.node? n = some j) :
    rules.foldlM (fun net rule => net.addRule n rule) net =
      .ok (net.modifyNode n fun j => { j with rules := j.rules ++ rules }) := by
  induction rules generalizing net j with
  | nil =>
    have hSame : net.modifyNode n (fun j => { j with rules := j.rules ++ [] }) = net := by
      simp only [List.append_nil]
      rw [modifyNode, Table.ext_get? (t := net.nodes.modify n _) (u := net.nodes) (by simp)]
      intro m
      rw [Table.get?_modify]
      split
      · exact Option.map_id_fun' ▸ rfl
      · rfl
    rw [hSame]
    rfl
  | cons rule rest ih =>
    rw [List.foldlM_cons, addRule, editNode_of_present hj]
    refine (ih (node?_modifyNode_self hj _)).trans ?_
    rw [modifyNode_modifyNode]
    congr 2
    funext i
    simp [Junction.addRule]

theorem visitByEdits_eq (s : RuleSettings) (ground : Ground) (d : Derivation) (n : NodeId) :
    d.visitByEdits s ground n = .ok (d.visit s ground n) := by
  rw [Derivation.visitByEdits, Derivation.visit]
  cases hj : d.network.node? n with
  | none => rfl
  | some j =>
    dsimp only
    generalize d.network.derive s j _ = derived
    obtain ⟨start, rules⟩ := derived
    dsimp only
    rw [setElevation, editNode_of_present hj]
    dsimp only [bind, Except.bind]
    rw [foldlM_addRule rules (node?_modifyNode_self hj _), modifyNode_modifyNode]
    rfl

theorem foldlM_visitByEdits (s : RuleSettings) (ground : Ground) (d : Derivation) (order : List NodeId) :
    order.foldlM (Derivation.visitByEdits s ground) d = .ok (order.foldl (Derivation.visit s ground) d) := by
  have hVisits : Derivation.visitByEdits s ground = fun d n => pure (d.visit s ground n) := by
    funext d n
    exact visitByEdits_eq s ground d n
  rw [hVisits, List.foldlM_pure]
  rfl

theorem deriveByEdits_eq (net : Network) (ground : Ground) (s : RuleSettings) :
    net.deriveByEdits ground s = .ok (net.deriveHeights ground s) := foldlM_visitByEdits s ground _ net.nodes.ids

end Edits

/-! ## What rules are derived from -/

theorem derive_congr (s : RuleSettings) {net other : Network} (hConnections : net.connections = other.connections)
    (hIndex : net.index = other.index) {i j : Junction} (hId : i.id = j.id) (hPoint : i.point = j.point)
    (hAttached : i.connections = j.connections) (hSides : i.sides = j.sides) (height : Float) :
    net.derive s i height = other.derive s j height := by
  have hConnection : net.connection? = other.connection? := by
    funext id
    rw [connection?, hConnections, connection?]
  have hMeeting : net.connectionsMeeting = other.connectionsMeeting := by
    funext r
    rw [connectionsMeeting, hIndex, connectionsMeeting]
  have hOwn : net.connectionsOf i = other.connectionsOf j := by
    rw [connectionsOf, hConnection, hAttached, connectionsOf]
  have hEnds (n : NodeId) : net.sideEnds n = other.sideEnds n := by
    funext ids
    rw [sideEnds, hConnection, sideEnds]
  have hSmoothing : smoothingRules s net i = smoothingRules s other j := by
    rw [smoothingRules_eq, smoothingRules_eq, hId, hSides, hEnds]
  have hInclines : inclineRules s i = inclineRules s j := by
    funext connections
    rw [inclineRules, hId, inclineRules]
  have hNeighbours : neighbourRules s net i = neighbourRules s other j := by
    funext connections
    rw [neighbourRules, connectionsBeside, hMeeting, hConnection, hId, hPoint, neighbourRules, connectionsBeside]
  rw [derive, derive, hOwn, hSmoothing, hInclines, hNeighbours]

section Visits

variable {ground : Ground} {s : RuleSettings} {net : Network} {n : NodeId} {j : Junction} {d : Derivation}
  {done : List NodeId}

/-- A junction as a visit leaves it if the network is still as it was. -/
def raised (ground : Ground) (s : RuleSettings) (net : Network) (j : Junction) : Junction :=
  visited (net.derive s j (ground.known j.point)).1 (net.derive s j (ground.known j.point)).2 j

/-- How many rules a node gets. -/
def ruleCount (ground : Ground) (s : RuleSettings) (net : Network) (n : NodeId) : Nat :=
  (net.node? n).elim 0 fun j => (net.derive s j (ground.known j.point)).2.length

/-- A derivation that has visited some nodes of a network and left everything else as it was. -/
structure Settling (ground : Ground) (s : RuleSettings) (net : Network) (done : List NodeId)
    (d : Derivation) : Prop where
  node? : ∀ n, d.network.node? n =
    (net.node? n).map fun j => if n ∈ done then raised ground s net j else j
  slots : d.network.nodes.slots.size = net.nodes.slots.size
  connections : d.network.connections = net.connections
  index : d.network.index = net.index
  added : d.added = (done.map (ruleCount ground s net)).sum

theorem settling_start (ground : Ground) (s : RuleSettings) (net : Network) :
    Settling ground s net [] { network := net } where
  node? n := by simp
  slots := rfl
  connections := rfl
  index := rfl
  added := rfl

theorem Settling.visit (h : Settling ground s net done d) (hNew : n ∉ done) :
    Settling ground s net (n :: done) (d.visit s ground n) := by
  have hSame : d.network.node? n = net.node? n := by
    rw [h.node?]
    simp only [if_neg hNew]
    exact Option.map_id_fun' ▸ rfl
  cases hj : net.node? n with
  | none =>
    rw [hj] at hSame
    have hVisit : d.visit s ground n = d := by rw [Derivation.visit, hSame]
    rw [hVisit]
    refine { h with node? := ?_, added := ?_ }
    · intro m
      rw [h.node?]
      by_cases hm : m = n
      · rw [hm, hj]
        rfl
      · simp only [List.mem_cons, hm, false_or]
    · rw [List.map_cons, List.sum_cons, ruleCount, hj, h.added]
      exact (Nat.zero_add _).symm
  | some j =>
    rw [hj] at hSame
    obtain ⟨height, hHeight, hAdded, hVisit⟩ := visit_of_present s ground hSame
    obtain rfl : height = ground.known j.point := hHeight
    -- what was written so far is nothing that rules are derived from
    rw [derive_congr s h.connections h.index rfl rfl rfl rfl] at hAdded hVisit
    constructor
    · intro m
      rw [hVisit, Network.node?, modifyNode, Table.get?_modify, ← Network.node?, h.node?]
      by_cases hm : m = n
      · subst hm
        rw [if_pos rfl, hj]
        simp only [Option.map_some, if_neg hNew, List.mem_cons_self, if_true]
        rfl
      · rw [if_neg hm]
        simp only [List.mem_cons, hm, false_or]
    · rw [hVisit, modifyNode, Table.slots_size_modify]
      exact h.slots
    · rw [hVisit]
      exact h.connections
    · rw [hVisit]
      exact h.index
    · rw [hAdded, h.added, List.map_cons, List.sum_cons, ruleCount, hj, Nat.add_comm]
      rfl

theorem Settling.foldl_visit {order : List NodeId} (h : Settling ground s net done d)
    (hOrder : (order.reverse ++ done).Nodup) :
    Settling ground s net (order.reverse ++ done) (order.foldl (Derivation.visit s ground) d) := by
  induction order generalizing d done with
  | nil => exact h
  | cons n rest ih =>
    rw [List.reverse_cons, List.append_assoc] at hOrder ⊢
    apply ih _ hOrder
    apply h.visit
    exact (List.nodup_cons.mp (List.nodup_append.mp hOrder).2.1).1

/-- Visits in any order that leaves no node out and takes none twice. -/
theorem settling_order (ground : Ground) (s : RuleSettings) {order : List NodeId} (hOrder : order.Perm net.nodes.ids) :
    Settling ground s net order.reverse (order.foldl (Derivation.visit s ground) { network := net }) := by
  have hNodup : (order.reverse ++ []).Nodup := by
    rw [List.append_nil, List.nodup_reverse]
    exact hOrder.nodup_iff.mpr (Table.ids_nodup _)
  have hAll := (settling_start ground s net).foldl_visit hNodup
  rwa [List.append_nil] at hAll

/-- Every node gets what the network without any heights derives for it. -/
theorem node?_deriveHeights (net : Network) (ground : Ground) (s : RuleSettings) (n : NodeId) :
    (net.deriveHeights ground s).network.node? n = (net.node? n).map (raised ground s net) := by
  rw [deriveHeights, (settling_order ground s (.refl _)).node?]
  cases hj : net.node? n with
  | none => rfl
  | some j =>
    have hVisited : n ∈ net.nodes.ids.reverse := List.mem_reverse.mpr (Table.mem_ids.mpr ⟨j, hj⟩)
    rw [Option.map_some, if_pos hVisited, Option.map_some]

/-- No edit fails, and every node gets the rules of its place behind those that it has. -/
theorem exists_deriveByEdits (net : Network) (ground : Ground) (s : RuleSettings) :
    ∃ d, net.deriveByEdits ground s = .ok d ∧ ∀ n j, net.node? n = some j →
      (d.network.node? n).map (·.rules) = some (j.rules ++ (net.derive s j (ground.known j.point)).2) := by
  refine ⟨_, deriveByEdits_eq net ground s, fun n j hj => ?_⟩
  rw [node?_deriveHeights, hj]
  rfl

/-! ## What the surroundings tell -/

theorem WellFormed.raised_eq (hNet : net.WellFormed) (hPlaced : net.Placed) (hj : net.node? n = some j)
    (ground : Ground) (s : RuleSettings) : raised ground s net j = settled ground s net j := by
  rw [raised, hNet.derive_eq hPlaced hj]
  rfl

theorem WellFormed.ruleCount_eq (hNet : net.WellFormed) (hPlaced : net.Placed) (hj : net.node? n = some j)
    (ground : Ground) (s : RuleSettings) :
    ruleCount ground s net n = ((net.withoutHeights.surroundings j.withoutHeights).rules ground s).length := by
  rw [ruleCount, hj, Option.elim_some, hNet.derive_eq hPlaced hj]
  rfl

theorem WellFormed.settles (hNet : net.WellFormed) (hPlaced : net.Placed) (ground : Ground) (s : RuleSettings)
    {order : List NodeId} (hOrder : order.Perm net.nodes.ids) :
    Settles ground s net (order.foldlM (Derivation.visitByEdits s ground) { network := net }) := by
  have h := settling_order ground s hOrder
  refine ⟨_, foldlM_visitByEdits s ground _ order, ?_, ?_⟩
  · have hNodes : (order.foldl (Derivation.visit s ground) { network := net }).network.nodes =
        net.nodes.map (settled ground s net) := by
      refine Table.ext_get? (by rw [h.slots, Table.slots_size_map]) ?_
      intro n
      rw [Table.get?_map]
      refine (h.node? n).trans ?_
      cases hj : net.node? n with
      | none => rw [show net.nodes.get? n = none from hj]; rfl
      | some j =>
        have hVisited : n ∈ order.reverse := by
          rw [List.mem_reverse, hOrder.mem_iff]
          exact Table.mem_ids.mpr ⟨j, hj⟩
        rw [show net.nodes.get? n = some j from hj, Option.map_some, Option.map_some, if_pos hVisited,
          hNet.raised_eq hPlaced hj]
    rw [settleAll, ← hNodes, ← h.connections, ← h.index]
  · rw [h.added, ← Table.map_snd_toList, List.map_map]
    refine (((List.reverse_perm order).trans hOrder).map _).sum_eq.trans ?_
    rw [Table.ids, List.map_map]
    congr 1
    apply List.map_congr_left
    intro e he
    exact hNet.ruleCount_eq hPlaced (Table.mem_toList.mp he) ground s

end Visits

/-- However a network without undefined places was edited before, and in whatever order its nodes are visited,
deriving all heights succeeds and settles all nodes at once: each is raised to the height of its ground and gets
the rules of its surroundings behind those that it has. -/
theorem deriveByEdits_run (ops : List Operation) (hPlaced : (run ops).Placed) (ground : Ground) (s : RuleSettings) :
    Settles ground s (run ops) ((run ops).deriveByEdits ground s) ∧
    ∀ order : List NodeId, order.Perm (run ops).nodes.ids →
      Settles ground s (run ops) (order.foldlM (Derivation.visitByEdits s ground) { network := run ops }) :=
  ⟨(wellFormed_run ops).settles hPlaced ground s (.refl _),
    fun _ hOrder => (wellFormed_run ops).settles hPlaced ground s hOrder⟩

/-- A canal that goes over into a dam, with a bridge beside both. The node between them has a height and a link. -/
def viaduct : List Operation :=
  [.addNode { point := ⟨-30.0, 0.0⟩ }, .addNode { point := ⟨0.0, 0.0⟩, elevation := some 7.0 },
    .addNode { point := ⟨40.0, 0.0⟩ }, .addNode { point := ⟨-50.0, 4.0⟩ }, .addNode { point := ⟨50.0, 4.0⟩ },
    .connect ⟨0⟩ ⟨1⟩ { trackType := .ofSubnetwork 5 .waterway, heightType := .onGround },
    .connect ⟨1⟩ ⟨2⟩ { heightType := .embankment }, .connect ⟨3⟩ ⟨4⟩ { heightType := .bridge },
    .addRule ⟨1⟩ (.linkedTo ⟨2⟩)]

/-- Ground that is unknown on one side. -/
def plateau (p : Point) : Float := if p.x < -10.0 then 0.0 / 0.0 else 100.0

theorem deriveByEdits_run_viaduct : (run viaduct).Placed ∧ ∃ d,
    (run viaduct).deriveByEdits plateau {} = .ok d ∧ d.added = 13 ∧ d.network.elevation ⟨0⟩ = some 0.0 ∧
    (d.network.node? ⟨1⟩).map (fun j => (j.elevation, j.rules)) = some (some 101.5,
      [.linkedTo ⟨2⟩, .fixedHeight 101.5 6.0 0.2, .betweenNodes ⟨0⟩ ⟨2⟩ (30.0 / 70.0) 0.5,
        .inclineBetween ⟨-0.0, 0.3⟩ ⟨0⟩ 30.0 1.0, .inclineBetween ⟨-0.05, 0.05⟩ ⟨2⟩ 40.0 1.0,
        .betweenNodes ⟨3⟩ ⟨4⟩ 0.5 1.2]) ∧
    ∃ d', [⟨4⟩, ⟨1⟩, ⟨0⟩, ⟨3⟩, ⟨2⟩].foldlM (Derivation.visitByEdits {} plateau) { network := run viaduct } = .ok d' ∧
      d'.network = d.network := by
  obtain ⟨hPlaced, hIds, hCount, hLow, hNode⟩ : (run viaduct).Placed ∧
      [⟨4⟩, ⟨1⟩, ⟨0⟩, ⟨3⟩, ⟨2⟩].Perm (run viaduct).nodes.ids ∧
      ((run viaduct).nodes.values.map fun j =>
        (((run viaduct).withoutHeights.surroundings j.withoutHeights).rules plateau {}).length).sum = 13 ∧
      (settleAll plateau {} (run viaduct)).elevation ⟨0⟩ = some 0.0 ∧
      ((settleAll plateau {} (run viaduct)).node? ⟨1⟩).map (fun j => (j.elevation, j.rules)) = some (some 101.5,
        [.linkedTo ⟨2⟩, .fixedHeight 101.5 6.0 0.2, .betweenNodes ⟨0⟩ ⟨2⟩ (30.0 / 70.0) 0.5,
          .inclineBetween ⟨-0.0, 0.3⟩ ⟨0⟩ 30.0 1.0, .inclineBetween ⟨-0.05, 0.05⟩ ⟨2⟩ 40.0 1.0,
          .betweenNodes ⟨3⟩ ⟨4⟩ 0.5 1.2]) := by decide +kernel
  obtain ⟨⟨d, hd, hNetwork, hAdded⟩, hOrders⟩ := deriveByEdits_run viaduct hPlaced plateau {}
  obtain ⟨d', hd', hNetwork', -⟩ := hOrders _ hIds
  rw [← hNetwork] at hLow hNode
  exact ⟨hPlaced, d, hd, hAdded.trans hCount, hLow, hNode, d', hd', hNetwork'.trans hNetwork.symm⟩

end Network

end TrackLayout
