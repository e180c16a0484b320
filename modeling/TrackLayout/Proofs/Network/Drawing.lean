import TrackLayout.Proofs.Network.Building

/-!
# Drawing a network

Drawing takes calls in turn, and the first one that is refused ends it. Nodes
may be moved to the front of a drawing: a connection does not depend on nodes
that are added later, and takes none of their numbers.
-/
set_option autoImplicit false

namespace TrackLayout

/-! ## New entries and changes of old ones -/

namespace Table

variable {kind : IdKind} {α : Type} {t u : Table kind α} {entry : Id kind → α} {id target : Id kind}

theorem exists_add?_of_slots (entry : Id kind → α) (h : t.slots.size + 1 < UInt32.size) :
    ∃ u, t.add? entry = some (⟨t.slots.size.toUInt32⟩, u) := by
  rw [add?, dif_pos h]
  exact ⟨_, rfl⟩

theorem slots_lt_of_add? (h : t.add? entry = some (id, u)) : t.slots.size + 1 < UInt32.size := by
  have hSize := slots_size_add? h
  rw [← hSize]
  exact u.slots_lt

theorem id_eq_of_add? (h : t.add? entry = some (id, u)) : id = ⟨t.slots.size.toUInt32⟩ := by
  obtain ⟨v, hv⟩ := exists_add?_of_slots entry (slots_lt_of_add? h)
  rw [h] at hv
  exact congrArg Prod.fst (Option.some.inj hv)

/-- A change of an entry that is there may as well come after a new entry. -/
theorem add?_modify (h : t.add? entry = some (id, u)) {a : α} (hTarget : t.get? target = some a) (f : α → α) :
    (t.modify target f).add? entry = some (id, u.modify target f) := by
  have hRoom := slots_lt_of_add? h
  rw [← slots_size_modify t target f] at hRoom
  obtain ⟨v, hv⟩ := exists_add?_of_slots entry hRoom
  rw [slots_size_modify, ← id_eq_of_add? h] at hv
  have hNe : id ≠ target := by
    rintro rfl
    rw [get?_fresh h] at hTarget
    cases hTarget
  rw [hv]
  congr 2
  refine ext_get? ?_ fun other => ?_
  · rw [slots_size_add? hv, slots_size_modify, slots_size_modify, slots_size_add? h]
  · rw [get?_add? hv, get?_modify, get?_modify, get?_add? h]
    by_cases hOther : other = id
    · rw [if_pos hOther, if_pos hOther, hOther, if_neg hNe]
    · rw [if_neg hOther, if_neg hOther]

end Table

namespace Network

variable {net next mid final : Network} {call : Call} {calls more : List Call} {position : Position}
  {n start stop : NodeId} {spec : TrackSpec} {p q : Point} {id : ConnectionId}

def lay (net : Network) : Call → Except NetworkError Network
  | .addNode position => (net.addNode position).map (·.2)
  | .connect start stop spec => (net.connect start stop spec).map (·.2)

def drawOn (net : Network) (calls : List Call) : Except NetworkError Network := calls.foldlM lay net

def draw (calls : List Call) : Except NetworkError Network := drawOn .empty calls

/-- What a call does that is not refused. -/
inductive Laid (net : Network) : Call → Network → Prop where
  | addNode {position : Position} {id : NodeId} {next : Network} (h : Added net position id next) :
      Laid net (.addNode position) next
  | connect {start stop : NodeId} {spec : TrackSpec} {p q : Point} {id : ConnectionId} {next : Network}
      (h : Connected net start stop spec p q id next) : Laid net (.connect start stop spec) next

theorem Added.addNode (h : Added net position n next) : net.addNode position = .ok (n, next) := by
  have hAdd := h.add
  obtain ⟨nodes, connections, index⟩ := next
  obtain ⟨rfl, rfl⟩ : _ ∧ _ := ⟨h.connections, h.index⟩
  rw [Network.addNode, hAdd]

theorem lay_eq_ok : net.lay call = .ok next ↔ Laid net call next := by
  constructor
  · intro h
    cases call with
    | addNode position =>
      rw [lay] at h
      cases hAdd : net.addNode position with
      | error e =>
        rw [hAdd] at h
        cases h
      | ok added =>
        rw [hAdd] at h
        cases h
        exact .addNode (addNode_eq_ok hAdd)
    | connect start stop spec =>
      rw [lay] at h
      cases hConnect : net.connect start stop spec with
      | error e =>
        rw [hConnect] at h
        cases h
      | ok connected =>
        rw [hConnect] at h
        cases h
        obtain ⟨p, q, hConnected⟩ := connect_eq_ok hConnect
        exact .connect hConnected
  · intro h
    cases h with
    | addNode h => rw [lay, h.addNode, Except.map]
    | connect h => rw [lay, h.connect, Except.map]

theorem drawOn_nil : net.drawOn [] = .ok net := rfl

theorem drawOn_cons : net.drawOn (call :: calls) = .ok final ↔
    ∃ next, Laid net call next ∧ next.drawOn calls = .ok final := by
  rw [drawOn, List.foldlM_cons]
  constructor
  · intro h
    cases hStep : net.lay call with
    | error e =>
      rw [hStep] at h
      cases h
    | ok next =>
      rw [hStep] at h
      exact ⟨next, lay_eq_ok.mp hStep, h⟩
  · rintro ⟨next, hStep, hRest⟩
    rw [lay_eq_ok.mpr hStep]
    exact hRest

theorem drawOn_append : net.drawOn (calls ++ more) = .ok final ↔
    ∃ next, net.drawOn calls = .ok next ∧ next.drawOn more = .ok final := by
  induction calls generalizing net with
  | nil =>
    constructor
    · intro h
      exact ⟨net, drawOn_nil, h⟩
    · rintro ⟨next, hNil, hMore⟩
      cases hNil
      exact hMore
  | cons call rest ih =>
    rw [List.cons_append, drawOn_cons]
    constructor
    · rintro ⟨mid, hMid, hRest⟩
      obtain ⟨next, hNext, hMore⟩ := ih.mp hRest
      exact ⟨next, drawOn_cons.mpr ⟨mid, hMid, hNext⟩, hMore⟩
    · rintro ⟨next, hNext, hMore⟩
      obtain ⟨mid, hMid, hRest⟩ := drawOn_cons.mp hNext
      exact ⟨mid, hMid, ih.mpr ⟨next, hRest, hMore⟩⟩

theorem drawOn_concat : net.drawOn (calls ++ [call]) = .ok final ↔
    ∃ next, net.drawOn calls = .ok next ∧ Laid next call final := by
  rw [drawOn_append]
  refine exists_congr fun next => and_congr_right fun _ => ?_
  rw [drawOn_cons]
  constructor
  · rintro ⟨last, hLast, hNil⟩
    cases hNil
    exact hLast
  · intro h
    exact ⟨final, h, drawOn_nil⟩

theorem drawOn_wellFormed (hNet : net.WellFormed) (h : net.drawOn calls = .ok final) : final.WellFormed := by
  induction calls generalizing net with
  | nil =>
    cases h
    exact hNet
  | cons call rest ih =>
    obtain ⟨next, hLaid, hRest⟩ := drawOn_cons.mp h
    cases hLaid with
    | addNode hAdded => exact ih (hAdded.wellFormed hNet) hRest
    | connect hConnected => exact ih (hConnected.wellFormed hNet) hRest

theorem wellFormed_draw (h : draw calls = .ok net) : net.WellFormed := drawOn_wellFormed empty_wellFormed h

/-! ## Nodes first -/

/-- A connection that is to be made. -/
structure Edge where
  start : NodeId
  stop : NodeId
  spec : TrackSpec
  deriving DecidableEq

def Edge.toCall (e : Edge) : Call := .connect e.start e.stop e.spec

/-- The calls for nodes and then for connections between them. -/
def nodesFirst (positions : List Position) (edges : List Edge) : List Call :=
  positions.map Call.addNode ++ edges.map Edge.toCall

variable {positions : List Position} {edges : List Edge}

theorem Added.unique (h : Added net position n next) {n' : NodeId} {next' : Network}
    (h' : Added net position n' next') : next' = next := by
  have hSame := h.addNode.symm.trans h'.addNode
  exact (congrArg Prod.snd (Except.ok.inj hSame)).symm

/-- A node that is added before a connection may as well be added behind it. -/
theorem Added.connect (h : Added net position n next) (hConnected : Connected net start stop spec p q id mid) :
    ∃ last, Connected next start stop spec p q id last ∧ Added mid position n last := by
  obtain ⟨i, hi, -⟩ := Option.map_eq_some_iff.mp hConnected.startPoint
  obtain ⟨j, hj, -⟩ := Option.map_eq_some_iff.mp hConnected.stopPoint
  have hStopAfter : (net.nodes.modify start (·.attach ⟨id, Angle.toPoint p q⟩)).get? stop = some j := by
    rw [Table.get?_modify, if_neg hConnected.ends_ne.symm]
    exact hj
  have hNodes := Table.add?_modify (Table.add?_modify h.add hi (·.attach ⟨id, Angle.toPoint p q⟩)) hStopAfter
    (·.attach ⟨id, Angle.toPoint q p⟩)
  have hAdd := hConnected.add
  rw [← h.connections] at hAdd
  rw [← hConnected.nodes] at hNodes
  refine ⟨{
    nodes := (next.nodes.modify start (·.attach ⟨id, Angle.toPoint p q⟩)).modify stop
      (·.attach ⟨id, Angle.toPoint q p⟩)
    connections := mid.connections
    index := next.index.insert (.spanning p q) id }, ?_, ?_⟩
  · exact {
      ends_ne := hConnected.ends_ne
      startPoint := h.node?_of_present hConnected.startPoint
      stopPoint := h.node?_of_present hConnected.stopPoint
      add := hAdd
      nodes := rfl
      index := rfl }
  · constructor
    · exact hNodes
    · rfl
    · rw [hConnected.index, h.index]

theorem Added.drawOn_edges (h : Added net position n next) (hMid : net.drawOn (edges.map Edge.toCall) = .ok mid) :
    ∃ last, next.drawOn (edges.map Edge.toCall) = .ok last ∧ Added mid position n last := by
  induction edges generalizing net next with
  | nil =>
    cases hMid
    exact ⟨next, drawOn_nil, h⟩
  | cons e rest ih =>
    obtain ⟨net', hLaid, hRest⟩ := drawOn_cons.mp hMid
    cases hLaid with
    | connect hConnected =>
      obtain ⟨next', hConnected', hAdded⟩ := h.connect hConnected
      obtain ⟨last, hLast, hMore⟩ := ih hAdded hRest
      exact ⟨last, drawOn_cons.mpr ⟨next', .connect hConnected', hLast⟩, hMore⟩

theorem drawOn_edges_slots (h : net.drawOn (edges.map Edge.toCall) = .ok next) :
    next.nodes.slots.size = net.nodes.slots.size := by
  induction edges generalizing net with
  | nil =>
    cases h
    rfl
  | cons e rest ih =>
    obtain ⟨mid, hLaid, hRest⟩ := drawOn_cons.mp h
    cases hLaid with
    | connect hConnected => rw [ih hRest, hConnected.nodes, Table.slots_size_modify, Table.slots_size_modify]

/-- A new node joins the other nodes in front of the connections. -/
theorem draw_nodesFirst_addNode (h : draw (nodesFirst positions edges) = .ok net)
    (hAdded : Added net position n next) : draw (nodesFirst (positions ++ [position]) edges) = .ok next := by
  obtain ⟨bare, hBare, hEdges⟩ := drawOn_append.mp h
  have hRoom := Table.slots_lt_of_add? hAdded.add
  rw [drawOn_edges_slots hEdges] at hRoom
  obtain ⟨nodes, hNodes⟩ := Table.exists_add?_of_slots (fun id => ({ id, position } : Junction)) hRoom
  have hFirst : Added bare position _ { bare with nodes } := ⟨hNodes, rfl, rfl⟩
  obtain ⟨last, hLast, hBehind⟩ := hFirst.drawOn_edges hEdges
  obtain rfl := hAdded.unique hBehind
  rw [nodesFirst, List.map_append, List.map_singleton]
  exact drawOn_append.mpr ⟨_, drawOn_concat.mpr ⟨bare, hBare, .addNode hFirst⟩, hLast⟩

theorem draw_nodesFirst_connect (h : draw (nodesFirst positions edges) = .ok net)
    (hConnected : Connected net start stop spec p q id next) :
    draw (nodesFirst positions (edges ++ [⟨start, stop, spec⟩])) = .ok next := by
  rw [nodesFirst, List.map_append, List.map_singleton, ← List.append_assoc]
  exact drawOn_concat.mpr ⟨net, h, .connect hConnected⟩

/-! ## What was drawn -/

/-- What a connection was made of. -/
def Edge.ofConnection (c : Connection) : Edge := ⟨c.start, c.stop, ⟨c.trackType, c.heightType, c.plane⟩⟩

/-- The nodes and connections of a network are those of two lists, numbered as they are listed. -/
structure Lists (positions : List Position) (edges : List Edge) (net : Network) : Prop where
  nodes : net.nodes.toList.map (fun e => (e.1, e.2.position)) =
    positions.zipIdx.map fun e => (⟨e.2.toUInt32⟩, e.1)
  connections : net.connections.toList.map (fun e => (e.1, Edge.ofConnection e.2)) =
    edges.zipIdx.map fun e => (⟨e.2.toUInt32⟩, e.1)
  nodeSlots : net.nodes.slots.size = positions.length
  connectionSlots : net.connections.slots.size = edges.length

namespace Lists

theorem empty : Lists [] [] .empty := ⟨rfl, rfl, rfl, rfl⟩

theorem addNode (h : Lists positions edges net) (hAdded : Added net position n next) :
    Lists (positions ++ [position]) edges next where
  nodes := by
    have hId : n = ⟨positions.length.toUInt32⟩ := h.nodeSlots ▸ Table.id_eq_of_add? hAdded.add
    rw [Table.toList_add? hAdded.add, List.map_append, h.nodes, List.zipIdx_append, List.map_append,
      Nat.zero_add, hId]
    rfl
  connections := by
    rw [hAdded.connections]
    exact h.connections
  nodeSlots := by
    rw [Table.slots_size_add? hAdded.add, h.nodeSlots, List.length_append]
    rfl
  connectionSlots := by
    rw [hAdded.connections]
    exact h.connectionSlots

/-- Attaching tracks moves no node. -/
theorem positions_modify (nodes : Table .node Junction) (n : NodeId) (track : Attachment) :
    (nodes.modify n (·.attach track)).toList.map (fun e => (e.1, e.2.position)) =
      nodes.toList.map fun e => (e.1, e.2.position) := by
  have hSite : ∀ j : Junction, (j.attach track).site = j.site := fun j => rfl
  have hLists := congrArg (fun t => t.toList.map fun e => (e.1, e.2.position)) (Table.map_modify hSite nodes n)
  rw [Table.toList_map, Table.toList_map, List.map_map, List.map_map] at hLists
  exact hLists

theorem connect (h : Lists positions edges net) (hConnected : Connected net start stop spec p q id next) :
    Lists positions (edges ++ [⟨start, stop, spec⟩]) next where
  nodes := by
    rw [hConnected.nodes, positions_modify, positions_modify]
    exact h.nodes
  connections := by
    have hId : id = ⟨edges.length.toUInt32⟩ := h.connectionSlots ▸ Table.id_eq_of_add? hConnected.add
    rw [Table.toList_add? hConnected.add, List.map_append, h.connections, List.zipIdx_append, List.map_append,
      Nat.zero_add, hId]
    rfl
  nodeSlots := by
    rw [hConnected.nodes, Table.slots_size_modify, Table.slots_size_modify]
    exact h.nodeSlots
  connectionSlots := by
    rw [Table.slots_size_add? hConnected.add, h.connectionSlots, List.length_append]
    rfl

/-- Every number up to the last one is that of a node. -/
theorem exists_node (h : Lists positions edges net) {place : Nat} (hPlace : place < positions.length) :
    ∃ j, net.node? ⟨place.toUInt32⟩ = some j ∧ j.position = positions[place] := by
  have hListed : ((⟨place.toUInt32⟩ : NodeId), positions[place]) ∈
      net.nodes.toList.map fun e => (e.1, e.2.position) := by
    rw [h.nodes]
    refine List.mem_map.mpr ⟨(positions[place], place), ?_, rfl⟩
    rw [List.mk_mem_zipIdx_iff_getElem?, List.getElem?_eq_getElem hPlace]
  obtain ⟨⟨m, j⟩, hMem, hSame⟩ := List.mem_map.mp hListed
  obtain ⟨rfl, hPosition⟩ := Prod.mk.inj hSame
  exact ⟨j, Table.mem_toList.mp hMem, hPosition⟩

end Lists

end Network

end TrackLayout
