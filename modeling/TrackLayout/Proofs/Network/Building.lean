import TrackLayout.Proofs.Network.SelectedCleanup

/-!
# Building one height plane

A network is built by calls that add nodes and connections. The calls for one
height plane are those for its nodes and its connections, in the same order and
with the nodes numbered anew. They build the part of the network that the plane
selects, as long as no node has connections both on the plane and off it. A
call that is refused adds nothing, in the part as in the whole.
-/
set_option autoImplicit false

namespace TrackLayout.Network

inductive Call where
  | addNode (position : Position)
  | connect (start stop : NodeId) (spec : TrackSpec)

/-- A refused call leaves the network as it was. Building stops only if the ids run out. -/
def perform (net : Network) : Call → Except NetworkError Network
  | .addNode position => (net.addNode position).map (·.2)
  | .connect start stop spec =>
    match net.connect start stop spec with
    | .ok (_, next) => .ok next
    | .error .idsExhausted => .error .idsExhausted
    | .error _ => .ok net

def build (calls : List Call) : Except NetworkError Network := calls.foldlM perform empty

/-- The calls for the nodes that are kept and the connections on a plane, with those nodes numbered from
zero. The first call for a node numbers it `place` if all are kept. -/
def restrictFrom (plane : Option HeightPlane) (keep : NodeId → Bool) (place : Nat) : List Call → List Call
  | [] => []
  | .addNode position :: rest =>
    if keep ⟨place.toUInt32⟩ then .addNode position :: restrictFrom plane keep (place + 1) rest
    else restrictFrom plane keep (place + 1) rest
  | .connect start stop spec :: rest =>
    if spec.plane = plane then
      .connect (start.renumber keep) (stop.renumber keep) spec :: restrictFrom plane keep place rest
    else restrictFrom plane keep place rest

def restrict (plane : Option HeightPlane) (keep : NodeId → Bool) (calls : List Call) : List Call :=
  restrictFrom plane keep 0 calls

/-- The nodes that are kept are those of the connections on a plane, and some without connections. -/
def Divides (net : Network) (plane : Option HeightPlane) (keep : NodeId → Bool) : Prop :=
  ∀ ⦃id c⦄, net.connection? id = some c → ∀ ⦃n⦄, c.touches n = true → (keep n = true ↔ c.plane = plane)

variable {S : Selection} {net next part final : Network} {n start stop : NodeId} {spec : TrackSpec}
  {call : Call} {calls : List Call}

/-! ## Single calls -/

/-- What a call that does not stop the building may do. -/
inductive Performed (net : Network) : Call → Network → Prop where
  | addNode {position : Position} {id : NodeId} {next : Network}
      (h : net.addNode position = .ok (id, next)) : Performed net (.addNode position) next
  | connect {start stop : NodeId} {spec : TrackSpec} {id : ConnectionId} {next : Network}
      (h : net.connect start stop spec = .ok (id, next)) : Performed net (.connect start stop spec) next
  | refused {start stop : NodeId} {spec : TrackSpec}
      (h : start = stop ∨ net.node? start = none ∨ net.node? stop = none) :
      Performed net (.connect start stop spec) net

theorem Connected.connect {p q : Point} {id : ConnectionId} (h : Connected net start stop spec p q id next) :
    net.connect start stop spec = .ok (id, next) := by
  have hPoint {n : NodeId} {p : Point} (hn : (net.node? n).map Junction.point = some p) :
      net.pointOf n = .ok p := by
    obtain ⟨j, hj, rfl⟩ := Option.map_eq_some_iff.mp hn
    rw [pointOf, hj]
  have hAdd := h.add
  unfold TrackSpec.connection at hAdd
  obtain ⟨nodes, connections, index⟩ := next
  obtain ⟨rfl, rfl⟩ : _ ∧ _ := ⟨h.nodes, h.index⟩
  rw [Network.connect, if_neg h.ends_ne, hPoint h.startPoint, hPoint h.stopPoint]
  dsimp only [bind, Except.bind, pure, Except.pure]
  rw [hAdd]
  rfl

theorem pointOf_of_absent (hn : net.node? n = none) : net.pointOf n = .error (.unknownNode n) := by
  rw [pointOf, hn]

/-- A call is refused for its two nodes, or because the ids have run out. -/
theorem connect_of_refused (h : start = stop ∨ net.node? start = none ∨ net.node? stop = none) :
    ∃ e, net.connect start stop spec = .error e ∧ e ≠ .idsExhausted := by
  rw [connect]
  by_cases hLoop : start = stop
  · rw [if_pos hLoop]
    exact ⟨.selfLoop start, rfl, by rintro ⟨⟩⟩
  · rw [if_neg hLoop]
    cases hStart : net.node? start with
    | none =>
      rw [pointOf_of_absent hStart]
      exact ⟨.unknownNode start, rfl, by rintro ⟨⟩⟩
    | some i =>
      have hStop : net.node? stop = none := by simpa [hLoop, hStart] using h
      rw [pointOf, hStart, pointOf_of_absent hStop]
      exact ⟨.unknownNode stop, rfl, by rintro ⟨⟩⟩

theorem refused_of_connect {e : NetworkError} (h : net.connect start stop spec = .error e)
    (hIds : e ≠ .idsExhausted) : start = stop ∨ net.node? start = none ∨ net.node? stop = none := by
  by_contra hFine
  rw [not_or, not_or] at hFine
  obtain ⟨hLoop, hStart, hStop⟩ := hFine
  exact hIds (connect_eq_error hLoop (Option.isSome_iff_ne_none.mpr hStart) (Option.isSome_iff_ne_none.mpr hStop) h).1

theorem performed_iff : net.perform call = .ok next ↔ Performed net call next := by
  constructor
  · intro h
    cases call with
    | addNode position =>
      rw [perform] at h
      cases hAdd : net.addNode position with
      | error e =>
        rw [hAdd] at h
        cases h
      | ok added =>
        rw [hAdd] at h
        cases h
        exact .addNode hAdd
    | connect start stop spec =>
      rw [perform] at h
      split at h
      · next hConnect =>
        cases h
        exact .connect hConnect
      · cases h
      · next hConnect =>
        cases h
        exact .refused (refused_of_connect hConnect ‹_›)
  · intro h
    cases h with
    | addNode h => rw [perform, h, Except.map]
    | connect h => rw [perform, h]
    | refused h =>
      obtain ⟨e, he, hIds⟩ := connect_of_refused h
      rw [perform, he]
      split
      · next hSome => cases hSome
      · next hSome => exact absurd (Except.error.inj hSome) hIds
      · rfl

theorem foldlM_perform_cons : (call :: calls).foldlM perform net = .ok final ↔
    ∃ next, Performed net call next ∧ calls.foldlM perform next = .ok final := by
  rw [List.foldlM_cons]
  constructor
  · intro h
    cases hStep : net.perform call with
    | error e =>
      rw [hStep] at h
      cases h
    | ok next =>
      rw [hStep] at h
      exact ⟨next, performed_iff.mp hStep, h⟩
  · rintro ⟨next, hStep, hRest⟩
    rw [performed_iff.mpr hStep]
    exact hRest

/-! ## Along the calls -/

theorem foldlM_perform_keeps {P : Network → Prop}
    (hKeeps : ∀ {net call next}, Performed net call next → P net → P next) (hNet : P net)
    (h : calls.foldlM perform net = .ok final) : P final := by
  induction calls generalizing net with
  | nil =>
    cases h
    exact hNet
  | cons call rest ih =>
    obtain ⟨next, hStep, hRest⟩ := foldlM_perform_cons.mp h
    exact ih (hKeeps hStep hNet) hRest

/-- No node was removed yet. -/
def Complete (net : Network) : Prop := ∀ n, net.nodes.HasIssued n → ∃ j, net.node? n = some j

theorem Performed.wellFormed (h : Performed net call next) (hNet : net.WellFormed) : next.WellFormed := by
  cases h with
  | addNode h => exact (addNode_eq_ok h).wellFormed hNet
  | connect h =>
    obtain ⟨p, q, hConnected⟩ := connect_eq_ok h
    exact hConnected.wellFormed hNet
  | refused => exact hNet

theorem wellFormed_build (h : build calls = .ok net) : net.WellFormed :=
  foldlM_perform_keeps Performed.wellFormed empty_wellFormed h

theorem Performed.complete (h : Performed net call next) (hNet : net.Complete) : next.Complete := by
  intro n hn
  cases h with
  | addNode h =>
    have hAdded := addNode_eq_ok h
    rw [hAdded.node?]
    split
    · exact ⟨_, rfl⟩
    · next hOther =>
      have hId := Table.id_add? hAdded.add
      have hNe : n.val.toNat ≠ _ := fun hSame =>
        hOther (by rw [← toUInt32_toNat n, hSame, toUInt32_toNat])
      refine hNet n ?_
      rw [Table.hasIssued_iff, Table.slots_size_add? hAdded.add] at hn
      rw [Table.hasIssued_iff]
      omega
  | connect h =>
    obtain ⟨p, q, hConnected⟩ := connect_eq_ok h
    have hOld : net.nodes.HasIssued n := by
      rw [Table.hasIssued_iff] at hn ⊢
      simpa [hConnected.nodes] using hn
    obtain ⟨j, hj⟩ := hNet n hOld
    rw [hConnected.node?, hj]
    exact ⟨_, rfl⟩
  | refused _ => exact hNet n hn

/-- Nodes and connections stay as building goes on. -/
structure Grows (net next : Network) : Prop where
  slots : net.nodes.slots.size ≤ next.nodes.slots.size
  connection? : ∀ {id c}, net.connection? id = some c → next.connection? id = some c

namespace Grows

theorem refl (net : Network) : Grows net net := ⟨Nat.le_refl _, id⟩

theorem trans (h : Grows net next) (hNext : Grows next final) : Grows net final :=
  ⟨Nat.le_trans h.slots hNext.slots, fun hc => hNext.connection? (h.connection? hc)⟩

theorem hasIssued (h : Grows net next) (hn : net.nodes.HasIssued n) : next.nodes.HasIssued n := by
  have hLe := h.slots
  rw [Table.hasIssued_iff] at hn ⊢
  omega

end Grows

theorem Performed.grows (h : Performed net call next) : Grows net next := by
  cases h with
  | addNode h =>
    have hAdded := addNode_eq_ok h
    refine ⟨?_, fun hc => (hAdded.connection? _).trans hc⟩
    rw [Table.slots_size_add? hAdded.add]
    omega
  | connect h =>
    obtain ⟨p, q, hConnected⟩ := connect_eq_ok h
    refine ⟨by simp [hConnected.nodes], fun {id c} hc => ?_⟩
    rw [hConnected.connection?, if_neg, hc]
    rintro rfl
    rw [hConnected.fresh] at hc
    cases hc
  | refused _ => exact .refl net

theorem foldlM_perform_grows (h : calls.foldlM perform net = .ok final) : Grows net final :=
  foldlM_perform_keeps (fun hStep hSoFar => hSoFar.trans hStep.grows) (.refl net) h

/-- What becomes of a call does not depend on the calls that follow. -/
theorem Performed.restrictFrom_cons (h : Performed net call next) (plane : Option HeightPlane)
    (keep : NodeId → Bool) (rest : List Call) : restrictFrom plane keep net.nodes.slots.size (call :: rest) =
      restrictFrom plane keep net.nodes.slots.size [call] ++
        restrictFrom plane keep next.nodes.slots.size rest := by
  cases h with
  | addNode h =>
    rw [restrictFrom, restrictFrom, Table.slots_size_add? (addNode_eq_ok h).add]
    split <;> rfl
  | connect h =>
    obtain ⟨p, q, hConnected⟩ := connect_eq_ok h
    have hSlots : next.nodes.slots.size = net.nodes.slots.size := by simp [hConnected.nodes]
    rw [restrictFrom, restrictFrom, hSlots]
    split <;> rfl
  | refused _ =>
    rw [restrictFrom, restrictFrom]
    split <;> rfl

namespace Selects

/-! ## New connections -/

section Connections

variable (h : net.Selects S part) {mid mid' : Network} {p q : Point} {id : ConnectionId}
include h

theorem connected (hConnected : Connected net start stop spec p q id mid)
    (hPlane : S.connection id = true ↔ spec.plane = S.plane) (hStart : S.node start = S.connection id)
    (hStop : S.node stop = S.connection id) (hNodes : mid.nodes.Selects S.node S.junction mid'.nodes)
    (hConnections : mid.connections.Selects S.connection S.track mid'.connections)
    (hOwn : mid'.WellFormed) : mid.Selects S mid' where
  nodes := hNodes
  connections := hConnections
  whole := hConnected.wellFormed h.whole
  own := hOwn
  plane {other c} hc := by
    obtain ⟨rfl, rfl⟩ | hOld := hConnected.connection_cases hc
    · exact hPlane
    · exact h.plane hOld
  start {other c} hc := by
    obtain ⟨rfl, rfl⟩ | hOld := hConnected.connection_cases hc
    · exact hStart
    · exact h.start hOld
  stop {other c} hc := by
    obtain ⟨rfl, rfl⟩ | hOld := hConnected.connection_cases hc
    · exact hStop
    · exact h.stop hOld
  links {m i} hi := by
    rw [hConnected.node?] at hi
    obtain ⟨j, hj, rfl⟩ := Option.map_eq_some_iff.mp hi
    have hLinks := h.links hj
    exact hLinks
  read {m i} hi := by
    rw [hConnected.node?] at hi
    obtain ⟨j, hj, rfl⟩ := Option.map_eq_some_iff.mp hi
    have hRead := h.read hj
    exact hRead

theorem connect (hConnected : Connected net start stop spec p q id mid) (hPlane : spec.plane = S.plane)
    (hStart : S.node start = true) (hStop : S.node stop = true) (hId : S.connection id = true) :
    ∃ mid', part.connect (S.nodeId start) (S.nodeId stop) spec = .ok (S.connectionId id, mid') ∧
      mid.Selects S mid' := by
  obtain ⟨connections, hAdd, hConnections⟩ := h.connections.add?
    (spec.connection (S.nodeId start) (S.nodeId stop) p q) hConnected.add hId rfl
  have hPoint {n : NodeId} {p : Point} (hn : S.node n = true) (hp : (net.node? n).map Junction.point = some p) :
      (part.node? (S.nodeId n)).map Junction.point = some p := by
    rw [h.node? hn, Option.map_map]
    exact hp
  have hConnected' : Connected part (S.nodeId start) (S.nodeId stop) spec p q (S.connectionId id)
      { nodes := (part.nodes.modify (S.nodeId start) (·.attach ⟨S.connectionId id, Angle.toPoint p q⟩)).modify
          (S.nodeId stop) (·.attach ⟨S.connectionId id, Angle.toPoint q p⟩)
        connections
        index := part.index.insert (.spanning p q) (S.connectionId id) } := {
    ends_ne := fun hSame => hConnected.ends_ne ((renumber_inj hStart hStop).mp hSame)
    startPoint := hPoint hStart hConnected.startPoint
    stopPoint := hPoint hStop hConnected.stopPoint
    add := hAdd
    nodes := rfl
    index := rfl }
  have hAttach {nodes nodes' : Table .node Junction} (hNodes : nodes.Selects S.node S.junction nodes')
      {n : NodeId} (hn : S.node n = true) (direction : Float) :
      (nodes.modify n (·.attach ⟨id, direction⟩)).Selects S.node S.junction
        (nodes'.modify (S.nodeId n) (·.attach ⟨S.connectionId id, direction⟩)) :=
    hNodes.modify hn fun j _ => Selection.junction_attach j ⟨id, direction⟩
  have hNodes := hAttach (hAttach h.nodes hStart (Angle.toPoint p q)) hStop (Angle.toPoint q p)
  rw [← hConnected.nodes] at hNodes
  refine ⟨_, hConnected'.connect, h.connected hConnected ?_ ?_ ?_ hNodes hConnections
    (hConnected'.wellFormed h.own)⟩
  · rw [hId]
    exact ⟨fun _ => hPlane, fun _ => rfl⟩
  · rw [hStart, hId]
  · rw [hStop, hId]

theorem connect_dropped (hConnected : Connected net start stop spec p q id mid)
    (hPlane : spec.plane ≠ S.plane) (hStart : S.node start = false) (hStop : S.node stop = false)
    (hId : S.connection id = false) : mid.Selects S part := by
  have hNodes := (h.nodes.modify_dropped hStart (·.attach ⟨id, Angle.toPoint p q⟩)).modify_dropped hStop
    (·.attach ⟨id, Angle.toPoint q p⟩)
  rw [← hConnected.nodes] at hNodes
  refine h.connected hConnected ?_ ?_ ?_ hNodes (h.connections.add?_dropped hConnected.add hId) h.own
  · rw [hId]
    exact ⟨nofun, fun hSame => absurd hSame hPlane⟩
  · rw [hStart, hId]
  · rw [hStop, hId]

end Connections

/-! ## All calls -/

/-- The selection goes with what is kept of a network. Ids that were not handed out yet may be selected. -/
structure Keeps (S : Selection) (keep : NodeId → Bool) (final : Network) : Prop where
  node : ∀ n, final.nodes.HasIssued n → S.node n = keep n
  connection : ∀ {id c}, final.connection? id = some c → (S.connection id = true ↔ c.plane = S.plane)
  divides : final.Divides S.plane keep

section Calls

variable {keep : NodeId → Bool} (hKeeps : Keeps S keep final)
include hKeeps

theorem rank_eq {place : Nat} (hPlace : place ≤ final.nodes.slots.size) : rank keep place = rank S.node place := by
  have hSize := final.nodes.slots_lt
  refine rank_congr (by omega) fun n hn => (hKeeps.node n ?_).symm
  rw [Table.hasIssued_iff]
  omega

theorem renumber_eq (hn : final.nodes.HasIssued n) : n.renumber keep = S.nodeId n := by
  rw [Table.hasIssued_iff] at hn
  rw [Id.renumber, rank_eq hKeeps (by omega), Selection.nodeId, Id.renumber]

/-- A node that is not there has no number in the part either. -/
theorem node?_of_absent (h : net.Selects S part) (hComplete : net.Complete) (hGrows : Grows net final)
    (hn : net.node? n = none) : part.node? (n.renumber keep) = none := by
  have hNew : ¬net.nodes.HasIssued n := fun hIssued => by
    obtain ⟨j, hj⟩ := hComplete n hIssued
    rw [hj] at hn
    cases hn
  refine Table.get?_eq_none ?_
  rw [Table.hasIssued_iff] at hNew
  have hMono : rank keep net.nodes.slots.size ≤ rank keep n.val.toNat := rank_mono keep (by omega)
  rw [Table.hasIssued_iff, toNat_renumber, h.nodes.size, ← rank_eq hKeeps hGrows.slots]
  omega

theorem restrict_addNode {position : Position} (h : net.Selects S part)
    (hAddNode : net.addNode position = .ok (n, next)) (hLater : Grows next final) : ∃ mid,
      (restrictFrom S.plane keep net.nodes.slots.size [.addNode position]).foldlM perform part = .ok mid ∧
        next.Selects S mid := by
  have hAdd := (addNode_eq_ok hAddNode).add
  have hVal := Table.id_add? hAdd
  have hSlots := Table.slots_size_add? hAdd
  have hLe := hLater.slots
  have hId : (⟨net.nodes.slots.size.toUInt32⟩ : NodeId) = n := by rw [← hVal, toUInt32_toNat]
  have hIssued : final.nodes.HasIssued n := by
    rw [Table.hasIssued_iff]
    omega
  rw [restrictFrom, hId, ← hKeeps.node n hIssued]
  cases hn : S.node n with
  | false => exact ⟨part, rfl, h.addNode_dropped hAddNode hn⟩
  | true =>
    obtain ⟨mid, hMid, hSelects⟩ := h.addNode hAddNode hn
    exact ⟨mid, foldlM_perform_cons.mpr ⟨mid, .addNode hMid, rfl⟩, hSelects⟩

theorem restrict_connect (h : net.Selects S part) {p q : Point} {id : ConnectionId}
    (hConnected : Connected net start stop spec p q id next) (hGrows : Grows net final)
    (hLater : Grows next final) : ∃ mid,
      (restrictFrom S.plane keep net.nodes.slots.size [.connect start stop spec]).foldlM perform part = .ok mid ∧
        next.Selects S mid := by
  have hPresent : final.connection? id = some (spec.connection start stop p q id) :=
    hLater.connection? (by rw [hConnected.connection?, if_pos rfl])
  have hPlane : S.connection id = true ↔ spec.plane = S.plane := hKeeps.connection hPresent
  have hEnd {n : NodeId} {p : Point} (hEnds : n = start ∨ n = stop)
      (hn : (net.node? n).map Junction.point = some p) :
      n.renumber keep = S.nodeId n ∧ (S.node n = true ↔ spec.plane = S.plane) := by
    obtain ⟨j, hj, -⟩ := Option.map_eq_some_iff.mp hn
    have hIssued := hGrows.hasIssued (Table.hasIssued_of_get? hj)
    refine ⟨renumber_eq hKeeps hIssued, ?_⟩
    rw [hKeeps.node n hIssued]
    exact hKeeps.divides hPresent (by rw [TrackSpec.touches_connection]; simpa using hEnds)
  obtain ⟨hStartId, hStart⟩ := hEnd (.inl rfl) hConnected.startPoint
  obtain ⟨hStopId, hStop⟩ := hEnd (.inr rfl) hConnected.stopPoint
  rw [restrictFrom, hStartId, hStopId]
  split
  · next hSame =>
    obtain ⟨mid, hMid, hSelects⟩ := h.connect hConnected hSame (hStart.mpr hSame) (hStop.mpr hSame)
      (hPlane.mpr hSame)
    exact ⟨mid, foldlM_perform_cons.mpr ⟨mid, .connect hMid, rfl⟩, hSelects⟩
  · next hOther =>
    refine ⟨part, rfl, h.connect_dropped hConnected hOther ?_ ?_ ?_⟩
    · exact Bool.eq_false_iff.mpr fun hn => hOther (hStart.mp hn)
    · exact Bool.eq_false_iff.mpr fun hn => hOther (hStop.mp hn)
    · exact Bool.eq_false_iff.mpr fun hn => hOther (hPlane.mp hn)

/-- A call that was refused is refused by the part as well, if it is made there. -/
theorem restrict_refused (h : net.Selects S part) (hComplete : net.Complete) (hGrows : Grows net final)
    (hRefused : start = stop ∨ net.node? start = none ∨ net.node? stop = none) :
    (restrictFrom S.plane keep net.nodes.slots.size [.connect start stop spec]).foldlM perform part = .ok part := by
  rw [restrictFrom]
  split
  · refine foldlM_perform_cons.mpr ⟨part, .refused ?_, rfl⟩
    rcases hRefused with hLoop | hStart | hStop
    · exact .inl (congrArg (Id.renumber keep) hLoop)
    · exact .inr (.inl (node?_of_absent hKeeps h hComplete hGrows hStart))
    · exact .inr (.inr (node?_of_absent hKeeps h hComplete hGrows hStop))
  · rfl

/-- A call on the whole is one call on the part or none. -/
theorem restrictFrom_single (h : net.Selects S part) (hComplete : net.Complete) (hStep : Performed net call next)
    (hLater : Grows next final) : ∃ mid,
      (restrictFrom S.plane keep net.nodes.slots.size [call]).foldlM perform part = .ok mid ∧
        next.Selects S mid := by
  have hGrows := hStep.grows.trans hLater
  cases hStep with
  | addNode hAddNode => exact restrict_addNode hKeeps h hAddNode hLater
  | connect hConnect =>
    obtain ⟨p, q, hConnected⟩ := connect_eq_ok hConnect
    exact restrict_connect hKeeps h hConnected hGrows hLater
  | refused hRefused => exact ⟨part, restrict_refused hKeeps h hComplete hGrows hRefused, h⟩

theorem foldlM_restrictFrom (h : net.Selects S part) (hComplete : net.Complete)
    (hFinal : calls.foldlM perform net = .ok final) : ∃ last,
      (restrictFrom S.plane keep net.nodes.slots.size calls).foldlM perform part = .ok last ∧
        final.Selects S last := by
  induction calls generalizing net part with
  | nil =>
    cases hFinal
    exact ⟨part, rfl, h⟩
  | cons call rest ih =>
    obtain ⟨next, hStep, hRest⟩ := foldlM_perform_cons.mp hFinal
    obtain ⟨mid, hMid, hNext⟩ := restrictFrom_single hKeeps h hComplete hStep (foldlM_perform_grows hRest)
    obtain ⟨last, hLast, hSelects⟩ := ih hNext (hStep.complete hComplete) hRest
    refine ⟨last, ?_, hSelects⟩
    rw [hStep.restrictFrom_cons, List.foldlM_append, hMid]
    exact hLast

end Calls

theorem empty : Network.empty.Selects S Network.empty where
  nodes := .empty
  connections := .empty
  whole := empty_wellFormed
  own := empty_wellFormed
  plane hc := by simp [connection?_empty] at hc
  start hc := by simp [connection?_empty] at hc
  stop hc := by simp [connection?_empty] at hc
  links hj := by simp [node?_empty] at hj
  read hj := by simp [node?_empty] at hj

/-- The calls for a plane build what the plane selects of the whole. -/
theorem build {keep : NodeId → Bool} (hFinal : Network.build calls = .ok final) (hKeeps : Keeps S keep final) :
    ∃ last, Network.build (restrict S.plane keep calls) = .ok last ∧ final.Selects S last :=
  foldlM_restrictFrom hKeeps .empty (fun _ hn => absurd (Table.hasIssued_iff.mp hn) (Nat.not_lt_zero _)) hFinal

end Selects

end TrackLayout.Network
