import TrackLayout.Proofs.Network.Building

/-!
# Steps of an import

What an import may do with one way node and with the two ends of one segment.
A failed step leaves the state as it was.
-/
set_option autoImplicit false

namespace TrackLayout.ImportState

open Network

variable {s : ImportState} {n : WayNode} {spec : TrackSpec} {start stop : Option NodeId}

/-- What becomes of a way node: its key is known, or it is off the land, or it is a node from now on. -/
inductive Visited (s : ImportState) (n : WayNode) : Except NetworkError (Option NodeId) × ImportState → Prop where
  | known {node : Option NodeId} (h : s.importer.known.lookup n.key = some node) : Visited s n (.ok node, s)
  | off (hNew : s.importer.known.lookup n.key = none) (hLand : s.importer.onLand n.position = false) :
      Visited s n (.ok none, s.remember n.key none)
  | added (hNew : s.importer.known.lookup n.key = none) (hLand : s.importer.onLand n.position = true)
      {id : NodeId} {network : Network} (h : Added s.network { point := n.position } id network) :
      Visited s n (.ok (some id),
        ({ s with network }.count fun r => { r with nodes := r.nodes + 1 }).remember n.key (some id))
  | exhausted (hNew : s.importer.known.lookup n.key = none) (hLand : s.importer.onLand n.position = true)
      (hSize : UInt32.size ≤ s.network.nodes.slots.size + 1) : Visited s n (.error .idsExhausted, s)

theorem visited_nodeOfKey (s : ImportState) (n : WayNode) : Visited s n (s.nodeOfKey n) := by
  rw [nodeOfKey]
  split
  · next node hKnown => exact .known hKnown
  · next hNew =>
    cases hLand : s.importer.onLand n.position with
    | false => exact .off hNew hLand
    | true =>
      rw [if_pos rfl]
      split
      · next e hAdd =>
        obtain ⟨rfl, hSize⟩ := addNode_eq_error hAdd
        exact .exhausted hNew hLand hSize
      · next id network hAdd => exact .added hNew hLand (addNode_eq_ok hAdd)

/-- What becomes of the two ends of a segment. -/
inductive Tied (s : ImportState) (spec : TrackSpec) : Option NodeId → Option NodeId → ImportStep → Prop where
  | off {start stop : Option NodeId} (h : start = none ∨ stop = none) : Tied s spec start stop (none, s.skip)
  | loop {a : NodeId} : Tied s spec (some a) (some a) (none, s.skip)
  | connected {a b : NodeId} {p q : Point} {id : ConnectionId} {network : Network}
      (h : Connected s.network a b spec p q id network) : Tied s spec (some a) (some b)
        (none, { s with network }.count fun r => { r with connections := r.connections + 1 })
  | gone {a b m : NodeId} (hNe : a ≠ b) (hEnd : m = a ∨ m = b) (hGone : s.network.node? m = none) :
      Tied s spec (some a) (some b) (some (.unknownNode m), s)
  | exhausted {a b : NodeId} (hNe : a ≠ b) (hSize : UInt32.size ≤ s.network.connections.slots.size + 1) :
      Tied s spec (some a) (some b) (some .idsExhausted, s)

theorem connect_of_absent_start {net : Network} {a b : NodeId} (hNe : a ≠ b) (ha : net.node? a = none) :
    net.connect a b spec = .error (.unknownNode a) := by
  rw [Network.connect, if_neg hNe, pointOf_of_absent ha]
  rfl

theorem connect_of_absent_stop {net : Network} {a b : NodeId} {j : Junction} (hNe : a ≠ b)
    (ha : net.node? a = some j) (hb : net.node? b = none) :
    net.connect a b spec = .error (.unknownNode b) := by
  rw [Network.connect, if_neg hNe, pointOf, ha, pointOf_of_absent hb]
  rfl

theorem tied_connectEnds (s : ImportState) (spec : TrackSpec) (start stop : Option NodeId) :
    Tied s spec start stop (s.connectEnds spec start stop) := by
  cases start with
  | none => exact .off (.inl rfl)
  | some a =>
    cases stop with
    | none => exact .off (.inr rfl)
    | some b =>
      rw [connectEnds]
      by_cases hNe : a = b
      · rw [if_pos hNe, hNe]
        exact .loop
      · rw [if_neg hNe]
        cases ha : s.network.node? a with
        | none =>
          rw [connect_of_absent_start hNe ha]
          exact .gone hNe (.inl rfl) ha
        | some i =>
          cases hb : s.network.node? b with
          | none =>
            rw [connect_of_absent_stop hNe ha hb]
            exact .gone hNe (.inr rfl) hb
          | some j =>
            split
            · next e hConnect =>
              have hPresent : (s.network.node? a).isSome = true ∧ (s.network.node? b).isSome = true := by
                rw [ha, hb]
                exact ⟨rfl, rfl⟩
              obtain ⟨rfl, hSize⟩ := connect_eq_error hNe hPresent.1 hPresent.2 hConnect
              exact .exhausted hNe hSize
            · next id network hConnect =>
              obtain ⟨p, q, hConnected⟩ := connect_eq_ok hConnect
              exact .connected hConnected

end TrackLayout.ImportState
