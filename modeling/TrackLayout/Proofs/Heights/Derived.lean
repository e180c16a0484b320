import TrackLayout.Heights.Derivation
import TrackLayout.Proofs.Junction.Sides
import TrackLayout.Proofs.Network.Growth

/-!
# Where derived rules come from

A node gets rules from four sources: the ground, pairs of its own connections,
each of them alone, and connections of others that pass close by. Whatever is
said about derived rules is said about these four.
-/
set_option autoImplicit false

namespace TrackLayout

def ConnectionEnd.other : ConnectionEnd → ConnectionEnd
  | .start => .stop
  | .stop => .start

namespace Connection

/-- The node on an end. -/
def node (c : Connection) : ConnectionEnd → NodeId
  | .start => c.start
  | .stop => c.stop

variable {c : Connection} {n : NodeId} {here : ConnectionEnd}

theorem touches_iff : c.touches n = true ↔ ∃ here, c.node here = n := by
  rw [touches, Bool.or_eq_true, beq_iff_eq, beq_iff_eq]
  constructor
  · rintro (h | h)
    · exact ⟨.start, h⟩
    · exact ⟨.stop, h⟩
  · rintro ⟨_ | _, h⟩
    · exact .inl h
    · exact .inr h

theorem touches_node (c : Connection) (here : ConnectionEnd) : c.touches (c.node here) = true :=
  touches_iff.mpr ⟨here, rfl⟩

theorem node_of_endOf? (h : c.endOf? n = some here) : c.node here = n := by
  rw [endOf?] at h
  split at h
  · next hStart =>
    cases h
    exact hStart
  · split at h
    · next hStop =>
      cases h
      exact hStop
    · cases h

theorem endOf?_node (hNe : c.start ≠ c.stop) (here : ConnectionEnd) : c.endOf? (c.node here) = some here := by
  cases here with
  | start => exact if_pos rfl
  | stop => exact (if_neg hNe).trans (if_pos rfl)

theorem farEnd?_eq (c : Connection) (n : NodeId) : c.farEnd? n = (c.endOf? n).map fun here => c.node here.other := by
  rw [farEnd?]
  congr 1
  funext here
  cases here <;> rfl

end Connection

namespace Network

variable {net : Network} {n : NodeId} {j : Junction} {c : Connection} {here : ConnectionEnd}

/-- One of the connections of a junction has this end there. -/
def Leaves (net : Network) (j : Junction) (c : Connection) (here : ConnectionEnd) : Prop :=
  c ∈ net.connectionsOf j ∧ c.endOf? j.id = some here

/-! ## Ends in well-formed networks -/

namespace WellFormed

variable (hNet : net.WellFormed) {id : ConnectionId}
include hNet

theorem exists_node (hc : net.connection? id = some c) (here : ConnectionEnd) :
    ∃ i, net.node? (c.node here) = some i := by
  cases here with
  | start =>
    obtain ⟨i, hi, -⟩ := Option.map_eq_some_iff.mp (hNet.start hc)
    exact ⟨i, hi⟩
  | stop =>
    obtain ⟨i, hi, -⟩ := Option.map_eq_some_iff.mp (hNet.stop hc)
    exact ⟨i, hi⟩

theorem node_other_ne (hc : net.connection? id = some c) (here : ConnectionEnd) :
    c.node here.other ≠ c.node here := by
  cases here with
  | start => exact (hNet.ends_ne hc).symm
  | stop => exact hNet.ends_ne hc

theorem leaves_iff (hj : net.node? n = some j) :
    net.Leaves j c here ↔ ∃ id, net.connection? id = some c ∧ c.node here = n := by
  rw [Leaves, hNet.node_id hj]
  constructor
  · rintro ⟨hMem, hHere⟩
    obtain ⟨id, -, hc⟩ := List.mem_filterMap.mp hMem
    exact ⟨id, hc, Connection.node_of_endOf? hHere⟩
  · rintro ⟨id, hc, rfl⟩
    have hAttached : id ∈ j.connections := by
      rw [hNet.mem_connections hj, hc, Option.any_some]
      exact c.touches_node here
    exact ⟨List.mem_filterMap.mpr ⟨id, hAttached, hc⟩, Connection.endOf?_node (hNet.ends_ne hc) here⟩

/-- The sides of a node hold only its own connections. -/
theorem mem_sides (hj : net.node? n = some j) (hId : id ∈ j.sides.forward ∨ id ∈ j.sides.backward) :
    id ∈ j.connections := by
  rw [hNet.sides hj, ← List.mem_append] at hId
  exact (Sides.ofTracks_perm j.tracks).mem_iff.mp hId

end WellFormed

/-! ## Sources -/

/-- The far ends and the lengths of tracks on one side of a node. -/
def sideEnds (net : Network) (n : NodeId) (ids : List ConnectionId) : List (NodeId × Float) :=
  ids.filterMap fun id => do
    let c ← net.connection? id
    return (← c.farEnd? n, c.length)

theorem smoothingRules_eq (s : RuleSettings) (net : Network) (j : Junction) : smoothingRules s net j =
    (net.sideEnds j.id j.sides.forward).flatMap fun (ahead, front) =>
      (net.sideEnds j.id j.sides.backward).map fun (behind, rear) =>
        .betweenNodes ahead behind (front / (front + rear)) s.smoothInclineWeight := rfl

theorem leaves_of_mem_sideEnds {ids : List ConnectionId} (hIds : ∀ id ∈ ids, id ∈ j.connections)
    {e : NodeId × Float} (he : e ∈ net.sideEnds j.id ids) :
    ∃ c here, net.Leaves j c here ∧ e = (c.node here.other, c.length) := by
  obtain ⟨id, hId, hSome⟩ := List.mem_filterMap.mp he
  obtain ⟨c, hc, hFar⟩ := Option.bind_eq_some_iff.mp hSome
  obtain ⟨far, hEnd, hSame⟩ := Option.bind_eq_some_iff.mp hFar
  rw [Connection.farEnd?_eq] at hEnd
  obtain ⟨here, hHere, rfl⟩ := Option.map_eq_some_iff.mp hEnd
  exact ⟨c, here, ⟨List.mem_filterMap.mpr ⟨id, hIds id hId, hc⟩, hHere⟩, (Option.some.inj hSame).symm⟩

/-- The rules that a junction can get if it starts at a height. -/
inductive Derived (s : RuleSettings) (net : Network) (j : Junction) (start : Float) : Rule → Prop
  | ground {k : Nat} (hCount : k ≤ (net.connectionsOf j).length) :
      Derived s net j start (.fixedHeight start (s.baseTolerance + s.embankmentTolerance * k.toFloat)
        s.fixedHeightWeight)
  | smoothing {c d : Connection} {here there : ConnectionEnd} (hAhead : net.Leaves j c here)
      (hBehind : net.Leaves j d there) :
      Derived s net j start (.betweenNodes (c.node here.other) (d.node there.other)
        (c.length / (c.length + d.length)) s.smoothInclineWeight)
  | incline {c : Connection} {here : ConnectionEnd} (hLeaves : net.Leaves j c here) :
      Derived s net j start (Connection.inclineRule c.trackType.inclines here (c.node here.other) c.length
        s.inclineWeight)
  | neighbour {id : ConnectionId} {c : Connection} (hc : net.connection? id = some c)
      (hApart : c.touches j.id = false) (hPlane : (net.connectionsOf j).any (·.plane == c.plane) = true)
      (hBeside : isBeside j.point s.neighbourMaxSideward s.neighbourMaxForward c = true) :
      Derived s net j start (.betweenNodes c.start c.stop
        ((PlanarSegment.offset c.segment j.point).forward / c.length)
        ((1.0 - ((PlanarSegment.offset c.segment j.point).sideward / s.neighbourMaxSideward).abs) *
          s.neighbourWeight))

section Rules

variable {s : RuleSettings} {start : Float} {r : Rule}

theorem mem_inclineRules : r ∈ inclineRules s j (net.connectionsOf j) ↔ ∃ c here, net.Leaves j c here ∧
    r = Connection.inclineRule c.trackType.inclines here (c.node here.other) c.length s.inclineWeight := by
  constructor
  · intro hr
    obtain ⟨c, hc, hRule⟩ := List.mem_filterMap.mp hr
    obtain ⟨here, hHere, hFar⟩ := Option.bind_eq_some_iff.mp hRule
    obtain ⟨far, hEnd, hSame⟩ := Option.bind_eq_some_iff.mp hFar
    rw [Connection.farEnd?_eq, hHere] at hEnd
    cases hEnd
    exact ⟨c, here, ⟨hc, hHere⟩, (Option.some.inj hSame).symm⟩
  · rintro ⟨c, here, ⟨hc, hHere⟩, rfl⟩
    refine List.mem_filterMap.mpr ⟨c, hc, ?_⟩
    rw [Connection.farEnd?_eq, hHere]
    rfl

theorem exists_of_mem_neighbourRules (hr : r ∈ neighbourRules s net j (net.connectionsOf j)) :
    ∃ id c, net.connection? id = some c ∧ c.touches j.id = false ∧
      (net.connectionsOf j).any (·.plane == c.plane) = true ∧
        isBeside j.point s.neighbourMaxSideward s.neighbourMaxForward c = true ∧
          r = .betweenNodes c.start c.stop ((PlanarSegment.offset c.segment j.point).forward / c.length)
            ((1.0 - ((PlanarSegment.offset c.segment j.point).sideward / s.neighbourMaxSideward).abs) *
              s.neighbourWeight) := by
  obtain ⟨id, hId, hRule⟩ := List.mem_filterMap.mp hr
  obtain ⟨c, hc, hSome⟩ := Option.bind_eq_some_iff.mp hRule
  obtain ⟨-, hBeside⟩ := List.mem_filter.mp hId
  rw [hc, Option.any_some, Bool.and_eq_true] at hBeside
  split at hSome
  · cases hSome
  · next hNear =>
    rw [Bool.or_eq_true, not_or, Bool.not_eq_true', Bool.not_eq_false, Bool.not_eq_true] at hNear
    exact ⟨id, c, hc, hNear.1, hNear.2, hBeside.2, (Option.some.inj hSome).symm⟩

/-- Every rule of a node has one of the four sources. -/
theorem WellFormed.derived (hNet : net.WellFormed) (hj : net.node? n = some j) {ground : Float}
    (hr : r ∈ (net.derive s j ground).2) : Derived s net j (net.derive s j ground).1 r := by
  simp only [derive, List.mem_append] at hr
  rcases hr with ((hGround | hSmoothing) | hIncline) | hNeighbour
  · rw [groundRules] at hGround
    split at hGround
    · rw [List.mem_singleton.mp hGround]
      exact .ground List.countP_le_length
    · cases hGround
  · rw [smoothingRules_eq] at hSmoothing
    obtain ⟨e, he, hPairs⟩ := List.mem_flatMap.mp hSmoothing
    obtain ⟨f, hf, rfl⟩ := List.mem_map.mp hPairs
    obtain ⟨c, here, hAhead, rfl⟩ := leaves_of_mem_sideEnds (fun id hId => hNet.mem_sides hj (.inl hId)) he
    obtain ⟨d, there, hBehind, rfl⟩ := leaves_of_mem_sideEnds (fun id hId => hNet.mem_sides hj (.inr hId)) hf
    exact .smoothing hAhead hBehind
  · obtain ⟨c, here, hLeaves, rfl⟩ := mem_inclineRules.mp hIncline
    exact .incline hLeaves
  · obtain ⟨id, c, hc, hApart, hPlane, hBeside, rfl⟩ := exists_of_mem_neighbourRules hNeighbour
    exact .neighbour hc hApart hPlane hBeside

/-- The rules about inclines are those of the connections that end at the node. -/
theorem WellFormed.inclineBetween_mem_derive (hNet : net.WellFormed) (hj : net.node? n = some j)
    {ground : Float} {inclines : InclineRange Float} {other : NodeId} {length weight : Float} :
    .inclineBetween inclines other length weight ∈ (net.derive s j ground).2 ↔
      ∃ id c here, net.connection? id = some c ∧ c.node here = n ∧
        .inclineBetween inclines other length weight =
          Connection.inclineRule c.trackType.inclines here (c.node here.other) c.length s.inclineWeight := by
  constructor
  · intro hr
    have hDerived := hNet.derived hj hr
    generalize hRule : HeightRule.inclineBetween inclines other length weight = r at hDerived
    cases hDerived with
    | incline hLeaves =>
      obtain ⟨id, hc, hHere⟩ := (hNet.leaves_iff hj).mp hLeaves
      exact ⟨id, _, _, hc, hHere, rfl⟩
    | _ => cases hRule
  · rintro ⟨id, c, here, hc, hHere, hRule⟩
    have hMem := mem_inclineRules.mpr ⟨c, here, (hNet.leaves_iff hj).mpr ⟨id, hc, hHere⟩, hRule⟩
    simp only [derive, List.mem_append]
    exact .inl (.inr hMem)

end Rules

end Network

end TrackLayout
