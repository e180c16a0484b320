import TrackLayout.Network.Straightness
import TrackLayout.Proofs.Binary64.Symmetry
import TrackLayout.Proofs.Network.Cleanup
import TrackLayout.Proofs.Network.Drawing

/-!
# Connections drawn the other way round

Some connections of a drawing may be drawn from their ends to their starts.
The two networks keep the same nodes throughout: with the same tracks in the
same order and directions, sides and links. Their connections differ only in
which end is the start of those that were drawn the other way round.
-/
set_option autoImplicit false

namespace TrackLayout

namespace Connection

/-- The same connection from its other end. -/
def reversed (c : Connection) : Connection :=
  { c with
    start := c.stop
    stop := c.start
    startPoint := c.stopPoint
    stopPoint := c.startPoint
    bounds := .spanning c.stopPoint c.startPoint }

/-- A connection, reversed if it is among some that are turned. -/
def turn (turned : ConnectionId → Bool) (c : Connection) : Connection :=
  if turned c.id then c.reversed else c

variable {turned : ConnectionId → Bool} {c : Connection}

theorem length_reversed (c : Connection) : c.reversed.length = c.length :=
  PlanarPoint.distance_comm c.stopPoint c.startPoint

theorem length_turn (turned : ConnectionId → Bool) (c : Connection) : (c.turn turned).length = c.length := by
  rw [turn]
  split
  · exact length_reversed c
  · rfl

theorem trackType_turn (turned : ConnectionId → Bool) (c : Connection) :
    (c.turn turned).trackType = c.trackType := by
  rw [turn]
  split <;> rfl

theorem straight_turn (turned : ConnectionId → Bool) (c : Connection) : (c.turn turned).straight = c.straight := by
  rw [turn]
  split <;> rfl

theorem turn_withStraight (turned : ConnectionId → Bool) (c : Connection) (flag : Bool) :
    ({ c with straight := flag } : Connection).turn turned = { c.turn turned with straight := flag } := by
  rw [turn, turn]
  dsimp only
  split <;> rfl

/-- Whichever end is at the node goes over to the other one. -/
theorem handOver_reversed (source target : NodeId) (hEnds : c.start ≠ c.stop) :
    c.reversed.handOver source target = (c.handOver source target).reversed := by
  simp only [handOver, reversed]
  by_cases hStart : c.start = source
  · have hStop : c.stop ≠ source := fun hStop => hEnds (hStart.trans hStop.symm)
    simp only [hStart, hStop, if_true, if_false]
  · by_cases hStop : c.stop = source
    · simp only [hStart, hStop, if_true, if_false]
    · simp only [hStart, hStop, if_false]

theorem handOver_turn (source target : NodeId) (hEnds : c.start ≠ c.stop) :
    (c.turn turned).handOver source target = (c.handOver source target).turn turned := by
  have hId : (c.handOver source target).id = c.id := (loose_eq_iff.mp loose_handOver).1
  rw [turn, turn, hId]
  split
  · exact handOver_reversed source target hEnds
  · rfl

end Connection

namespace Table

variable {kind : IdKind} {α : Type} {t u : Table kind α} {entry other : Id kind → α} {id : Id kind}

/-- New entries that correspond to each other keep tables in correspondence. -/
theorem map_add? (h : t.add? entry = some (id, u)) (f : α → α) (hEntry : other id = f (entry id)) :
    (t.map f).add? other = some (id, u.map f) := by
  have hRoom := slots_lt_of_add? h
  rw [← slots_size_map t f] at hRoom
  obtain ⟨v, hv⟩ := exists_add?_of_slots other hRoom
  rw [slots_size_map, ← id_eq_of_add? h] at hv
  rw [hv]
  congr 2
  refine ext_get? ?_ fun place => ?_
  · rw [slots_size_add? hv, slots_size_map, slots_size_map, slots_size_add? h]
  · rw [get?_add? hv, get?_map, get?_map, get?_add? h]
    split
    · rw [hEntry, Option.map_some]
    · rfl

theorem modify_comm {a b : Id kind} (hNe : a ≠ b) (f g : α → α) (t : Table kind α) :
    (t.modify a f).modify b g = (t.modify b g).modify a f := by
  refine ext_get? (by simp) fun place => ?_
  rw [get?_modify, get?_modify, get?_modify, get?_modify]
  by_cases ha : place = a
  · subst ha
    rw [if_pos rfl, if_neg hNe, if_pos rfl, if_neg hNe]
  · rw [if_neg ha, if_neg ha]

end Table

namespace Network

variable {turned : ConnectionId → Bool} {net other next mid mid' : Network} {n sibling start stop : NodeId}
  {j : Junction} {p q : Point} {id : ConnectionId} {spec : TrackSpec} {calls : List Call}

/-- Calls with some connections drawn the other way round. The first of them makes the connection `place`. -/
def redrawFrom (turned : ConnectionId → Bool) (place : Nat) : List Call → List Call
  | [] => []
  | .addNode position :: rest => .addNode position :: redrawFrom turned place rest
  | .connect start stop spec :: rest =>
    (if turned ⟨place.toUInt32⟩ then .connect stop start spec else .connect start stop spec) ::
      redrawFrom turned (place + 1) rest

def redraw (turned : ConnectionId → Bool) (calls : List Call) : List Call := redrawFrom turned 0 calls

/-- The same network with some connections turned. The index is left out. -/
structure Redrawn (turned : ConnectionId → Bool) (net other : Network) : Prop where
  nodes : other.nodes = net.nodes
  connections : other.connections = net.connections.map (·.turn turned)

namespace Redrawn

theorem empty (turned : ConnectionId → Bool) : Redrawn turned .empty .empty where
  nodes := rfl
  connections := by
    refine Table.ext_get? (Table.slots_size_map ..).symm fun id => ?_
    rw [Table.get?_map]
    change connection? .empty id = (connection? .empty id).map _
    rw [connection?_empty]
    rfl

section Views

variable (h : Redrawn turned net other)
include h

theorem node? (n : NodeId) : other.node? n = net.node? n := by
  rw [Network.node?, h.nodes, Network.node?]

theorem connection? (id : ConnectionId) : other.connection? id = (net.connection? id).map (·.turn turned) := by
  rw [Network.connection?, h.connections, Table.get?_map, Network.connection?]

theorem subnetwork? (id : ConnectionId) : other.subnetwork? id = net.subnetwork? id := by
  rw [Network.subnetwork?, h.connection?, Option.map_map, Network.subnetwork?]
  congr 1
  funext c
  exact congrArg TrackType.subnetwork (Connection.trackType_turn turned c)

theorem length? (id : ConnectionId) :
    (other.connection? id).map Connection.length = (net.connection? id).map Connection.length := by
  rw [h.connection?, Option.map_map]
  congr 1
  funext c
  exact Connection.length_turn turned c

theorem misfits (j : Junction) : other.misfits j = net.misfits j := misfits_congr rfl rfl h.subnetwork?

/-! ## Drawing -/

theorem added {position : Position} (hAdded : Added net position n next) :
    Added other position n { other with nodes := next.nodes } ∧
      Redrawn turned next { other with nodes := next.nodes } := by
  constructor
  · refine ⟨?_, rfl, rfl⟩
    rw [h.nodes]
    exact hAdded.add
  · refine ⟨rfl, ?_⟩
    rw [hAdded.connections]
    exact h.connections

theorem connected (hConnected : Connected net start stop spec p q id next) :
    ∃ next', Laid other (if turned id then .connect stop start spec else .connect start stop spec) next' ∧
      Redrawn turned next next' := by
  have hStart := hConnected.startPoint
  have hStop := hConnected.stopPoint
  rw [← h.node?] at hStart hStop
  have hTurn : (spec.connection start stop p q id).turn turned =
      if turned id then spec.connection stop start q p id else spec.connection start stop p q id := rfl
  have hAdd {entry : ConnectionId → Connection}
      (hEntry : entry id = (spec.connection start stop p q id).turn turned) :
      other.connections.add? entry = some (id, next.connections.map (·.turn turned)) := by
    rw [h.connections]
    exact Table.map_add? hConnected.add (·.turn turned) hEntry
  cases hTurned : turned id with
  | false =>
    rw [hTurned] at hTurn
    have hLaid : Connected other start stop spec p q id {
        nodes := next.nodes
        connections := next.connections.map (·.turn turned)
        index := other.index.insert (.spanning p q) id } := {
      ends_ne := hConnected.ends_ne
      startPoint := hStart
      stopPoint := hStop
      add := hAdd hTurn.symm
      nodes := by rw [h.nodes]; exact hConnected.nodes
      index := rfl }
    exact ⟨_, .connect hLaid, rfl, rfl⟩
  | true =>
    rw [hTurned] at hTurn
    have hLaid : Connected other stop start spec q p id {
        nodes := next.nodes
        connections := next.connections.map (·.turn turned)
        index := other.index.insert (.spanning q p) id } := {
      ends_ne := hConnected.ends_ne.symm
      startPoint := hStop
      stopPoint := hStart
      add := hAdd hTurn.symm
      nodes := by
        rw [h.nodes, hConnected.nodes]
        exact Table.modify_comm hConnected.ends_ne _ _ _
      index := rfl }
    exact ⟨_, .connect hLaid, rfl, rfl⟩

end Views

theorem drawOn (h : Redrawn turned net other) (hDraw : net.drawOn calls = .ok next) :
    ∃ next', other.drawOn (redrawFrom turned net.connections.slots.size calls) = .ok next' ∧
      Redrawn turned next next' := by
  induction calls generalizing net other with
  | nil =>
    cases hDraw
    exact ⟨other, drawOn_nil, h⟩
  | cons call rest ih =>
    obtain ⟨mid, hLaid, hRest⟩ := drawOn_cons.mp hDraw
    cases hLaid with
    | addNode hAdded =>
      obtain ⟨hAdded', hMid⟩ := h.added hAdded
      obtain ⟨next', hNext', hNext⟩ := ih hMid hRest
      rw [hAdded.connections] at hNext'
      exact ⟨next', drawOn_cons.mpr ⟨_, .addNode hAdded', hNext'⟩, hNext⟩
    | connect hConnected =>
      obtain ⟨mid', hLaid', hMid⟩ := h.connected hConnected
      obtain ⟨next', hNext', hNext⟩ := ih hMid hRest
      rw [Table.slots_size_add? hConnected.add] at hNext'
      rw [Table.id_eq_of_add? hConnected.add] at hLaid'
      exact ⟨next', drawOn_cons.mpr ⟨mid', hLaid', hNext'⟩, hNext⟩

/-! ## Links -/

section Links

variable (h : Redrawn turned net other)
include h

theorem linksOf (n : NodeId) : other.linksOf n = net.linksOf n := by
  rw [Network.linksOf, h.node?, Network.linksOf]

theorem followLinks (found : List NodeId) (fuel place : Nat) :
    other.followLinks found fuel place = net.followLinks found fuel place := by
  induction fuel generalizing found place with
  | zero => rfl
  | succ fuel ih =>
    rw [Network.followLinks, Network.followLinks]
    split
    · rfl
    · rw [h.linksOf, ih]

theorem linkClosure (n : NodeId) : other.linkClosure n = net.linkClosure n := by
  rw [Network.linkClosure, h.followLinks, linkCount, h.nodes, Network.linkClosure, linkCount]

theorem modifyNode (n : NodeId) (f : Junction → Junction) :
    Redrawn turned (net.modifyNode n f) (other.modifyNode n f) :=
  ⟨congrArg (·.modify n f) h.nodes, h.connections⟩

theorem linkPair (x y : NodeId) : Redrawn turned (net.linkPair x y) (other.linkPair x y) := by
  rw [Network.linkPair, Network.linkPair]
  split
  · exact h
  · exact (h.modifyNode x _).modifyNode y _

theorem link (a b : NodeId) : Redrawn turned (net.link a b) (other.link a b) := by
  rw [Network.link, Network.link, h.linkClosure, h.linkClosure]
  refine List.foldl_rel h fun x _ net other h => ?_
  exact List.foldl_rel h fun y _ net other h => h.linkPair x y

/-! ## Cleaning up -/

theorem addNode (position : Position) : other.addNode position =
    (net.addNode position).map fun added => (added.1, { other with nodes := added.2.nodes }) := by
  rw [Network.addNode, h.nodes, Network.addNode]
  split <;> rfl

theorem moved {ts : List Attachment} (hNet : net.WellFormed) (hMoved : Moved net n sibling ts mid)
    (hMoved' : Moved other n sibling ts mid') : Redrawn turned mid mid' where
  nodes := by
    refine Table.ext_get? ?_ fun m => ?_
    · rw [hMoved'.nodeSlots, hMoved.nodeSlots, h.nodes]
    · have hNode := hMoved'.node? m
      rw [h.node?, ← hMoved.node?] at hNode
      exact hNode
  connections := by
    refine Table.ext_get? ?_ fun id => ?_
    · rw [hMoved'.connectionSlots, h.connections, Table.slots_size_map, Table.slots_size_map,
        hMoved.connectionSlots]
    · rw [Table.get?_map]
      change mid'.connection? id = (mid.connection? id).map (·.turn turned)
      rw [hMoved'.connection?, hMoved.connection?, h.connection?]
      cases hc : net.connection? id with
      | none => rfl
      | some c =>
        simp only [Option.map_some]
        split
        · rw [Connection.handOver_turn n sibling (hNet.ends_ne hc)]
        · rfl

/-- What is split off a node, or the reason why nothing can be, is the same in both networks. -/
theorem extract (hNet : net.WellFormed) (hOther : other.WellFormed) (n : NodeId) :
    match net.extract n with
    | .error e => other.extract n = .error e
    | .ok none => other.extract n = .ok none
    | .ok (some (sibling, next)) =>
      ∃ next', other.extract n = .ok (some (sibling, next')) ∧ Redrawn turned next next' := by
  cases hj : net.node? n with
  | none =>
    rw [extract_of_absent hj]
    exact extract_of_absent ((h.node? n).trans hj)
  | some j =>
    have hj' : other.node? n = some j := (h.node? n).trans hj
    by_cases hFits : net.misfits j = []
    · rw [extract_of_fitting hj hFits]
      exact extract_of_fitting hj' ((h.misfits j).trans hFits)
    · have hFits' : other.misfits j ≠ [] := by rwa [h.misfits]
      rw [extract_of_misfits hj hFits, extract_of_misfits hj' hFits', h.addNode]
      cases hAdd : net.addNode j.position with
      | error e => rfl
      | ok added =>
        obtain ⟨sibling, mid⟩ := added
        have hAdded := addNode_eq_ok hAdd
        obtain ⟨ts, hLater, hMisfits⟩ := hNet.misfits_eq hj
        obtain ⟨hAdded', hMid⟩ := h.added hAdded
        obtain ⟨hMoved, -⟩ := hAdded.moved hNet hj hLater
        obtain ⟨hMoved', -⟩ := hAdded'.moved hOther hj' hLater
        refine ⟨_, rfl, ?_⟩
        rw [h.misfits, hMisfits]
        exact (hMid.moved (hAdded.wellFormed hNet) hMoved hMoved').link n sibling

end Links

end Redrawn

/-- Two results are the same but for networks that may be drawn differently. -/
def Agree (turned : ConnectionId → Bool) {α : Type} :
    Except NetworkError (α × Network) → Except NetworkError (α × Network) → Prop
  | .ok (a, next), .ok (b, next') => b = a ∧ Redrawn turned next next'
  | .error e, .error e' => e' = e
  | .ok _, .error _ | .error _, .ok _ => False

namespace Redrawn

theorem repair (h : Redrawn turned net other) (hNet : net.WellFormed) (hOther : other.WellFormed)
    (split fuel : Nat) (queue : List NodeId) :
    Agree turned (net.repair split fuel queue) (other.repair split fuel queue) := by
  induction fuel generalizing net other split queue with
  | zero =>
    rw [Network.repair, Network.repair]
    exact ⟨rfl, h⟩
  | succ fuel ih =>
    cases queue with
    | nil =>
      rw [Network.repair, Network.repair]
      exact ⟨rfl, h⟩
    | cons n queue =>
      have hExtract := h.extract hNet hOther n
      rw [Network.repair, Network.repair]
      cases hFirst : net.extract n with
      | error e =>
        rw [hFirst] at hExtract
        dsimp only at hExtract
        rw [hExtract]
        rfl
      | ok result =>
        rw [hFirst] at hExtract
        cases result with
        | none =>
          dsimp only at hExtract
          rw [hExtract]
          exact ih h hNet hOther split queue
        | some result =>
          obtain ⟨sibling, next⟩ := result
          obtain ⟨next', hSecond, hNext⟩ := hExtract
          rw [hSecond]
          exact ih hNext (extract_eq_some hNet hFirst).1 (extract_eq_some hOther hSecond).1 _ _

theorem prune (h : Redrawn turned net other) : Redrawn turned net.prune other.prune :=
  ⟨congrArg (Table.filter · _) h.nodes, h.connections⟩

theorem cleanup (h : Redrawn turned net other) (hNet : net.WellFormed) (hOther : other.WellFormed) :
    Agree turned net.cleanup other.cleanup := by
  have hPruned := h.prune
  have hRepair := hPruned.repair hNet.prune hOther.prune 0
    (net.prune.nodes.size + 2 * net.prune.attachments) net.prune.nodes.ids
  have hAttachments : other.prune.attachments = net.prune.attachments := by
    rw [attachments, hPruned.nodes, attachments]
  rw [cleanup_eq, cleanup_eq, hAttachments, hPruned.nodes, h.nodes]
  revert hRepair
  generalize net.prune.repair 0 _ _ = first
  generalize other.prune.repair 0 _ _ = second
  intro hRepair
  cases first with
  | error e =>
    cases second with
    | error e' => exact hRepair
    | ok result => exact hRepair
  | ok result =>
    cases second with
    | error e' => exact hRepair
    | ok result' =>
      obtain ⟨hSplit, hClean⟩ := hRepair
      exact ⟨by rw [hSplit], hClean⟩

end Redrawn

/-! ## Straightness -/

/-- Straightness asks for what continues at both ends, in no order. -/
theorem isStraight_reversed (net : Network) (c : Connection) : net.isStraight c.reversed = net.isStraight c := by
  have hStart : c.reversed.start = c.stop := rfl
  have hStop : c.reversed.stop = c.start := rfl
  have hId : c.reversed.id = c.id := rfl
  rw [isStraight, isStraight, hStart, hStop, hId, Connection.length_reversed]
  cases net.continuation? c.start c.id with
  | none => cases net.continuation? c.stop c.id <;> rfl
  | some before =>
    cases net.continuation? c.stop c.id with
    | none => rfl
    | some behind => exact Bool.and_comm ..

namespace Redrawn

section Straightness

variable (h : Redrawn turned net other)
include h

theorem continuation? (n : NodeId) (id : ConnectionId) : other.continuation? n id = net.continuation? n id := by
  have hLength (single : ConnectionId) : (do return (← other.connection? single).length : Option Float) =
      do return (← net.connection? single).length := by
    have hBoth := h.length? single
    cases hFirst : net.connection? single <;> cases hSecond : other.connection? single <;>
      simp_all
  rw [Network.continuation?, h.node?, Network.continuation?]
  simp only [hLength]

theorem isStraight_turn (c : Connection) : other.isStraight (c.turn turned) = net.isStraight c := by
  have hSame : ∀ d : Connection, other.isStraight d = net.isStraight d := fun d => by
    rw [Network.isStraight, Network.isStraight, h.continuation?, h.continuation?]
  rw [hSame, Connection.turn]
  split
  · exact isStraight_reversed net c
  · rfl

theorem markStraight : Redrawn turned net.markStraight other.markStraight where
  nodes := h.nodes
  connections := by
    change other.connections.map (fun c => { c with straight := other.isStraight c }) =
      (net.connections.map fun c => { c with straight := net.isStraight c }).map (·.turn turned)
    rw [h.connections, Table.map_comp, Table.map_comp]
    congr 1
    funext c
    change ({ c.turn turned with straight := other.isStraight (c.turn turned) } : Connection) = _
    rw [h.isStraight_turn]
    exact (Connection.turn_withStraight turned c _).symm

theorem straightCount : other.straightCount = net.straightCount := by
  rw [Network.straightCount, h.connections, Table.values_map, List.countP_map, Network.straightCount]
  congr 1
  funext c
  exact Connection.straight_turn turned c

end Straightness

end Redrawn

/-- Which way connections are drawn has no influence on how junctions are cleaned up and on what is drawn
straight. -/
theorem cleanup_redraw (turned : ConnectionId → Bool) (calls : List Call) (net : Network)
    (hDraw : draw calls = .ok net) : ∃ other, draw (redraw turned calls) = .ok other ∧ Redrawn turned net other ∧
      match net.cleanup, other.cleanup with
      | .ok (report, clean), .ok (report', clean') => report' = report ∧
        clean'.markStraight.straightCount = clean.markStraight.straightCount ∧
        Redrawn turned clean.markStraight clean'.markStraight ∧
        ∀ id, (clean'.markStraight.connection? id).map Connection.length =
          (clean.markStraight.connection? id).map Connection.length
      | .error e, .error e' => e' = e
      | _, _ => False := by
  obtain ⟨other, hOther, hRedrawn⟩ := (Redrawn.empty turned).drawOn hDraw
  have hClean := hRedrawn.cleanup (wellFormed_draw hDraw) (wellFormed_draw hOther)
  refine ⟨other, hOther, hRedrawn, ?_⟩
  generalize net.cleanup = first at hClean
  generalize other.cleanup = second at hClean
  cases first with
  | error e =>
    cases second with
    | error e' => exact hClean
    | ok result => exact hClean
  | ok result =>
    cases second with
    | error e' => exact hClean
    | ok result' =>
      obtain ⟨hReport, hClean⟩ := hClean
      exact ⟨hReport, hClean.markStraight.straightCount, hClean.markStraight, hClean.markStraight.length?⟩

/-- Two tracks that leave a node at a right angle. -/
def fork : List Call :=
  [.addNode { point := ⟨0.0, 0.0⟩ }, .addNode { point := ⟨100.0, 0.0⟩ }, .addNode { point := ⟨0.0, 100.0⟩ },
    .connect ⟨0⟩ ⟨1⟩ {}, .connect ⟨0⟩ ⟨2⟩ {}]

theorem cleanup_redraw_fork : ∃ net, draw fork = .ok net ∧ (net.cleanup.map (·.1)).toOption = some ⟨0, 1⟩ ∧
    ∃ other, draw (redraw (· == ⟨0⟩) fork) = .ok other ∧ (other.cleanup.map (·.1)).toOption = some ⟨0, 1⟩ := by
  have hSplits : ((draw fork).bind fun net => net.cleanup.map (·.1)).toOption = some ⟨0, 1⟩ := by decide +kernel
  cases hDraw : draw fork with
  | error e =>
    rw [hDraw] at hSplits
    cases hSplits
  | ok net =>
    rw [hDraw] at hSplits
    obtain ⟨other, hOther, -, hSame⟩ := cleanup_redraw (· == ⟨0⟩) fork net hDraw
    refine ⟨net, rfl, hSplits, other, hOther, ?_⟩
    change (net.cleanup.map (·.1)).toOption = some ⟨0, 1⟩ at hSplits
    generalize net.cleanup = first at hSplits hSame
    generalize other.cleanup = second at hSame
    cases first with
    | error e => cases hSplits
    | ok result =>
      cases second with
      | error e => exact hSame.elim
      | ok result' =>
        obtain ⟨hReport, -⟩ := hSame
        change some result'.1 = _
        rw [hReport]
        exact hSplits

end Network

end TrackLayout
