import TrackLayout.Proofs.Import.Plan
import TrackLayout.Proofs.Import.Steps

/-!
# What an importer remembers

An importer remembers the nodes of the keys it has met, also when some of these
nodes have been removed meanwhile. A way that connects a key whose node is gone
to another key is refused at that segment. Nothing else but a want of ids stops
a way, and no way loses a node.
-/
set_option autoImplicit false

namespace TrackLayout.ImportState

open Network

/-- The importer remembers a node for a key. -/
def Recalls (s : ImportState) (key : UInt64) (id : NodeId) : Prop := s.importer.known.lookup key = some (some id)

/-- The node that is remembered for a key is not there any more. -/
def Lost (s : ImportState) (key : UInt64) : Prop := ∃ id, s.Recalls key id ∧ s.network.node? id = none

/-- A key has a node, or will have one when the way nodes have been met. -/
def Accepts (s : ImportState) (seen : List WayNode) (key : UInt64) : Prop :=
  match s.importer.known.lookup key with
  | some node => node.isSome = true
  | none => (seen.find? (·.key == key)).any (fun n => s.importer.onLand n.position) = true

/-- A segment between two different keys with nodes, one of which is lost. -/
structure Blocked (s : ImportState) (seen : List WayNode) (x : Piece) : Prop where
  keys_ne : x.first.key ≠ x.second.key
  first : s.Accepts seen x.first.key
  second : s.Accepts seen x.second.key
  lost : s.Lost x.first.key ∨ s.Lost x.second.key

/-- The segments of a way, if it is handled. -/
def segmentsOf (k : WayClassifier) (w : Way) : List Piece := (handle? k w).elim [] piecesOf

/-- Why a segment was refused: it was blocked for want of one of its nodes, or there was no id left. -/
def Refuses (s : ImportState) (seen : List WayNode) (count : Nat) (x : Piece) : NetworkError → Prop
  | .unknownNode id => s.Blocked seen x ∧ (s.Recalls x.first.key id ∨ s.Recalls x.second.key id) ∧
      s.network.node? id = none
  | .idsExhausted => UInt32.size ≤ s.network.nodes.slots.size + 2 * count ∨
      UInt32.size ≤ s.network.connections.slots.size + count
  | .unknownConnection _ | .selfLoop _ => False

/-- How a way with some segments ends: none of them is blocked, or one is refused and none before it
was blocked. -/
def Ends (s : ImportState) (pieces : List Piece) : Option NetworkError → Prop
  | none => ∀ x ∈ pieces, ¬s.Blocked (met pieces) x
  | some e => ∃ before x behind, pieces = before ++ x :: behind ∧
      (∀ y ∈ before, ¬s.Blocked (met pieces) y) ∧ s.Refuses (met pieces) (before.length + 1) x e

variable {s t : ImportState} {n : WayNode} {seen more : List WayNode} {key other : UInt64} {id : NodeId}
  {node : Option NodeId} {x : Piece} {pieces done rest : List Piece} {made : Nat}

/-! ## Keys -/

theorem recalls_remember (hNew : s.importer.known.lookup key = none) :
    (s.remember key node).Recalls other id ↔ s.Recalls other id ∨ (other = key ∧ node = some id) := by
  rw [Recalls, ImportState.remember, List.lookup_append, List.lookup_cons, Recalls]
  by_cases hSame : other = key
  · rw [hSame, hNew, beq_self_eq_true]
    simp
  · rw [beq_false_of_ne hSame]
    simp [hSame]

theorem lookup_remember_eq_none : (s.remember key node).importer.known.lookup other = none ↔
    s.importer.known.lookup other = none ∧ other ≠ key := by
  rw [ImportState.remember, List.lookup_append, List.lookup_cons, Option.or_eq_none_iff]
  refine and_congr_right fun _ => ?_
  by_cases hSame : other = key
  · simp [hSame]
  · simp [hSame, beq_false_of_ne hSame]

/-- What is met later does not change whether a key that has been met has a node. -/
theorem accepts_append (h : key ∈ seen.map (·.key)) : s.Accepts (seen ++ more) key ↔ s.Accepts seen key := by
  rw [Accepts, Accepts, List.find?_append, Option.or_of_isSome (find?_key_isSome h)]

theorem accepts_concat_known (h : s.importer.known.lookup n.key ≠ none ∨ n.key ∈ seen.map (·.key)) :
    s.Accepts (seen ++ [n]) key ↔ s.Accepts seen key := by
  by_cases hSeen : key ∈ seen.map (·.key)
  · exact accepts_append hSeen
  · rw [Accepts, Accepts]
    split
    · rfl
    · next hNew =>
      have hOther : n.key ≠ key := by
        rintro rfl
        rcases h with hOld | hSame
        · exact hOld hNew
        · exact hSeen hSame
      rw [List.find?_append, find?_key_eq_none hSeen]
      simp [hOther]

theorem accepts_concat_new (hNew : s.importer.known.lookup n.key = none) (hSeen : n.key ∉ seen.map (·.key)) :
    s.Accepts (seen ++ [n]) key ↔
      s.Accepts seen key ∨ (key = n.key ∧ s.importer.onLand n.position = true) := by
  by_cases hSame : key = n.key
  · subst hSame
    rw [Accepts, Accepts, hNew, List.find?_append, find?_key_eq_none hSeen]
    simp
  · rw [or_iff_left fun h => hSame h.1, Accepts, Accepts, List.find?_append]
    split
    · rfl
    · rw [List.find?_cons_of_neg (by simpa using Ne.symm hSame), List.find?_nil, Option.or_none]

theorem blocked_append (hx : x ∈ pieces) (more : List WayNode) :
    s.Blocked (met pieces ++ more) x ↔ s.Blocked (met pieces) x := by
  obtain ⟨hFirst, hSecond⟩ := keys_mem_met hx
  constructor
  · intro h
    exact ⟨h.keys_ne, (accepts_append hFirst).mp h.first, (accepts_append hSecond).mp h.second, h.lost⟩
  · intro h
    exact ⟨h.keys_ne, (accepts_append hFirst).mpr h.first, (accepts_append hSecond).mpr h.second, h.lost⟩

/-! ## What an importer remembers -/

/-- Different keys have different nodes, and the nodes are or were part of the network. -/
structure Remembers (s : ImportState) : Prop where
  wellFormed : s.network.WellFormed
  issued : ∀ {key id}, s.Recalls key id → s.network.nodes.HasIssued id
  keys : ∀ {key other id}, s.Recalls key id → s.Recalls other id → key = other

namespace Remembers

theorem start (onLand : Point → Bool) : Remembers ⟨{ onLand }, .empty⟩ :=
  ⟨empty_wellFormed, nofun, nofun⟩

theorem count (h : s.Remembers) (f : ImportReport → ImportReport) : (s.count f).Remembers :=
  ⟨h.wellFormed, h.issued, h.keys⟩

theorem off (h : s.Remembers) (hNew : s.importer.known.lookup key = none) :
    (s.remember key none).Remembers where
  wellFormed := h.wellFormed
  issued {key id} hRecalls := by
    rcases (recalls_remember hNew).mp hRecalls with hOld | ⟨-, hNone⟩
    · exact h.issued hOld
    · cases hNone
  keys {key other id} hKey hOther := by
    rcases (recalls_remember hNew).mp hKey with hKey | ⟨-, hNone⟩
    · rcases (recalls_remember hNew).mp hOther with hOther | ⟨-, hNone⟩
      · exact h.keys hKey hOther
      · cases hNone
    · cases hNone

theorem added (h : s.Remembers) (hNew : s.importer.known.lookup key = none) {position : Position}
    {network : Network} (hAdded : Added s.network position id network) (f : ImportReport → ImportReport) :
    ((({ s with network } : ImportState).count f).remember key (some id)).Remembers where
  wellFormed := hAdded.wellFormed h.wellFormed
  issued {key m} hRecalls := by
    rcases (recalls_remember hNew).mp hRecalls with hOld | ⟨-, hSame⟩
    · exact hAdded.follows.nodes (h.issued hOld)
    · obtain rfl := Option.some.inj hSame
      exact (h.wellFormed.issuesNew.addNode hAdded.addNode).2
  keys {key other m} hKey hOther := by
    have hFresh := (h.wellFormed.issuesNew.addNode hAdded.addNode).1
    rcases (recalls_remember hNew).mp hKey with hKey | ⟨rfl, hSame⟩
    · rcases (recalls_remember hNew).mp hOther with hOther | ⟨-, hSame⟩
      · exact h.keys hKey hOther
      · obtain rfl := Option.some.inj hSame
        exact absurd (h.issued hKey) hFresh
    · rcases (recalls_remember hNew).mp hOther with hOther | ⟨rfl, -⟩
      · obtain rfl := Option.some.inj hSame
        exact absurd (h.issued hOther) hFresh
      · rfl

theorem connected (h : s.Remembers) {a b : NodeId} {spec : TrackSpec} {p q : Point} {id : ConnectionId}
    {network : Network} (hConnected : Connected s.network a b spec p q id network)
    (f : ImportReport → ImportReport) : (({ s with network } : ImportState).count f).Remembers :=
  ⟨hConnected.wellFormed h.wellFormed, fun hRecalls => hConnected.follows.nodes (h.issued hRecalls), h.keys⟩

end Remembers

/-! ## Along a way -/

/-- A state in the course of a way that began in `s`, after some way nodes have been met. -/
structure Since (s : ImportState) (seen : List WayNode) (made : Nat) (t : ImportState) : Prop where
  remembers : t.Remembers
  land : t.importer.onLand = s.importer.onLand
  unknown : ∀ key, t.importer.known.lookup key = none ↔
    s.importer.known.lookup key = none ∧ key ∉ seen.map (·.key)
  accepts : ∀ key, (∃ id, t.Recalls key id) ↔ s.Accepts seen key
  gone : ∀ key id, t.Recalls key id ∧ t.network.node? id = none ↔ s.Recalls key id ∧ s.network.node? id = none
  nodes : t.network.nodes.slots.size ≤ s.network.nodes.slots.size + seen.length
  connections : t.network.connections.slots.size ≤ s.network.connections.slots.size + made

namespace Since

theorem start (h : s.Remembers) (f : ImportReport → ImportReport) : Since s [] 0 (s.count f) where
  remembers := h.count f
  land := rfl
  unknown key := ⟨fun hNew => ⟨hNew, List.not_mem_nil⟩, And.left⟩
  accepts key := by
    rw [Accepts]
    change (∃ id, s.importer.known.lookup key = some (some id)) ↔ _
    cases s.importer.known.lookup key with
    | none => simp
    | some node => cases node <;> simp
  gone key id := Iff.rfl
  nodes := Nat.le_refl _
  connections := Nat.le_refl _

theorem lost (h : Since s seen made t) (key : UInt64) : t.Lost key ↔ s.Lost key :=
  exists_congr fun id => h.gone key id

theorem skip (h : Since s seen made t) : Since s seen (made + 1) t.skip :=
  ⟨h.remembers.count _, h.land, h.unknown, h.accepts, h.gone, h.nodes, Nat.le_succ_of_le h.connections⟩

theorem known (h : Since s seen made t) (hKnown : t.importer.known.lookup n.key = some node) :
    Since s (seen ++ [n]) made t := by
  have hOld : s.importer.known.lookup n.key ≠ none ∨ n.key ∈ seen.map (·.key) := by
    by_contra hNew
    rw [not_or, not_not] at hNew
    rw [(h.unknown n.key).mpr hNew] at hKnown
    cases hKnown
  refine ⟨h.remembers, h.land, fun key => ?_, fun key => ?_, h.gone, ?_, h.connections⟩
  · rw [h.unknown, List.map_append, List.mem_append, not_or, List.map_singleton, List.mem_singleton]
    refine and_congr_right fun hNew => ?_
    refine (and_iff_left_of_imp fun hSeen => ?_).symm
    rintro rfl
    rcases hOld with hOld | hOld
    · exact hOld hNew
    · exact hSeen hOld
  · rw [h.accepts, accepts_concat_known hOld]
  · rw [List.length_append]
    exact Nat.le_succ_of_le h.nodes

theorem unknown_concat (h : Since s seen made t) (node : Option NodeId) (key : UInt64) :
    (t.remember n.key node).importer.known.lookup key = none ↔
      s.importer.known.lookup key = none ∧ key ∉ (seen ++ [n]).map (·.key) := by
  rw [lookup_remember_eq_none, h.unknown, List.map_append, List.mem_append, not_or, List.map_singleton,
    List.mem_singleton, and_assoc]

theorem off (h : Since s seen made t) (hNew : t.importer.known.lookup n.key = none)
    (hLand : t.importer.onLand n.position = false) : Since s (seen ++ [n]) made (t.remember n.key none) := by
  obtain ⟨hFirst, hSeen⟩ := (h.unknown n.key).mp hNew
  have hRecalls (key : UInt64) (id : NodeId) : (t.remember n.key none).Recalls key id ↔ t.Recalls key id := by
    rw [recalls_remember hNew]
    simp
  refine ⟨h.remembers.off hNew, h.land, h.unknown_concat none, fun key => ?_, fun key id => ?_, ?_, h.connections⟩
  · rw [accepts_concat_new hFirst hSeen, ← h.land, hLand, ← h.accepts]
    simp [hRecalls]
  · rw [hRecalls]
    exact h.gone key id
  · rw [List.length_append]
    exact Nat.le_succ_of_le h.nodes

theorem added (h : Since s seen made t) (hNew : t.importer.known.lookup n.key = none)
    (hLand : t.importer.onLand n.position = true) {network : Network}
    (hAdded : Added t.network { point := n.position } id network) (f : ImportReport → ImportReport) :
    Since s (seen ++ [n]) made ((({ t with network } : ImportState).count f).remember n.key (some id)) := by
  obtain ⟨hFirst, hSeen⟩ := (h.unknown n.key).mp hNew
  have hFresh := (h.remembers.wellFormed.issuesNew.addNode hAdded.addNode).1
  have hRecalls (key : UInt64) (m : NodeId) :
      ((({ t with network } : ImportState).count f).remember n.key (some id)).Recalls key m ↔
        t.Recalls key m ∨ (key = n.key ∧ some id = some m) := recalls_remember hNew
  refine ⟨h.remembers.added hNew hAdded f, h.land, h.unknown_concat (some id), fun key => ?_, fun key m => ?_,
    ?_, ?_⟩
  · rw [accepts_concat_new hFirst hSeen, ← h.land, hLand, ← h.accepts]
    simp only [hRecalls, exists_or]
    simp
  · rw [hRecalls, ← h.gone]
    change _ ∧ network.node? m = none ↔ _
    rw [hAdded.node?]
    constructor
    · rintro ⟨hRecalls | ⟨-, hSame⟩, hGone⟩
      · split at hGone
        · cases hGone
        · exact ⟨hRecalls, hGone⟩
      · rw [if_pos (Option.some.inj hSame).symm] at hGone
        cases hGone
    · rintro ⟨hOld, hGone⟩
      refine ⟨.inl hOld, ?_⟩
      rw [if_neg, hGone]
      rintro rfl
      exact hFresh (h.remembers.issued hOld)
  · have hSize := h.nodes
    change network.nodes.slots.size ≤ _
    rw [Table.slots_size_add? hAdded.add, List.length_append, List.length_singleton]
    omega
  · change network.connections.slots.size ≤ _
    rw [hAdded.connections]
    exact h.connections

theorem connected (h : Since s seen made t) {a b : NodeId} {spec : TrackSpec} {p q : Point} {id : ConnectionId}
    {network : Network} (hConnected : Connected t.network a b spec p q id network)
    (f : ImportReport → ImportReport) : Since s seen (made + 1) (({ t with network } : ImportState).count f) where
  remembers := h.remembers.connected hConnected f
  land := h.land
  unknown := h.unknown
  accepts := h.accepts
  gone key m := by
    rw [← h.gone]
    change _ ∧ network.node? m = none ↔ _
    rw [hConnected.node?, Option.map_eq_none_iff]
    rfl
  nodes := by
    change network.nodes.slots.size ≤ _
    rw [hConnected.nodes, Table.slots_size_modify, Table.slots_size_modify]
    exact h.nodes
  connections := by
    have hSize := h.connections
    change network.connections.slots.size ≤ _
    rw [Table.slots_size_add? hConnected.add]
    omega

end Since

/-- What asking for the node of a key may come to in the course of a way. -/
def Answers (s : ImportState) (seen : List WayNode) (made : Nat) (t : ImportState) (n : WayNode) :
    Except NetworkError (Option NodeId) × ImportState → Prop
  | (.error e, u) => e = .idsExhausted ∧ UInt32.size ≤ s.network.nodes.slots.size + (seen.length + 1) ∧
      Since s seen made u
  | (.ok node, u) => Since s (seen ++ [n]) made u ∧ u.importer.known.lookup n.key = some node ∧
      ∀ {key known}, t.importer.known.lookup key = some known → u.importer.known.lookup key = some known

namespace Since

theorem nodeOfKey (h : Since s seen made t) (n : WayNode) : Answers s seen made t n (t.nodeOfKey n) := by
  have hStays (node : Option NodeId) {key : UInt64} {known : Option NodeId}
      (hKnown : t.importer.known.lookup key = some known) :
      (t.importer.known ++ [(n.key, node)]).lookup key = some known := by
    rw [List.lookup_append, hKnown, Option.some_or]
  have hLast (hNew : t.importer.known.lookup n.key = none) (node : Option NodeId) :
      (t.importer.known ++ [(n.key, node)]).lookup n.key = some node := by
    rw [List.lookup_append, hNew, List.lookup_cons, beq_self_eq_true]
    rfl
  have hVisited := visited_nodeOfKey t n
  generalize t.nodeOfKey n = step at hVisited ⊢
  cases hVisited with
  | known hKnown => exact ⟨h.known hKnown, hKnown, fun hKnown => hKnown⟩
  | off hNew hLand => exact ⟨h.off hNew hLand, hLast hNew none, hStays none⟩
  | @added hNew hLand id network hAdded =>
    exact ⟨h.added hNew hLand hAdded _, hLast hNew (some id), hStays (some id)⟩
  | exhausted hNew hLand hSize =>
    have hNodes := h.nodes
    exact ⟨rfl, by omega, h⟩

/-- A segment is blocked exactly if its ends are two nodes of which one is gone. -/
theorem blocked_iff (h : Since s (met (done ++ [x])) made t) {first second : Option NodeId}
    (hFirst : t.importer.known.lookup x.first.key = some first)
    (hSecond : t.importer.known.lookup x.second.key = some second) :
    s.Blocked (met (done ++ [x])) x ↔ ∃ a b, first = some a ∧ second = some b ∧ a ≠ b ∧
      (t.network.node? a = none ∨ t.network.node? b = none) := by
  have hRecalls {key : UInt64} {node : Option NodeId} (hKey : t.importer.known.lookup key = some node)
      (id : NodeId) : t.Recalls key id ↔ node = some id := by
    rw [Recalls, hKey, Option.some.injEq]
  constructor
  · intro hBlocked
    obtain ⟨a, ha⟩ := (h.accepts _).mpr hBlocked.first
    obtain ⟨b, hb⟩ := (h.accepts _).mpr hBlocked.second
    have hNe : a ≠ b := by
      rintro rfl
      exact hBlocked.keys_ne (h.remembers.keys ha hb)
    refine ⟨a, b, (hRecalls hFirst a).mp ha, (hRecalls hSecond b).mp hb, hNe, ?_⟩
    refine hBlocked.lost.imp (fun hLost => ?_) (fun hLost => ?_)
    · obtain ⟨m, hm, hGone⟩ := (h.lost _).mpr hLost
      obtain rfl : a = m := Option.some.inj (((hRecalls hFirst a).mp ha).symm.trans ((hRecalls hFirst m).mp hm))
      exact hGone
    · obtain ⟨m, hm, hGone⟩ := (h.lost _).mpr hLost
      obtain rfl : b = m := Option.some.inj (((hRecalls hSecond b).mp hb).symm.trans ((hRecalls hSecond m).mp hm))
      exact hGone
  · rintro ⟨a, b, rfl, rfl, hNe, hGone⟩
    constructor
    · intro hKeys
      rw [hKeys, hSecond] at hFirst
      exact hNe (Option.some.inj (Option.some.inj hFirst)).symm
    · exact (h.accepts _).mp ⟨a, hFirst⟩
    · exact (h.accepts _).mp ⟨b, hSecond⟩
    · refine hGone.imp (fun hGone => ?_) (fun hGone => ?_)
      · exact (h.lost _).mp ⟨a, hFirst, hGone⟩
      · exact (h.lost _).mp ⟨b, hSecond, hGone⟩

end Since

/-- What a segment may come to in the course of a way. -/
def SegmentEnds (s : ImportState) (done : List Piece) (x : Piece) : ImportStep → Prop
  | (none, u) => ¬s.Blocked (met (done ++ [x])) x ∧ Since s (met (done ++ [x])) (done ++ [x]).length u
  | (some e, u) => s.Refuses (met (done ++ [x])) (done.length + 1) x e ∧ ∃ seen made, Since s seen made u

namespace Since

theorem connectEnds (h : Since s (met (done ++ [x])) done.length t) {first second : Option NodeId}
    (hFirst : t.importer.known.lookup x.first.key = some first)
    (hSecond : t.importer.known.lookup x.second.key = some second) :
    SegmentEnds s done x (t.connectEnds x.spec first second) := by
  have hBlocked := h.blocked_iff hFirst hSecond
  have hLength : (done ++ [x]).length = done.length + 1 := by rw [List.length_append, List.length_singleton]
  have hTied := tied_connectEnds t x.spec first second
  generalize t.connectEnds x.spec first second = step at hTied ⊢
  cases hTied with
  | off hOff =>
    rw [SegmentEnds, hBlocked, hLength]
    refine ⟨?_, h.skip⟩
    rintro ⟨a, b, rfl, rfl, -, -⟩
    rcases hOff with hOff | hOff
    · cases hOff
    · cases hOff
  | loop =>
    rw [SegmentEnds, hBlocked, hLength]
    refine ⟨?_, h.skip⟩
    rintro ⟨a, b, ha, hb, hNe, -⟩
    exact hNe (Option.some.inj (ha.symm.trans hb))
  | connected hConnected =>
    rw [SegmentEnds, hBlocked, hLength]
    refine ⟨?_, h.connected hConnected _⟩
    rintro ⟨a, b, ha, hb, -, hGone | hGone⟩
    · obtain rfl := Option.some.inj ha
      have hPoint := hConnected.startPoint
      rw [hGone] at hPoint
      cases hPoint
    · obtain rfl := Option.some.inj hb
      have hPoint := hConnected.stopPoint
      rw [hGone] at hPoint
      cases hPoint
  | @gone a b m hNe hEnd hGone =>
    refine ⟨⟨hBlocked.mpr ⟨a, b, rfl, rfl, hNe, ?_⟩, ?_⟩, _, _, h⟩
    · rcases hEnd with rfl | rfl
      · exact .inl hGone
      · exact .inr hGone
    · rcases hEnd with rfl | rfl
      · obtain ⟨hRecalls, hAbsent⟩ := (h.gone _ _).mp ⟨hFirst, hGone⟩
        exact ⟨.inl hRecalls, hAbsent⟩
      · obtain ⟨hRecalls, hAbsent⟩ := (h.gone _ _).mp ⟨hSecond, hGone⟩
        exact ⟨.inr hRecalls, hAbsent⟩
  | exhausted hNe hSize =>
    have hConnections := h.connections
    exact ⟨.inr (by omega), _, _, h⟩

theorem length_met (pieces : List Piece) : (met pieces).length = 2 * pieces.length := by
  rw [met, List.length_flatMap]
  simp [Nat.mul_comm]

theorem importSegment (h : Since s (met done) done.length t) (x : Piece) :
    SegmentEnds s done x (t.importSegment x.spec x.first x.second) := by
  have hFirst := h.nodeOfKey x.first
  have hLength := length_met done
  rw [ImportState.importSegment]
  split
  · next e u hFail =>
    rw [hFail] at hFirst
    obtain ⟨rfl, hSize, hSince⟩ := hFirst
    exact ⟨.inl (by omega), _, _, hSince⟩
  · next first u hDone =>
    rw [hDone] at hFirst
    obtain ⟨hSince, hFirst, -⟩ := hFirst
    have hSecond := hSince.nodeOfKey x.second
    split
    · next e v hFail =>
      rw [hFail] at hSecond
      obtain ⟨rfl, hSize, hSince⟩ := hSecond
      rw [List.length_append, List.length_singleton] at hSize
      exact ⟨.inl (by omega), _, _, hSince⟩
    · next second v hDone =>
      rw [hDone] at hSecond
      obtain ⟨hSince, hSecond, hStays⟩ := hSecond
      rw [← met_concat] at hSince
      exact hSince.connectEnds (hStays hFirst) hSecond

theorem addAll (h : Since s (met done) done.length t)
    (hClear : ∀ y ∈ done, ¬s.Blocked (met (done ++ rest)) y) :
    s.Ends (done ++ rest) (t.addAll (fun t x => t.importSegment x.spec x.first x.second) rest).1 ∧
      ∃ seen made, Since s seen made (t.addAll (fun t x => t.importSegment x.spec x.first x.second) rest).2 := by
  induction rest generalizing t done with
  | nil =>
    rw [List.append_nil] at hClear ⊢
    exact ⟨hClear, _, _, h⟩
  | cons x rest ih =>
    have hAll : done ++ x :: rest = (done ++ [x]) ++ rest := by simp
    have hMet : met ((done ++ [x]) ++ rest) = met (done ++ [x]) ++ met rest := List.flatMap_append
    have hBlocked : s.Blocked (met (done ++ x :: rest)) x ↔ s.Blocked (met (done ++ [x])) x := by
      rw [hAll, hMet]
      exact blocked_append (List.mem_append_right _ List.mem_cons_self) _
    have hFirst := h.importSegment x
    rw [ImportState.addAll]
    split
    · next e u hFail =>
      rw [hFail] at hFirst
      obtain ⟨hRefuses, hSince⟩ := hFirst
      refine ⟨⟨done, x, rest, rfl, hClear, ?_⟩, hSince⟩
      cases e with
      | unknownNode id => exact ⟨hBlocked.mpr hRefuses.1, hRefuses.2⟩
      | idsExhausted => exact hRefuses
      | unknownConnection => exact hRefuses
      | selfLoop => exact hRefuses
    · next u hDone =>
      rw [hDone] at hFirst
      obtain ⟨hFine, hSince⟩ := hFirst
      rw [hAll] at hClear hBlocked ⊢
      refine ih hSince fun y hy => ?_
      rcases List.mem_append.mp hy with hOld | hLast
      · exact hClear y hOld
      · rw [List.mem_singleton.mp hLast, hBlocked]
        exact hFine

end Since

theorem addAll_map {ι κ : Type} (step : ImportState → κ → ImportStep) (f : ι → κ) (s : ImportState) (xs : List ι) :
    s.addAll step (xs.map f) = s.addAll (fun s x => step s (f x)) xs := by
  induction xs generalizing s with
  | nil => rfl
  | cons x rest ih =>
    rw [List.map_cons, ImportState.addAll, ImportState.addAll]
    split
    · rfl
    · exact ih _

theorem Remembers.importWay (h : s.Remembers) (k : WayClassifier) (w : Way) :
    s.Ends (segmentsOf k w) (importWay k s w).1 ∧ ∃ seen made, Since s seen made (importWay k s w).2 := by
  rw [ImportState.importWay, segmentsOf, handle?]
  cases k.trackType? w with
  | none =>
    have hEnds : s.Ends [] none := by
      intro x hx
      exact absurd hx List.not_mem_nil
    exact ⟨hEnds, [], 0, .start h fun r => r⟩
  | some t =>
    have hStart : Since s (met []) ([] : List Piece).length (s.count fun r => { r with ways := r.ways + 1 }) :=
      .start h _
    have hClear : ∀ y ∈ ([] : List Piece),
        ¬s.Blocked (met ([] ++ piecesOf (w, ⟨t, k.heightType w, w.plane⟩))) y := by
      intro y hy
      exact absurd hy List.not_mem_nil
    have hAll := hStart.addAll hClear
    rw [← map_segments, addAll_map] at hAll
    rw [Option.map_some, Option.elim_some, ← map_segments]
    exact hAll

end TrackLayout.ImportState
