import TrackLayout.Proofs.Import.Plan
import TrackLayout.Proofs.Import.Steps

/-!
# Import as deduplication by keys

An import into the empty network makes what the plan for its segments says. The
proof follows the import from segment to segment: what the importer remembers of
the keys it has met is what the plan for the segments so far says of them.
-/
set_option autoImplicit false

namespace TrackLayout.ImportState

open Network

/-- What an import has made of ways with so many segments. -/
structure Made (nodes : List WayNode) (edges : List Edge) (ways segments : Nat) (s : ImportState) : Prop where
  /-- The network is as if all nodes had been added first and then all connections. -/
  network : draw (nodesFirst (positions nodes) edges) = .ok s.network
  lists : Lists (positions nodes) edges s.network
  ways : s.importer.report.ways = ways
  nodes : s.importer.report.nodes = nodes.length
  connections : s.importer.report.connections = edges.length
  segments : s.importer.report.connections + s.importer.report.skippedSegments = segments

variable {onLand : Point → Bool} {n : WayNode} {seen : List WayNode} {key : UInt64} {id : NodeId}
  {pieces : List Piece} {x : Piece} {nodes : List WayNode} {made : List Edge} {ways segments : Nat} {s : ImportState}

/-! ## What was made so far -/

namespace Made

theorem start (onLand : Point → Bool) : Made [] [] 0 0 ⟨{ onLand }, .empty⟩ :=
  ⟨drawOn_nil, .empty, rfl, rfl, rfl, rfl⟩

theorem accept (h : Made nodes made ways segments s) :
    Made nodes made (ways + 1) segments (s.count fun r => { r with ways := r.ways + 1 }) :=
  ⟨h.network, h.lists, congrArg (· + 1) h.ways, h.nodes, h.connections, h.segments⟩

theorem skip (h : Made nodes made ways segments s) : Made nodes made ways (segments + 1) s.skip :=
  ⟨h.network, h.lists, h.ways, h.nodes, h.connections, congrArg (· + 1) h.segments⟩

theorem remember (h : Made nodes made ways segments s) (key : UInt64) (node : Option NodeId) :
    Made nodes made ways segments (s.remember key node) :=
  ⟨h.network, h.lists, h.ways, h.nodes, h.connections, h.segments⟩

theorem addNode (h : Made nodes made ways segments s) {network : Network}
    (hAdded : Added s.network { point := n.position } id network) :
    Made (nodes ++ [n]) made ways segments
      ({ s with network }.count fun r => { r with nodes := r.nodes + 1 }) where
  network := by
    rw [positions, List.map_append]
    exact draw_nodesFirst_addNode h.network hAdded
  lists := by
    rw [positions, List.map_append]
    exact h.lists.addNode hAdded
  ways := h.ways
  nodes := by
    rw [List.length_append, ← h.nodes]
    rfl
  connections := h.connections
  segments := h.segments

theorem connect (h : Made nodes made ways segments s) {a b : NodeId} {spec : TrackSpec} {p q : Point}
    {id : ConnectionId} {network : Network} (hConnected : Connected s.network a b spec p q id network) :
    Made nodes (made ++ [⟨a, b, spec⟩]) ways (segments + 1)
      ({ s with network }.count fun r => { r with connections := r.connections + 1 }) where
  network := draw_nodesFirst_connect h.network hConnected
  lists := h.lists.connect hConnected
  ways := h.ways
  nodes := h.nodes
  connections := by
    rw [List.length_append, ← h.connections]
    rfl
  segments := by
    have hSegments := h.segments
    dsimp only [ImportState.count]
    omega

theorem nodes_lt (h : Made nodes made ways segments s) : nodes.length < UInt32.size := by
  have hSize := h.lists.nodeSlots
  rw [positions, List.length_map] at hSize
  rw [← hSize]
  exact s.network.nodes.slots_lt

theorem edges_lt (h : Made nodes made ways segments s) : made.length < UInt32.size := by
  rw [← h.lists.connectionSlots]
  exact s.network.connections.slots_lt

theorem present (h : Made nodes made ways segments s) (hNode : nodeAt nodes key = some id) :
    (s.network.node? id).isSome = true := by
  obtain ⟨place, hPlace, rfl, -⟩ := exists_place_of_nodeAt hNode
  have hListed : place < (positions nodes).length := by simpa [positions] using hPlace
  obtain ⟨j, hj, -⟩ := h.lists.exists_node hListed
  rw [hj]
  rfl

end Made

/-! ## Following an import -/

/-- An import that has met some way nodes, made some connections, and remembers what it should. -/
structure Traced (onLand : Point → Bool) (seen : List WayNode) (made : List Edge) (ways segments : Nat)
    (s : ImportState) : Prop where
  made : Made (landed onLand seen) made ways segments s
  land : s.importer.onLand = onLand
  known : ∀ key, s.importer.known.lookup key =
    if key ∈ seen.map (·.key) then some (nodeAt (landed onLand seen) key) else none

namespace Traced

theorem start (onLand : Point → Bool) : Traced onLand [] [] 0 0 ⟨{ onLand }, .empty⟩ :=
  ⟨.start onLand, rfl, fun _ => rfl⟩

theorem remember (h : Traced onLand seen made ways segments s) (n : WayNode) (key : UInt64) :
    (s.importer.known ++ [(n.key, nodeAt (landed onLand (seen ++ [n])) n.key)]).lookup key =
      if key ∈ (seen ++ [n]).map (·.key) then some (nodeAt (landed onLand (seen ++ [n])) key) else none := by
  rw [List.lookup_append, h.known, List.map_append, List.map_singleton]
  by_cases hOld : key ∈ seen.map (·.key)
  · rw [if_pos hOld, if_pos (List.mem_append_left _ hOld), nodeAt_append hOld]
    rfl
  · rw [if_neg hOld, List.lookup_cons]
    by_cases hSame : key = n.key
    · rw [hSame, beq_self_eq_true, if_pos (List.mem_append_right _ List.mem_cons_self)]
      rfl
    · rw [beq_false_of_ne hSame, if_neg]
      · rfl
      · intro hMem
        rcases List.mem_append.mp hMem with hMem | hMem
        · exact hOld hMem
        · exact hSame (List.mem_singleton.mp hMem)

theorem concat_known (h : Traced onLand seen made ways segments s) (hMet : n.key ∈ seen.map (·.key)) :
    Traced onLand (seen ++ [n]) made ways segments s := by
  have hLanded : landed onLand (seen ++ [n]) = landed onLand seen := landed_concat_known hMet
  constructor
  · rw [hLanded]
    exact h.made
  · exact h.land
  · intro key
    rw [h.known, hLanded, List.map_append, List.map_singleton]
    by_cases hSame : key = n.key
    · simp [hSame, hMet]
    · simp [hSame]

end Traced

/-- What asking for the node of a key may come to. -/
def Asked (onLand : Point → Bool) (seen : List WayNode) (made : List Edge) (ways segments : Nat) (key : UInt64) :
    Except NetworkError (Option NodeId) × ImportState → Prop
  | (.error e, _) => e = .idsExhausted ∧ UInt32.size ≤ (landed onLand seen).length
  | (.ok node, next) => node = nodeAt (landed onLand seen) key ∧ Traced onLand seen made ways segments next

theorem Traced.unknown (h : Traced onLand seen made ways segments s)
    (hNew : s.importer.known.lookup n.key = none) : n.key ∉ seen.map (·.key) := by
  intro hKnown
  rw [h.known, if_pos hKnown] at hNew
  cases hNew

theorem Traced.nodeOfKey (h : Traced onLand seen made ways segments s) (n : WayNode) :
    Asked onLand (seen ++ [n]) made ways segments n.key (s.nodeOfKey n) := by
  have hLand := h.land
  have hSlots := h.made.lists.nodeSlots
  rw [positions, List.length_map] at hSlots
  have hRemember := h.remember n
  have hVisited := visited_nodeOfKey s n
  generalize s.nodeOfKey n = step at hVisited ⊢
  cases hVisited with
  | @known node hKnown =>
    rw [h.known] at hKnown
    split at hKnown
    · next hMet =>
      refine ⟨?_, h.concat_known hMet⟩
      rw [landed_concat_known hMet]
      exact (Option.some.inj hKnown).symm
    · cases hKnown
  | off hNew hOff =>
    have hMet := h.unknown hNew
    rw [hLand] at hOff
    have hLanded := landed_concat_off hMet hOff
    rw [hLanded, nodeAt_eq_none hMet] at hRemember
    refine ⟨by rw [hLanded, nodeAt_eq_none hMet], ?_, hLand, fun key => ?_⟩
    · rw [hLanded]
      exact h.made.remember n.key none
    · rw [hLanded]
      exact hRemember key
  | @added hNew hOn id network hAdded =>
    have hMet := h.unknown hNew
    rw [hLand] at hOn
    have hLanded := landed_concat_new hMet hOn
    have hId : id = ⟨(landed onLand seen).length.toUInt32⟩ := hSlots ▸ Table.id_eq_of_add? hAdded.add
    have hNode : nodeAt (landed onLand seen ++ [n]) n.key = some id := by
      rw [nodeAt_concat_new hMet, hId]
    rw [hLanded, hNode] at hRemember
    refine ⟨by rw [hLanded, hNode], ?_, hLand, fun key => ?_⟩
    · rw [hLanded]
      exact (h.made.addNode hAdded).remember n.key (some id)
    · rw [hLanded]
      exact hRemember key
  | exhausted hNew hOn hSize =>
    rw [hLand] at hOn
    refine ⟨rfl, ?_⟩
    rw [landed_concat_new (h.unknown hNew) hOn, List.length_append, ← hSlots]
    exact hSize

/-- An import that has gone through some segments. -/
def Through (onLand : Point → Bool) (ways : Nat) (pieces : List Piece) (s : ImportState) : Prop :=
  Traced onLand (met pieces) (edges onLand pieces) ways pieces.length s

/-- What a step may come to after which some segments have been seen. -/
def Went (onLand : Point → Bool) (ways : Nat) (pieces : List Piece) : ImportStep → Prop
  | (none, s) => Through onLand ways pieces s
  | (some e, _) => e = .idsExhausted ∧ ¬Fits onLand pieces

/-- Steps that see some ways and segments each see all of them together. -/
theorem went_addAll {ι : Type} {step : ImportState → ι → ImportStep} (count : ι → Nat) (seen : ι → List Piece)
    (hStep : ∀ {ways pieces s}, Through onLand ways pieces s → ∀ x,
      Went onLand (ways + count x) (pieces ++ seen x) (step s x)) (h : Through onLand ways pieces s) (xs : List ι) :
    Went onLand (ways + (xs.map count).sum) (pieces ++ xs.flatMap seen) (s.addAll step xs) := by
  induction xs generalizing s ways pieces with
  | nil =>
    rw [List.flatMap_nil, List.append_nil]
    exact h
  | cons x rest ih =>
    have hFirst := hStep h x
    rw [ImportState.addAll, List.flatMap_cons, ← List.append_assoc, List.map_cons, List.sum_cons, ← Nat.add_assoc]
    split
    · next e t hFail =>
      rw [hFail] at hFirst
      exact ⟨hFirst.1, not_fits_append hFirst.2 _⟩
    · next t hDone =>
      rw [hDone] at hFirst
      exact ih hFirst

theorem connectEnds_went {first second : Option NodeId}
    (h : Traced onLand (met (pieces ++ [x])) (edges onLand pieces) ways pieces.length s)
    (hFirst : nodeAt (landed onLand (met (pieces ++ [x]))) x.first.key = first)
    (hSecond : nodeAt (landed onLand (met (pieces ++ [x]))) x.second.key = second) :
    Went onLand ways (pieces ++ [x]) (s.connectEnds x.spec first second) := by
  have hEdges := edges_concat onLand pieces x
  have hSkip (hNone : edge? (landed onLand (met (pieces ++ [x]))) x = none) :
      Through onLand ways (pieces ++ [x]) s.skip := by
    rw [hNone, Option.toList_none, List.append_nil] at hEdges
    rw [Through, hEdges, List.length_append]
    exact ⟨h.made.skip, h.land, h.known⟩
  have hMade {a b : NodeId} (hNe : a ≠ b) (ha : first = some a) (hb : second = some b) :
      edges onLand (pieces ++ [x]) = edges onLand pieces ++ [⟨a, b, x.spec⟩] := by
    rw [hEdges, edge?_eq_some hNe (hFirst.trans ha) (hSecond.trans hb)]
    rfl
  have hTied := tied_connectEnds s x.spec first second
  generalize s.connectEnds x.spec first second = step at hTied ⊢
  cases hTied with
  | off hOff =>
    rcases hOff with rfl | rfl
    · exact hSkip (edge?_eq_none (.inr (.inl hFirst)))
    · exact hSkip (edge?_eq_none (.inr (.inr hSecond)))
  | loop =>
    have hKeys := key_eq_of_nodeAt h.made.nodes_lt hFirst hSecond
    exact hSkip (edge?_eq_none (.inl hKeys))
  | connected hConnected =>
    rw [Went, Through, hMade hConnected.ends_ne rfl rfl, List.length_append]
    exact ⟨h.made.connect hConnected, h.land, h.known⟩
  | gone hNe hEnd hGone =>
    rcases hEnd with rfl | rfl
    · have hPresent := h.made.present hFirst
      rw [hGone] at hPresent
      cases hPresent
    · have hPresent := h.made.present hSecond
      rw [hGone] at hPresent
      cases hPresent
  | exhausted hNe hSize =>
    refine ⟨rfl, fun hFits => ?_⟩
    have hLt := hFits.2
    rw [hMade hNe rfl rfl, List.length_append, List.length_singleton, ← h.made.lists.connectionSlots] at hLt
    exact Nat.not_le_of_lt hLt hSize

theorem importSegment_went (h : Through onLand ways pieces s) (x : Piece) :
    Went onLand ways (pieces ++ [x])
      (s.importSegment x.spec x.first x.second) := by
  have hFirst := Traced.nodeOfKey h x.first
  rw [ImportState.importSegment]
  split
  · next e t hFail =>
    rw [hFail] at hFirst
    refine ⟨hFirst.1, fun hFits => ?_⟩
    have hPrefix := landed_prefix_append onLand (met pieces ++ [x.first]) [x.second]
    rw [← met_concat] at hPrefix
    have hLe := hPrefix.length_le
    have hFull := hFirst.2
    have hRoom := hFits.1
    omega
  · next start t hDone =>
    rw [hDone] at hFirst
    obtain ⟨hStart, hTraced⟩ := hFirst
    have hSecond := hTraced.nodeOfKey x.second
    rw [← met_concat] at hSecond
    have hStill : nodeAt (landed onLand (met (pieces ++ [x]))) x.first.key = start := by
      rw [hStart, met_concat]
      exact nodeAt_append (by simp) [x.second]
    split
    · next e u hFail =>
      rw [hFail] at hSecond
      exact ⟨hSecond.1, fun hFits => Nat.not_le_of_lt hFits.1 hSecond.2⟩
    · next stop u hDone =>
      rw [hDone] at hSecond
      obtain ⟨rfl, hTraced⟩ := hSecond
      exact connectEnds_went hTraced hStill rfl

/-! ## The whole import -/

theorem importWay_went (h : Through onLand ways pieces s) (k : WayClassifier) (w : Way) :
    Went onLand (ways + (handle? k w).toList.length) (pieces ++ (handle? k w).toList.flatMap piecesOf)
      (ImportState.importWay k s w) := by
  rw [ImportState.importWay, handle?]
  cases k.trackType? w with
  | none =>
    rw [Option.map_none, Option.toList_none, List.flatMap_nil, List.append_nil]
    exact h
  | some t =>
    have hAccepted : Through onLand (ways + 1) pieces (s.count fun r => { r with ways := r.ways + 1 }) :=
      ⟨h.made.accept, h.land, h.known⟩
    have hAll := went_addAll (fun _ => 0) (fun ends => [⟨ends.1, ends.2, ⟨t, k.heightType w, w.plane⟩⟩])
      (fun h ends => importSegment_went h ⟨ends.1, ends.2, ⟨t, k.heightType w, w.plane⟩⟩) hAccepted w.segments
    rw [← List.map_eq_flatMap, map_segments, List.map_const', List.sum_replicate_nat, Nat.mul_zero] at hAll
    rw [Option.map_some, Option.toList_some, List.flatMap_singleton]
    exact hAll

theorem addAll_importWay_went (h : Through onLand ways pieces s) (k : WayClassifier) (all : List Way) :
    Went onLand (ways + (all.filterMap (handle? k)).length)
      (pieces ++ (all.filterMap (handle? k)).flatMap piecesOf) (s.addAll (ImportState.importWay k) all) := by
  have hAll := went_addAll (fun w => (handle? k w).toList.length)
    (fun w => (handle? k w).toList.flatMap piecesOf) (fun h w => importWay_went h k w) h all
  rw [← List.flatMap_assoc, ← List.length_flatMap, ← List.filterMap_eq_flatMap_toList] at hAll
  exact hAll

/-- An import into the empty network makes what the keys in the segments of its ways tell. It goes through
if there are ids for all of that, and fails otherwise. -/
theorem importWays_eq_plan (onLand : Point → Bool) (ways : List Way) (classifiers : List WayClassifier) :
    match importWays ⟨{ onLand }, .empty⟩ ways classifiers with
    | (none, s) =>
      Fits onLand (allPieces ways classifiers) ∧
      Made (landed onLand (met (allPieces ways classifiers))) (edges onLand (allPieces ways classifiers))
        (accepted ways classifiers).length (allPieces ways classifiers).length s
    | (some e, _) => e = .idsExhausted ∧ ¬Fits onLand (allPieces ways classifiers) := by
  have hStart : Through onLand 0 [] ⟨{ onLand }, .empty⟩ := Traced.start onLand
  have hAll := went_addAll (fun k => (ways.filterMap (handle? k)).length)
    (fun k => (ways.filterMap (handle? k)).flatMap piecesOf)
    (fun h k => addAll_importWay_went h k ways) hStart classifiers
  rw [← List.flatMap_assoc, ← List.length_flatMap, Nat.zero_add, List.nil_append] at hAll
  change Went onLand (accepted ways classifiers).length (allPieces ways classifiers) _ at hAll
  rw [importWays]
  split
  · next s hDone =>
    rw [hDone] at hAll
    exact ⟨⟨hAll.made.nodes_lt, hAll.made.edges_lt⟩, hAll.made⟩
  · next e s hFail =>
    rw [hFail] at hAll
    exact hAll

def inland (p : Point) : Bool := p.y < 40.0

/-- A way that stops at its second node and goes through a node off the land. -/
def lane : Way :=
  { id := 1, nodes := [⟨1, ⟨0.0, 0.0⟩⟩, ⟨2, ⟨10.0, 0.0⟩⟩, ⟨2, ⟨10.0, 0.0⟩⟩, ⟨3, ⟨20.0, 50.0⟩⟩, ⟨4, ⟨30.0, 0.0⟩⟩] }

/-- A way on a plane of its own, with other positions for keys of the lane. -/
def breakwater : Way :=
  { id := 2, nodes := [⟨4, ⟨99.0, 0.0⟩⟩, ⟨3, ⟨20.0, 0.0⟩⟩, ⟨1, ⟨5.0, 5.0⟩⟩, ⟨4, ⟨30.0, 0.0⟩⟩], plane := some ⟨1⟩ }

def tramways : WayClassifier := ⟨fun w => if w.plane = none then some .standard else none, fun _ => .onGround⟩

def streets : WayClassifier := ⟨fun _ => some (.ofSubnetwork 7 .street), fun _ => .unspecified⟩

theorem importWays_eq_plan_lane : ∃ s,
    importWays ⟨{ onLand := inland }, .empty⟩ [lane, breakwater] [tramways, streets] = (none, s) ∧
    Fits inland (allPieces [lane, breakwater] [tramways, streets]) ∧
    Made [⟨1, ⟨0.0, 0.0⟩⟩, ⟨2, ⟨10.0, 0.0⟩⟩, ⟨4, ⟨30.0, 0.0⟩⟩]
      [⟨⟨0⟩, ⟨1⟩, ⟨.standard, .onGround, none⟩⟩, ⟨⟨0⟩, ⟨1⟩, ⟨.ofSubnetwork 7 .street, .unspecified, none⟩⟩,
        ⟨⟨0⟩, ⟨2⟩, ⟨.ofSubnetwork 7 .street, .unspecified, some ⟨1⟩⟩⟩] 3 11 s := by
  have hPlan := importWays_eq_plan inland [lane, breakwater] [tramways, streets]
  have hDone : (importWays ⟨{ onLand := inland }, .empty⟩ [lane, breakwater] [tramways, streets]).1 = none := by
    decide +kernel
  obtain ⟨hNodes, hEdges, hWays, hSegments⟩ :
      landed inland (met (allPieces [lane, breakwater] [tramways, streets])) =
        [⟨1, ⟨0.0, 0.0⟩⟩, ⟨2, ⟨10.0, 0.0⟩⟩, ⟨4, ⟨30.0, 0.0⟩⟩] ∧
      edges inland (allPieces [lane, breakwater] [tramways, streets]) =
        [⟨⟨0⟩, ⟨1⟩, ⟨.standard, .onGround, none⟩⟩, ⟨⟨0⟩, ⟨1⟩, ⟨.ofSubnetwork 7 .street, .unspecified, none⟩⟩,
          ⟨⟨0⟩, ⟨2⟩, ⟨.ofSubnetwork 7 .street, .unspecified, some ⟨1⟩⟩⟩] ∧
      (accepted [lane, breakwater] [tramways, streets]).length = 3 ∧
      (allPieces [lane, breakwater] [tramways, streets]).length = 11 := by decide +kernel
  rw [hNodes, hEdges, hWays, hSegments] at hPlan
  generalize importWays ⟨{ onLand := inland }, .empty⟩ [lane, breakwater] [tramways, streets] = outcome
    at hPlan hDone
  obtain ⟨error, s⟩ := outcome
  cases hDone
  exact ⟨s, rfl, hPlan⟩

end TrackLayout.ImportState
