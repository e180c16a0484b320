import TrackLayout.Conversion
import TrackLayout.Proofs.Heights.SelectedRelaxation
import TrackLayout.Proofs.Heights.Simultaneous
import TrackLayout.Proofs.Network.Straightness

/-!
# Height planes are independent

Where no node has connections on two planes, every plane is placed as if it
were alone: the nodes on it end up at the same positions and with the same
rules as in a network that was built of this plane only. Nodes that a cleanup
splits off are on the plane of the node they were split off from. The rules of
a node name only nodes on its own plane.
-/
set_option autoImplicit false

namespace TrackLayout

namespace Network

/-- Some connection of the node is on the plane. -/
def isOn (net : Network) (plane : Option HeightPlane) (n : NodeId) : Bool :=
  net.connections.values.any fun c => c.plane == plane && c.touches n

/-- All connections of a node are on one plane. -/
def Unmixed (net : Network) : Prop :=
  ∀ c ∈ net.connections.values, ∀ d ∈ net.connections.values, ∀ n ∈ [c.start, c.stop],
    d.touches n = true → d.plane = c.plane

instance (net : Network) : Decidable net.Unmixed :=
  inferInstanceAs (Decidable (∀ c ∈ net.connections.values, ∀ d ∈ net.connections.values,
    ∀ n ∈ [c.start, c.stop], d.touches n = true → d.plane = c.plane))

variable {S : Selection} {net part clean : Network} {plane : Option HeightPlane} {n : NodeId}

theorem isOn_iff : net.isOn plane n = true ↔
    ∃ id c, net.connection? id = some c ∧ c.plane = plane ∧ c.touches n = true := by
  rw [isOn, List.any_eq_true]
  constructor
  · rintro ⟨c, hc, hBoth⟩
    obtain ⟨id, hId⟩ := Table.mem_values.mp hc
    rw [Bool.and_eq_true, beq_iff_eq] at hBoth
    exact ⟨id, c, hId, hBoth⟩
  · rintro ⟨id, c, hc, hPlane, hTouches⟩
    refine ⟨c, Table.mem_values.mpr ⟨id, hc⟩, ?_⟩
    rw [Bool.and_eq_true, beq_iff_eq]
    exact ⟨hPlane, hTouches⟩

theorem Unmixed.divides (h : net.Unmixed) (plane : Option HeightPlane) : net.Divides plane (net.isOn plane) := by
  intro id c hc n hTouches
  rw [isOn_iff]
  constructor
  · rintro ⟨other, d, hd, rfl, hAlso⟩
    have hEnd : n ∈ [d.start, d.stop] := by
      rw [Connection.touches, Bool.or_eq_true, beq_iff_eq, beq_iff_eq] at hAlso
      simpa [eq_comm] using hAlso
    exact h d (Table.mem_values.mpr ⟨other, hd⟩) c (Table.mem_values.mpr ⟨id, hc⟩) n hEnd hTouches
  · intro hPlane
    exact ⟨id, c, hc, hPlane, hTouches⟩

/-- A clean network has its nodes where there were nodes before. -/
theorem Repairs.placed {k : Nat} (h : Repairs net.prune net.prune.nodes.ids k clean) (hNet : net.WellFormed)
    (hPlaced : net.Placed) : clean.Placed := by
  intro i hi
  obtain ⟨m, hm⟩ := Table.mem_values.mp hi
  obtain ⟨n, j, hj, hPoint, -⟩ := h.exists_origin hNet.prune hm
  rw [hPoint]
  exact hPlaced j (Table.mem_values.mpr ⟨n, (node?_of_prune hj).1⟩)

theorem Tracked.of_bare {other : Network} (hTracked : net.Tracked) (h : other.bare = net.bare) :
    other.Tracked := by
  intro n j hj
  have hTracks := node?_congr_of_bare h Junction.tracks (fun _ => rfl) n
  rw [hj, Option.map_some] at hTracks
  obtain ⟨i, hi, hSame⟩ := Option.map_eq_some_iff.mp hTracks.symm
  rw [← hSame]
  exact hTracked hi

/-- The nodes of `other` are those that `net` has on a plane, in the same order and renamed, at the same
positions and with the same rules. -/
structure Mirrors (net other : Network) (plane : Option HeightPlane) (ρ : NodeId → NodeId) : Prop where
  increasing : ∀ m n, net.isOn plane m = true → net.isOn plane n = true → m.val < n.val → (ρ m).val < (ρ n).val
  nodes : other.nodes.toList.map (fun e => (e.1, e.2.position, e.2.rules)) =
    (net.nodes.toList.filter fun e => net.isOn plane e.1).map fun e =>
      (ρ e.1, e.2.position, e.2.rules.map (·.rename ρ))
  /-- No rule names a node of another plane. -/
  closed : ∀ n j, net.node? n = some j → net.isOn plane n = true → ∀ r ∈ j.rules,
    ∀ m, m ∈ r.read ∨ r.linked? = some m → ∀ other, net.isOn other m = true → other = plane

/-- What is selected of a network that is kept in part and then cleaned up. Nodes that were split off are
selected by their connections. -/
def planeSelection (net clean : Network) (plane : Option HeightPlane) (keep : NodeId → Bool) : Selection where
  plane
  node n := if n.val < net.nodes.counter.next then keep n else clean.isOn plane n
  connection id := (net.connection? id).any (·.plane == plane)

namespace Selects

section Finished

variable (h : net.Selects S part)
include h

theorem node_of_isOn (hOn : net.isOn S.plane n = true) : S.node n = true := by
  obtain ⟨id, c, hc, hPlane, hTouches⟩ := isOn_iff.mp hOn
  rw [← h.of_touches hc hTouches]
  exact (h.plane hc).mpr hPlane

/-- In a network without bare nodes the selected nodes are those on the plane. -/
theorem isOn_eq (hTracked : net.Tracked) {j : Junction} (hj : net.node? n = some j) :
    net.isOn S.plane n = S.node n := by
  rw [Bool.eq_iff_iff]
  constructor
  · exact h.node_of_isOn
  · intro hn
    obtain ⟨t, ht⟩ := List.exists_mem_of_ne_nil _ (hTracked hj)
    obtain ⟨c, hc, hTouches⟩ := h.whole.exists_connection hj ht
    exact isOn_iff.mpr ⟨t.connection, c, hc, (h.plane hc).mp (h.tracks hj hn t ht), hTouches⟩

theorem mirrors (hTracked : net.Tracked) : net.Mirrors part S.plane S.nodeId where
  increasing m n hm _ hLess := renumber_lt (h.node_of_isOn hm) hLess
  nodes := by
    have hFilter : (net.nodes.toList.filter fun e => S.node e.1) =
        net.nodes.toList.filter fun e => net.isOn S.plane e.1 :=
      List.filter_congr fun e he => (h.isOn_eq hTracked (Table.mem_toList.mp he)).symm
    rw [h.nodes.toList_eq, List.map_map, hFilter]
    rfl
  closed n j hj hOn r hr m hm other hOther := by
    have hn := h.node_of_isOn hOn
    have hNamed : S.node m = true := by
      rcases hm with hRead | hLinked
      · exact h.read hj hn r hr m hRead
      · exact (h.links hj m (List.mem_filterMap.mpr ⟨r, hr, hLinked⟩)).trans hn
    obtain ⟨id, c, hc, rfl, hTouches⟩ := isOn_iff.mp hOther
    rw [← h.plane hc, h.of_touches hc hTouches]
    exact hNamed

end Finished

theorem keeps {keep : NodeId → Bool} (hDivides : net.Divides plane keep) :
    Keeps (planeSelection net clean plane keep) keep net where
  node n hn := if_pos hn
  connection {id c} hc := by simp [planeSelection, hc]
  divides := hDivides

theorem agrees {keep : NodeId → Bool} (hNet : net.WellFormed) (hDivides : net.Divides plane keep) {k : Nat}
    (hRepairs : Repairs net.prune net.prune.nodes.ids k clean) :
    Agrees (planeSelection net clean plane keep) clean := by
  have hClean := hRepairs.changes.wellFormed hNet.prune
  have hPlane {id : ConnectionId} {c : Connection} (hc : clean.connection? id = some c) :
      (planeSelection net clean plane keep).connection id = true ↔ c.plane = plane := by
    have hLoose := Table.get?_of_map_eq (hRepairs.loose hNet.prune) id
    rw [show clean.connections.get? id = some c from hc] at hLoose
    obtain ⟨d, hd, hSame⟩ := Option.map_eq_some_iff.mp hLoose.symm
    have hPlanes : d.plane = c.plane := (Connection.loose_eq_iff.mp hSame).2.2.2.2.2.2.2
    rw [← hPlanes]
    exact (keeps hDivides).connection hd
  intro m i hi
  -- all tracks of a node were tracks of one node before, and that node was kept or not
  obtain ⟨n, j, hj, -, hSub, hSame⟩ := hRepairs.exists_origin hNet.prune hi
  have hOrigin : ∀ id ∈ i.connections, (planeSelection net clean plane keep).connection id = keep n := by
    intro id hId
    have hOld := hSub hId
    rw [hNet.mem_connections (node?_of_prune hj).1, Option.any_eq_true] at hOld
    obtain ⟨d, hd, hTouches⟩ := hOld
    rw [Bool.eq_iff_iff, hDivides hd hTouches]
    exact (keeps hDivides).connection hd
  intro id hId
  by_cases hm : m.val < net.nodes.counter.next
  · have hIssued : net.prune.nodes.HasIssued m := (follows_prune net).nodes hm
    rw [hOrigin id hId, hSame hIssued]
    exact (if_pos hm).symm
  · have hNode : (planeSelection net clean plane keep).node m = clean.isOn plane m := if_neg hm
    rw [hNode, Bool.eq_iff_iff, isOn_iff]
    constructor
    · intro hKept
      have hAttached := (hClean.mem_connections hi id).mp hId
      obtain ⟨c, hc, hTouches⟩ := (Option.any_eq_true _ _).mp hAttached
      exact ⟨id, c, hc, (hPlane hc).mp hKept, hTouches⟩
    · rintro ⟨other, d, hd, hOn, hTouches⟩
      have hAlso : other ∈ i.connections :=
        (hClean.mem_connections hi other).mpr ((Option.any_eq_true _ _).mpr ⟨d, hd, hTouches⟩)
      rw [hOrigin id hId, ← hOrigin other hAlso]
      exact (hPlane hd).mpr hOn

end Selects

end Network

/-! ## Finishing both networks -/

namespace Converter

open Network

variable {c : Converter} {ground : Ground} {net clean part : Network} {out : Finished}

/-- What is made of a network that is clean. -/
def heights (c : Converter) (ground : Ground) (clean : Network) : Network :=
  ((clean.markStraight.deriveHeights ground c.settings.rules).network.relaxWhile c.settings.solver
    fun _ _ => true).network

/-- What is made of a network that is clean if flags and rules are written all at once. -/
def finished (c : Converter) (ground : Ground) (goOn : GoOn) (cleanup : CleanupReport) (clean : Network) : Finished :=
  let derived := clean.markStraight.deriveHeights ground c.settings.rules
  let relaxed := derived.network.relaxWhile c.settings.solver goOn
  { network := relaxed.network
    report := {
      cleanup
      straightConnections := clean.markStraight.straightCount
      heightRules := derived.added
      relaxation := relaxed.report }
    warnings := derived.warnings
    passes := relaxed.passes }

/-- Only the cleanup can fail, and edits one after the other come to the same as all at once. -/
theorem finishWhile_eq (hNet : net.WellFormed) (c : Converter) (ground : Ground) (goOn : GoOn) :
    c.finishWhile net ground goOn = net.cleanup.map fun cleaned => c.finished ground goOn cleaned.1 cleaned.2 := by
  rw [finishWhile]
  cases hCleanup : net.cleanup with
  | error e => rfl
  | ok cleaned =>
    obtain ⟨report, clean⟩ := cleaned
    have hClean : clean.WellFormed := (hNet.repairs_of_cleanup hCleanup).changes.wellFormed hNet.prune
    simp only [bind, Except.bind, hClean.markByEdits_eq, deriveByEdits_eq]
    rfl

theorem exists_finish_iff (hNet : net.WellFormed) {final : Network} :
    (∃ out, c.finish net ground = .ok out ∧ out.network = final) ↔
      ∃ report clean, net.cleanup = .ok (report, clean) ∧ final = c.heights ground clean := by
  rw [finish, finishWhile_eq hNet]
  cases net.cleanup with
  | error e =>
    constructor
    · rintro ⟨out, hOut, -⟩
      cases hOut
    · rintro ⟨report, clean, hClean, -⟩
      cases hClean
  | ok cleaned =>
    constructor
    · rintro ⟨out, hOut, rfl⟩
      cases hOut
      exact ⟨cleaned.1, cleaned.2, rfl, rfl⟩
    · rintro ⟨report, clean, hClean, rfl⟩
      cases hClean
      exact ⟨_, rfl, rfl⟩

theorem bare_heights (c : Converter) (ground : Ground) (clean : Network) :
    (c.heights ground clean).bare = clean.bare := by
  rw [heights, bare_relaxWhile, bare_deriveHeights, bare_markStraight]

theorem selects_heights (c : Converter) (ground : Ground) {S : Selection} (h : clean.Selects S part) (hPlaced : clean.Placed) :
    (c.heights ground clean).Selects S (c.heights ground part) := by
  have hDrawn : clean.markStraight.Placed := hPlaced.of_bare (bare_markStraight clean)
  exact (h.markStraight.deriveHeights c.settings.rules ground hDrawn).relaxWhile c.settings.solver

/-- A plane is placed as if it were alone: finishing the whole network and finishing a network that was
built by the calls for one plane only leave the same heights and rules on that plane. -/
theorem finish_restrict (c : Converter) (ground : Ground) {calls : List Call} {plane : Option HeightPlane}
    {keep : NodeId → Bool} {net : Network} {out : Finished} (hBuilt : build calls = .ok net)
    (hPlaced : net.Placed) (hDivides : net.Divides plane keep) (hFinish : c.finish net ground = .ok out) :
    ∃ part out' ρ, build (restrict plane keep calls) = .ok part ∧ c.finish part ground = .ok out' ∧
      out.network.Mirrors out'.network plane ρ := by
  obtain ⟨report, clean, hCleanup, hHeights⟩ :=
    (exists_finish_iff (wellFormed_build hBuilt)).mp ⟨out, hFinish, rfl⟩
  obtain ⟨part, hPart, hSelects⟩ := Selects.build (S := planeSelection net clean plane keep) hBuilt
    (Selects.keeps hDivides)
  have hRepairs := hSelects.whole.repairs_of_cleanup hCleanup
  obtain ⟨report', clean', hCleanup', hClean⟩ := hSelects.cleanup hCleanup
    (Selects.agrees hSelects.whole hDivides hRepairs)
  obtain ⟨out', hFinish', hHeights'⟩ :
      ∃ out', c.finish part ground = .ok out' ∧ out'.network = c.heights ground clean' :=
    (exists_finish_iff hSelects.own).mpr ⟨report', clean', hCleanup', rfl⟩
  have hFinal : out.network.Selects (planeSelection net clean plane keep) out'.network := by
    rw [hHeights, hHeights']
    exact selects_heights c ground hClean (hRepairs.placed hSelects.whole hPlaced)
  have hTracked : out.network.Tracked := by
    refine (hRepairs.tracked hSelects.whole.prune (tracked_prune net)).of_bare ?_
    rw [hHeights, bare_heights]
  exact ⟨part, out', _, hPart, hFinish', hFinal.mirrors hTracked⟩

/-- A track with a corner, and another one on a plane of its own that crosses it. -/
def overpass : List Call :=
  [.addNode { point := ⟨-20.0, 0.0⟩ }, .addNode { point := ⟨0.0, -20.0⟩ }, .addNode { point := ⟨20.0, 0.0⟩ },
    .addNode { point := ⟨0.0, 20.0⟩ }, .addNode { point := ⟨20.0, 30.0⟩ }, .connect ⟨0⟩ ⟨2⟩ {},
    .connect ⟨1⟩ ⟨3⟩ { plane := some ⟨1⟩ }, .connect ⟨2⟩ ⟨4⟩ {}]

def usual : Converter := ⟨{}, by decide +kernel⟩

theorem finish_restrict_overpass : ∃ net out, build overpass = .ok net ∧ net.Placed ∧
    net.Divides none (net.isOn none) ∧ usual.finish net (fun _ => 0.0) = .ok out ∧
      ∃ part out' ρ, build (restrict none (net.isOn none) overpass) = .ok part ∧
        usual.finish part (fun _ => 0.0) = .ok out' ∧ out.network.Mirrors out'.network none ρ := by
  have hCheck : (build overpass).toOption.any (fun net =>
      decide net.Placed && decide net.Unmixed && net.cleanup.toOption.isSome) = true := by decide +kernel
  cases hBuilt : build overpass with
  | error e =>
    rw [hBuilt] at hCheck
    cases hCheck
  | ok net =>
    simp only [hBuilt, Except.toOption, Option.any_some, Bool.and_eq_true, decide_eq_true_eq] at hCheck
    obtain ⟨⟨hPlaced, hUnmixed⟩, hCleanup⟩ := hCheck
    cases hClean : net.cleanup with
    | error e =>
      rw [hClean] at hCleanup
      cases hCleanup
    | ok cleaned =>
      obtain ⟨out, hFinish, -⟩ := (exists_finish_iff (wellFormed_build hBuilt)).mpr ⟨cleaned.1, cleaned.2, hClean, rfl⟩
      have hDivides := hUnmixed.divides none
      exact ⟨net, out, rfl, hPlaced, hDivides, hFinish,
        finish_restrict usual (fun _ => 0.0) hBuilt hPlaced hDivides hFinish⟩

end Converter

end TrackLayout
