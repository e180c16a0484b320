import TrackLayout.Proofs.Heights.Planes
import TrackLayout.Proofs.Import.Counts
import TrackLayout.Proofs.Snapshot.Closed

/-!
# Accounts of a conversion

Every phase of a conversion counts what it does, and what the other phases do
leaves its count right: a cleanup adds and removes nodes, but no connections
and no rules that rate anything, and the phases after it change nothing but
flags, rules and elevations. So the report accounts for the network that is
returned. A conversion fails only for want of ids.
-/
set_option autoImplicit false

namespace TrackLayout.Converter

open Network

/-- The report accounts for the network, given how many nodes and connections there were before the
cleanup. -/
structure Account (c : Converter) (nodes connections : Nat) (p : Finished) : Prop where
  connections : p.network.connections.size = connections
  pruned_le : p.report.cleanup.pruned ≤ nodes
  nodes : p.network.nodes.size = nodes - p.report.cleanup.pruned + p.report.cleanup.split
  attached : ∀ j ∈ p.network.nodes.values, j.connections ≠ []
  elevation : ∀ j ∈ p.network.nodes.values, j.elevation.isSome = true
  straight : p.report.straightConnections = p.network.connections.values.countP (·.straight)
  rules : p.report.heightRules = (p.network.nodes.values.flatMap (·.rules)).countP (!·.isLink)
  passes : p.report.relaxation.passes = c.settings.solver.iterations.toNat
  snapshot : p.network.snapshot.Closed

variable {net clean : Network} {report : CleanupReport}

/-! ## After the cleanup -/

section Heights

variable (c : Converter) (ground : Ground) (clean : Network)

theorem connections_heights : (c.heights ground clean).connections = clean.markStraight.connections := by
  have hMove : ∀ (net : Network) (n : NodeId) (z : Float),
      (net.modifyNode n (·.withElevation z)).connections = net.connections := fun _ _ _ => rfl
  rw [heights, view_relaxWhile hMove, connections_deriveHeights]

theorem elevated_heights : (c.heights ground clean).Elevated :=
  relaxWhile_invariant (fun _ n _ z _ h => h.withElevation n z) _ _
    (elevated_deriveHeights c.settings.rules ground clean.markStraight)

/-- The rules that rate anything are those that were derived. -/
theorem ratingCount_heights (h : clean.Unrated) : (c.heights ground clean).ratingCount =
    (clean.markStraight.deriveHeights ground c.settings.rules).added := by
  have hDrawn : clean.markStraight.Unrated := fun _ _ hj => h hj
  rw [heights, view_relaxWhile ratingCount_withElevation, ratingCount_deriveHeights, hDrawn.ratingCount,
    Nat.zero_add]

end Heights

/-! ## All phases -/

/-- What is made of a clean network is accounted for. -/
theorem account_of_cleanedUp (c : Converter) (ground : Ground) (hNet : net.WellFormed) (hUnrated : net.Unrated)
    (h : CleanedUp net report clean) {p : Finished} (hNetwork : p.network = c.heights ground clean)
    (hCleanup : p.report.cleanup = report) (hStraight : p.report.straightConnections = clean.markStraight.straightCount)
    (hRules : p.report.heightRules = (clean.markStraight.deriveHeights ground c.settings.rules).added)
    (hPasses : p.report.relaxation.passes = c.settings.solver.iterations.toNat) :
    c.Account net.nodes.size net.connections.size p := by
  have hClean : clean.WellFormed := h.repairs.changes.wellFormed hNet.prune
  have hBare := bare_heights c ground clean
  have hElevated := elevated_heights c ground clean
  have hNodes : (c.heights ground clean).nodes.size = clean.nodes.size :=
    Table.size_of_map_eq (congrArg Network.nodes hBare)
  have hConnections := connections_heights c ground clean
  have hSize := h.size
  have hPruned : report.pruned ≤ net.nodes.size := by
    rw [h.pruned]
    exact List.countP_le_length
  exact {
    connections := by
      rw [hNetwork, hConnections, Table.size_eq_length, markStraight, Table.ids_map, h.connectionIds,
        Table.size_eq_length]
    pruned_le := by
      rw [hCleanup]
      exact hPruned
    nodes := by
      rw [hNetwork, hCleanup, hNodes]
      omega
    attached := by
      intro j hj
      rw [hNetwork] at hj
      obtain ⟨n, hn⟩ := Table.mem_values.mp hj
      obtain ⟨i, hi, -, -, hTracks, -⟩ := exists_node_of_bare hBare.symm hn
      have hTracked := h.tracked hi
      rw [hTracks] at hTracked
      rw [Junction.connections]
      exact mt List.map_eq_nil_iff.mp hTracked
    elevation := by
      intro j hj
      rw [hNetwork] at hj
      obtain ⟨n, hn⟩ := Table.mem_values.mp hj
      exact hElevated hn
    straight := by
      rw [hStraight, hNetwork, hConnections]
      rfl
    rules := by
      rw [hRules, hNetwork]
      exact (ratingCount_heights c ground clean (h.repairs.unrated hNet.prune hUnrated.prune)).symm
    passes := hPasses
    snapshot := by
      rw [hNetwork]
      exact (hClean.of_bare hBare.symm).snapshot_closed hElevated }

/-- Finishing a network accounts for what it makes of it, unless ids run out. -/
theorem finish_account (c : Converter) (ground : Ground) (hNet : net.WellFormed) (hUnrated : net.Unrated) :
    match c.finish net ground with
    | .error e => e = .idsExhausted ∧ UInt32.size ≤ net.nodes.slots.size + 2 * net.connections.size
    | .ok p => c.Account net.nodes.size net.connections.size p := by
  have hOutcome := hNet.cleanup_outcome
  rw [finish, finishWhile_eq hNet]
  cases hCleanup : net.cleanup with
  | error e =>
    rw [hCleanup] at hOutcome
    obtain ⟨hExhausted, hSize⟩ := hOutcome
    exact ⟨hExhausted, by omega⟩
  | ok cleaned =>
    rw [hCleanup] at hOutcome
    exact account_of_cleanedUp c ground hNet hUnrated hOutcome rfl rfl rfl rfl (length_passes ..)

end TrackLayout.Converter
