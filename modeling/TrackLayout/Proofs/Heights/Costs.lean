import TrackLayout.Proofs.Heights.Planes
import TrackLayout.Proofs.Heights.Scene

/-!
# Costs that are numbers

An incline is a quotient of heights and a length. Two source nodes at one place
are two nodes of the network if their keys differ, and the connection between
them has no length. Where every connection has a length that is not extremely
small, all costs are numbers, whatever the positions.
-/
set_option autoImplicit false

namespace TrackLayout.Converter

open Binary64 Network

def railways : WayClassifier := ⟨fun _ => some (.ofSubnetwork 1 .rail), fun _ => .unspecified⟩

/-- A way of two keys at one place. -/
def stacked : Way := { id := 1, nodes := [⟨1, ⟨0.0, 0.0⟩⟩, ⟨2, ⟨0.0, 0.0⟩⟩] }

/-- The incline between two nodes at one place and at one height is zero by zero. -/
theorem isNaN_cost_stacked : ∃ p, usual.convert [stacked] [railways] (fun _ => 0.0) = .ok p ∧
    p.report.relaxation.initialCost.isNaN = true ∧ p.report.relaxation.finalCost.isNaN = true := by
  have hCheck : (usual.convert [stacked] [railways] fun _ => 0.0).toOption.any (fun p =>
      p.report.relaxation.initialCost.isNaN && p.report.relaxation.finalCost.isNaN) = true := by
    decide +kernel
  cases hConvert : usual.convert [stacked] [railways] fun _ => 0.0 with
  | error e =>
    rw [hConvert] at hCheck
    cases hCheck
  | ok p =>
    rw [hConvert] at hCheck
    simp only [Except.toOption, Option.any_some, Bool.and_eq_true] at hCheck
    exact ⟨p, rfl, hCheck⟩

theorem near_of_abs_le {x : Float} (h : x.abs ≤ 1e6) : Near x 20 := by
  obtain ⟨w, hw, hHigh⟩ : Near 1e6 20 := near_rational (by decide +kernel)
  obtain ⟨v, hv⟩ := denotes_of_abs_le hw h
  exact ⟨v, hv, ((hv.abs.le_iff hw).mp h).trans ((le_abs_self w).trans hHigh)⟩

theorem sourced_importWays {ways : List Way} {classifiers : List WayClassifier}
    (hWays : ∀ w ∈ ways, ∀ n ∈ w.nodes, n.position.x.abs ≤ 1e6 ∧ n.position.y.abs ≤ 1e6)
    (hTypes : ∀ k ∈ classifiers, ∀ w ∈ ways, ∀ t, k.trackType? w = some t →
      ∃ id subnetwork, t = .ofSubnetwork id subnetwork) :
    (ImportState.importWays ⟨{}, .empty⟩ ways classifiers).2.network.WellFormed ∧
      (ImportState.importWays ⟨{}, .empty⟩ ways classifiers).2.network.Sourced := by
  have hKept : ImportState.Kept (fun net => net.WellFormed ∧ net.Sourced) ways classifiers := by
    refine ⟨fun hw hn hAdded h => ?_, fun hw hk ht hConnected h => ?_⟩
    · obtain ⟨hx, hy⟩ := hWays _ hw _ hn
      exact ⟨hAdded.wellFormed h.1, hAdded.sourced ⟨near_of_abs_le hx, near_of_abs_le hy⟩ h.2⟩
    · obtain ⟨id, subnetwork, rfl⟩ := hTypes _ hk _ hw _ ht
      exact ⟨hConnected.wellFormed h.1, hConnected.sourced ⟨subnetwork, rfl⟩ h.2⟩
  exact hKept.importWays (s := ⟨{}, .empty⟩) ⟨empty_wellFormed, sourced_empty⟩

/-- The costs that a conversion reports are those of the heights it starts from and of the network it
returns. -/
theorem exists_of_convert {c : Converter} {ways : List Way} {classifiers : List WayClassifier}
    {ground : Ground} {p : Finished} (hConvert : c.convert ways classifiers ground = .ok p) :
    ∃ report clean derived, (ImportState.importWays ⟨{}, .empty⟩ ways classifiers).2.network.cleanup =
        .ok (report, clean) ∧ derived = (clean.markStraight.deriveHeights ground c.settings.rules).network ∧
      p.network = (derived.relaxWhile c.settings.solver fun _ _ => true).network ∧
      p.report.relaxation.initialCost = derived.costSum ∧ p.report.relaxation.finalCost = p.network.costSum := by
  have hNet := wellFormed_run [.importWays {} ways classifiers]
  change (ImportState.importWays ⟨{}, .empty⟩ ways classifiers).2.network.WellFormed at hNet
  rw [convert] at hConvert
  split at hConvert
  · cases hConvert
  · next s hImport =>
    rw [hImport] at hNet ⊢
    rw [finish, finishWhile_eq hNet] at hConvert
    cases hClean : s.network.cleanup with
    | error e =>
      rw [hClean] at hConvert
      cases hConvert
    | ok cleaned =>
      rw [hClean] at hConvert
      cases hConvert
      exact ⟨cleaned.1, cleaned.2, _, rfl, rfl, rfl, rfl, rfl⟩

/-- Costs of a conversion under the default settings are numbers if no connection is shorter than a bound
far below the resolution of the coordinates. -/
theorem isNaN_cost_of_length {ways : List Way} {classifiers : List WayClassifier} {ground : Ground}
    {p : Finished}
    (hWays : ∀ w ∈ ways, ∀ n ∈ w.nodes, n.position.x.abs ≤ 1e6 ∧ n.position.y.abs ≤ 1e6)
    (hTypes : ∀ k ∈ classifiers, ∀ w ∈ ways, ∀ t, k.trackType? w = some t →
      ∃ id subnetwork, t = .ofSubnetwork id subnetwork)
    (hGround : ∀ q, (ground q).abs ≤ 1e6) (hConvert : usual.convert ways classifiers ground = .ok p)
    (hLength : ∀ c ∈ p.network.connections.values, 1e-18 ≤ c.length) :
    p.report.relaxation.initialCost.isNaN = false ∧ p.report.relaxation.finalCost.isNaN = false := by
  obtain ⟨hNet, hSourced⟩ := sourced_importWays hWays hTypes
  obtain ⟨report, clean, derived, hClean, hDerived, hNetwork, hInitial, hFinal⟩ := exists_of_convert hConvert
  have hBare : p.network.bare = clean.markStraight.bare := by
    rw [hNetwork, bare_relaxWhile, hDerived, bare_deriveHeights]
  obtain ⟨hSurveyed, hDrawn⟩ := hSourced.surveyed hNet hClean fun id c hc => by
    obtain ⟨d, hd, -, -, -, hStart, hStop, -⟩ := exists_connection_of_bare hBare hc
    rw [Connection.length, Connection.segment, ← hStart, ← hStop]
    exact hLength d (Table.mem_values.mpr ⟨id, hd⟩)
  have hCalm : derived.Calm (2 ^ (21 : ℤ)) :=
    hDerived ▸ hSurveyed.calm_deriveHeights (fun n j hj => hDrawn.moderate hj) fun q => near_of_abs_le (hGround q)
  rw [hInitial, hFinal, hNetwork]
  constructor
  · exact (hCalm.mono (zpow_le_zpow_right₀ (by norm_num) (by decide))).isNaN_costSum
  · have hWide : derived.Calm (2 ^ (314 : ℤ)) := hCalm.mono (zpow_le_zpow_right₀ (by norm_num) (by decide))
    exact (hWide.relaxWhile _).isNaN_costSum

/-- A way of two keys that are apart. -/
def siding : Way := { id := 1, nodes := [⟨1, ⟨0.0, 0.0⟩⟩, ⟨2, ⟨100.0, 0.0⟩⟩] }

theorem isNaN_cost_siding : ∃ p, usual.convert [siding] [railways] (fun _ => 0.0) = .ok p ∧
    (∀ c ∈ p.network.connections.values, 1e-18 ≤ c.length) ∧
      p.report.relaxation.initialCost.isNaN = false ∧ p.report.relaxation.finalCost.isNaN = false := by
  have hCheck : (usual.convert [siding] [railways] fun _ => 0.0).toOption.any (fun p =>
      p.network.connections.values.all fun c => 1e-18 ≤ c.length) = true := by decide +kernel
  cases hConvert : usual.convert [siding] [railways] fun _ => 0.0 with
  | error e =>
    rw [hConvert] at hCheck
    cases hCheck
  | ok p =>
    rw [hConvert] at hCheck
    simp only [Except.toOption, Option.any_some, List.all_eq_true, decide_eq_true_eq] at hCheck
    have hWays : ∀ w ∈ [siding], ∀ n ∈ w.nodes, n.position.x.abs ≤ 1e6 ∧ n.position.y.abs ≤ 1e6 := by
      decide +kernel
    have hTypes : ∀ k ∈ [railways], ∀ w ∈ [siding], ∀ t, k.trackType? w = some t →
        ∃ id subnetwork, t = .ofSubnetwork id subnetwork := by
      intro k hk w hw t ht
      rw [List.mem_singleton.mp hk] at ht
      exact ⟨1, .rail, (Option.some.inj ht).symm⟩
    have hGround : (0.0 : Float).abs ≤ 1e6 := by decide +kernel
    exact ⟨p, rfl, hCheck, isNaN_cost_of_length hWays hTypes (fun _ => hGround) hConvert hCheck⟩

end TrackLayout.Converter
