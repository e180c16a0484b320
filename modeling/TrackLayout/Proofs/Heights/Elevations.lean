import TrackLayout.Proofs.Conversion
import TrackLayout.Proofs.Heights.Costs

/-!
# Elevations that are numbers

Costs may be infinite or undefined where tracks have no length, and whatever a
rule suggests may be out of all proportion. A node moves only to a height whose
cost was found to be less than another one, so no move leaves the finite
numbers, and every node of a converted network has an elevation that is one.
-/
set_option autoImplicit false

namespace TrackLayout.Converter

open Binary64 Network

theorem idsExhausted_of_convert {c : Converter} {ways : List Way} {classifiers : List WayClassifier}
    {ground : Ground} {e : NetworkError} (hConvert : c.convert ways classifiers ground = .error e) :
    e = .idsExhausted := by
  have hCounted := ImportState.importWays_counted (fun _ => true) ways classifiers
  have hKept : ImportState.Kept (fun net => net.WellFormed ∧ net.Unrated) ways classifiers :=
    ⟨fun _ _ hAdded h => ⟨hAdded.wellFormed h.1, hAdded.unrated h.2⟩,
      fun _ _ _ hConnected h => ⟨hConnected.wellFormed h.1, hConnected.unrated h.2⟩⟩
  have hImported := hKept.importWays (s := ⟨{}, .empty⟩) ⟨empty_wellFormed, unrated_empty⟩
  rw [convert] at hConvert
  generalize ImportState.importWays ⟨{}, .empty⟩ ways classifiers = imported at hCounted hImported hConvert
  obtain ⟨_ | failure, s⟩ := imported
  · have hFinish := finish_account c ground hImported.1 hImported.2
    dsimp only at hConvert
    cases hOut : c.finish s.network ground with
    | ok p =>
      rw [hOut] at hConvert
      cases hConvert
    | error failure =>
      rw [hOut] at hFinish hConvert
      cases hConvert
      exact hFinish.1
  · cases hConvert
    exact hCounted.1

/-- Whatever the positions, tracks without length included, a conversion under the default settings gives
every node an elevation that is a finite number, also where the ground is unknown. -/
theorem finite_elevations {ways : List Way} {classifiers : List WayClassifier} {ground : Ground}
    (hWays : ∀ w ∈ ways, ∀ n ∈ w.nodes, n.position.x.abs ≤ 1e6 ∧ n.position.y.abs ≤ 1e6)
    (hTypes : ∀ k ∈ classifiers, ∀ w ∈ ways, ∀ t, k.trackType? w = some t →
      ∃ id subnetwork, t = .ofSubnetwork id subnetwork)
    (hGround : ∀ q, (ground q).isNaN = true ∨ (ground q).abs ≤ 1e6) :
    match usual.convert ways classifiers ground with
    | .error e => e = .idsExhausted
    | .ok p => ∀ j ∈ p.network.nodes.values,
        ∃ z, j.elevation = some z ∧ z.isNaN = false ∧ z.isInf = false := by
  cases hConvert : usual.convert ways classifiers ground with
  | error e => exact idsExhausted_of_convert hConvert
  | ok p =>
    obtain ⟨hNet, hSourced⟩ := sourced_importWays hWays hTypes
    obtain ⟨report, clean, derived, hClean, hDerived, hNetwork, -, -⟩ := exists_of_convert hConvert
    have hTethered : derived.Tethered (2 ^ (21 : ℤ)) := by
      rw [hDerived]
      exact (hSourced.mapped hNet hClean).1.tethered_deriveHeights fun q =>
        (hGround q).imp_right near_of_abs_le
    have hRelaxed : p.network.Tethered (2 ^ (320 : ℤ)) := by
      rw [hNetwork]
      exact (hTethered.mono (zpow_le_zpow_right₀ (by norm_num) (by decide))).relaxWhile _
    have hElevated : p.network.Elevated := by
      rw [hNetwork, hDerived]
      exact elevated_heights usual ground clean
    intro j hj
    obtain ⟨n, hn⟩ := Table.mem_values.mp hj
    obtain ⟨z, hz⟩ := Option.isSome_iff_exists.mp (hElevated hn)
    obtain ⟨v, hv, -⟩ := hRelaxed.heights n z (Option.bind_eq_some_iff.mpr ⟨j, hn, hz⟩)
    exact ⟨z, hz, hv.isNaN, hv.isInf⟩

/-- Ground that is known in the east only. -/
def coast : Ground := fun q => if q.x < 50.0 then 0.0 / 0.0 else 12.0

theorem finite_elevations_stacked : ∃ p, usual.convert [stacked] [railways] coast = .ok p ∧
    p.network.nodes.size = 2 ∧
      ∀ j ∈ p.network.nodes.values, ∃ z, j.elevation = some z ∧ z.isNaN = false ∧ z.isInf = false := by
  have hCheck : (usual.convert [stacked] [railways] coast).toOption.any
      (fun p => p.network.nodes.size == 2) = true := by decide +kernel
  have hWays : ∀ w ∈ [stacked], ∀ n ∈ w.nodes, n.position.x.abs ≤ 1e6 ∧ n.position.y.abs ≤ 1e6 := by
    decide +kernel
  have hTypes : ∀ k ∈ [railways], ∀ w ∈ [stacked], ∀ t, k.trackType? w = some t →
      ∃ id subnetwork, t = .ofSubnetwork id subnetwork := by
    intro k hk w hw t ht
    rw [List.mem_singleton.mp hk] at ht
    exact ⟨1, .rail, (Option.some.inj ht).symm⟩
  have hGround : ∀ q, (coast q).isNaN = true ∨ (coast q).abs ≤ 1e6 := by
    intro q
    unfold coast
    split
    · exact .inl (by decide +kernel)
    · exact .inr (by decide +kernel)
  have hFinite := finite_elevations hWays hTypes hGround
  cases hConvert : usual.convert [stacked] [railways] coast with
  | error e =>
    rw [hConvert] at hCheck
    cases hCheck
  | ok p =>
    rw [hConvert] at hCheck hFinite
    exact ⟨p, rfl, eq_of_beq hCheck, hFinite⟩

end TrackLayout.Converter
