import TrackLayout.Proofs.Binary64.Whole
import TrackLayout.Proofs.Heights.Simultaneous
import TrackLayout.Proofs.Network.Attachments
import TrackLayout.Proofs.Settings

/-!
# Derived rules are sound

A relaxation trusts its rules: a weight that is not a number, or a rule about
the node itself, would spoil every comparison of costs without any error. Under
settings that are accepted no such rule is derived, on whatever network and
ground, as long as the inclines of the tracks were checked when they were made.
-/
set_option autoImplicit false

namespace TrackLayout

open Binary64

/-- The track type comes from one of its two constructors. -/
inductive TrackType.Made : TrackType → Prop
  | usual (id : Int64) (subnetwork : Subnetwork) : Made (.ofSubnetwork id subnetwork)
  | checked {id : Int64} {subnetwork : Subnetwork} {inclines : InclineRange Float} {t : TrackType}
      (h : TrackType.withInclines id subnetwork inclines = .ok t) : Made t

/-- What may be relied on about a rule of a node. -/
structure HeightRule.Sound (net : Network) (n : NodeId) (r : Rule) : Prop where
  mentioned : ∀ m ∈ r.read ++ r.linked?.toList, m ≠ n ∧ ∃ j, net.node? m = some j
  weight : r.weight.isNaN = false ∧ 0.0 ≤ r.weight
  tolerance : ∀ {target tolerance weight}, r = .fixedHeight target tolerance weight → 0.0 < tolerance
  inclines : ∀ {inclines other length weight}, r = .inclineBetween inclines other length weight →
    ¬inclines.greatest < inclines.least

/-! ## Inclines -/

theorem InclineRange.not_inverted_of_check {r checked : InclineRange Float} (h : r.check = .ok checked) :
    ¬checked.greatest < checked.least := by
  rw [check] at h
  split at h
  · cases h
  · next hOrder =>
    cases h
    exact hOrder

theorem Subnetwork.not_inverted (subnetwork : Subnetwork) :
    ¬subnetwork.inclines.greatest < subnetwork.inclines.least := by
  cases subnetwork <;> decide +kernel

theorem TrackType.Made.not_inverted {t : TrackType} (h : t.Made) : ¬t.inclines.greatest < t.inclines.least := by
  cases h with
  | usual id subnetwork => exact subnetwork.not_inverted
  | @checked id subnetwork inclines _ h =>
    rw [withInclines] at h
    cases hCheck : inclines.check with
    | error e =>
      rw [hCheck] at h
      cases h
    | ok range =>
      rw [hCheck] at h
      cases h
      exact InclineRange.not_inverted_of_check hCheck

/-- A range that is in order is so in the opposite direction. -/
theorem Connection.not_inverted_inclinesLeaving {inclines : InclineRange Float}
    (h : ¬inclines.greatest < inclines.least) (here : ConnectionEnd) :
    ¬(inclinesLeaving inclines here).greatest < (inclinesLeaving inclines here).least := by
  cases here with
  | start => exact h
  | stop => exact fun hLess => h (Binary64.neg_lt_neg_iff.mp hLess)

/-! ## Settings -/

section Accepted

variable {x : Float}

theorem isNumber_of_notNegative (h : notNegative x = none) : x.isNaN = false ∧ 0.0 ≤ x := by
  have hLeast := notNegative_eq_none_iff.mp h
  exact ⟨(le_iff.mp hLeast).1.2, hLeast⟩

theorem exists_denotes_of_positive (hFinite : x.isFinite = true) (h : positive x = none) :
    ∃ v, Denotes x v ∧ 0 < v := by
  obtain ⟨v, hv⟩ := exists_denotes hFinite
  have hZero : Denotes (0.0 : Float) 0 := rfl
  exact ⟨v, hv, (hZero.lt_iff hv).mp (positive_eq_none_iff.mp h)⟩

theorem exists_denotes_of_notNegative (hFinite : x.isFinite = true) (h : notNegative x = none) :
    ∃ v, Denotes x v ∧ 0 ≤ v := by
  obtain ⟨v, hv⟩ := exists_denotes hFinite
  have hZero : Denotes (0.0 : Float) 0 := rfl
  exact ⟨v, hv, (hZero.le_iff hv).mp (notNegative_eq_none_iff.mp h)⟩

end Accepted

/-- The settings of rules are accepted and have finite values. -/
structure RuleSettings.Sane (s : RuleSettings) : Prop extends s.Accepted where
  finite : ∀ f ∈ s.numbers, f.2.isFinite = true

namespace RuleSettings.Sane

variable {s : RuleSettings} (h : s.Sane)
include h

theorem zero_lt_tolerance {k : ℕ} (hCount : k < 2 ^ 53) :
    0.0 < s.baseTolerance + s.embankmentTolerance * k.toFloat := by
  have hBaseFinite := h.finite ("base_tolerance", s.baseTolerance) (by simp [numbers])
  have hStepFinite := h.finite ("embankment_tolerance", s.embankmentTolerance) (by simp [numbers])
  obtain ⟨b, hb, hBase⟩ := exists_denotes_of_positive hBaseFinite h.baseTolerance
  obtain ⟨e, he, hStep⟩ := exists_denotes_of_notNegative hStepFinite h.embankmentTolerance
  have hCounted : (0 : ℝ) ≤ ((k : ℤ) : ℝ) := by exact_mod_cast Nat.zero_le k
  exact Amount.zero_lt_add hb hBase ((he.mul (denotes_toFloat hCount)).amount (mul_nonneg hStep hCounted))

theorem weight_neighbour {sideward : Float} (hBeside : sideward.abs ≤ s.neighbourMaxSideward) :
    let weight := (1.0 - (sideward / s.neighbourMaxSideward).abs) * s.neighbourWeight
    weight.isNaN = false ∧ 0.0 ≤ weight ∧ weight ≤ s.neighbourWeight := by
  have hLimitFinite := h.finite ("neighbour_max_sideward", s.neighbourMaxSideward) (by simp [numbers])
  have hWeightFinite := h.finite ("neighbour_weight", s.neighbourWeight) (by simp [numbers])
  obtain ⟨m, hm, hLimit⟩ := exists_denotes_of_positive hLimitFinite h.neighbourMaxSideward
  obtain ⟨w, hw, hLeast⟩ := exists_denotes_of_notNegative hWeightFinite h.neighbourWeight
  obtain ⟨v, hv⟩ := denotes_of_abs_le hm hBeside
  obtain ⟨u, hu, hLow, hHigh⟩ := inside_tapered hv hm hw hBeside hLimit hLeast
  have hZero : Denotes (0.0 : Float) 0 := rfl
  exact ⟨hu.isNaN, (hZero.le_iff hu).mpr hLow, (hu.le_iff hw).mpr hHigh⟩

end RuleSettings.Sane

/-! ## Rules -/

namespace Network

variable {net : Network} {n : NodeId} {j : Junction} {s : RuleSettings} {start : Float} {r : Rule}

/-- No node has more connections than there are ids. -/
theorem WellFormed.length_connectionsOf_lt (hNet : net.WellFormed) (hj : net.node? n = some j) :
    (net.connectionsOf j).length < 2 ^ 53 := by
  calc (net.connectionsOf j).length
    _ ≤ j.tracks.length := (List.length_filterMap_le _ _).trans_eq (List.length_map _)
    _ ≤ net.connections.toList.length := (hNet.length_tracks hj).trans_le List.countP_le_length
    _ ≤ net.connections.slots.toList.zipIdx.length := List.length_filterMap_le _ _
    _ = net.connections.slots.size := by rw [List.length_zipIdx, Array.length_toList]
    _ < 2 ^ 32 := net.connections.slots_lt
    _ < 2 ^ 53 := by decide

theorem WellFormed.sound_far (hNet : net.WellFormed) (hj : net.node? n = some j) {c : Connection}
    {here : ConnectionEnd} (h : net.Leaves j c here) :
    c.node here.other ≠ n ∧ ∃ i, net.node? (c.node here.other) = some i := by
  obtain ⟨id, hc, rfl⟩ := (hNet.leaves_iff hj).mp h
  exact ⟨hNet.node_other_ne hc here, hNet.exists_node hc here.other⟩

theorem WellFormed.sound_apart (hNet : net.WellFormed) {id : ConnectionId} {c : Connection}
    (hc : net.connection? id = some c) (hApart : c.touches n = false) (here : ConnectionEnd) :
    c.node here ≠ n ∧ ∃ i, net.node? (c.node here) = some i := by
  refine ⟨?_, hNet.exists_node hc here⟩
  rintro rfl
  rw [c.touches_node here] at hApart
  cases hApart

theorem Derived.sound (h : Derived s net j start r) (hNet : net.WellFormed) (hj : net.node? n = some j)
    (hSane : s.Sane) (hInclines : ∀ id c, net.connection? id = some c →
      ¬c.trackType.inclines.greatest < c.trackType.inclines.least) : r.Sound net n := by
  cases h with
  | ground hCount =>
    refine ⟨nofun, isNumber_of_notNegative hSane.fixedHeightWeight, ?_, nofun⟩
    intro target tolerance weight hSame
    cases hSame
    exact hSane.zero_lt_tolerance (hCount.trans_lt (hNet.length_connectionsOf_lt hj))
  | smoothing hAhead hBehind =>
    refine ⟨fun m hm => ?_, isNumber_of_notNegative hSane.smoothInclineWeight, nofun, nofun⟩
    rcases List.mem_pair.mp hm with rfl | rfl
    · exact hNet.sound_far hj hAhead
    · exact hNet.sound_far hj hBehind
  | incline hLeaves =>
    obtain ⟨id, hc, -⟩ := (hNet.leaves_iff hj).mp hLeaves
    refine ⟨fun m hm => ?_, isNumber_of_notNegative hSane.inclineWeight, nofun, ?_⟩
    · rw [List.mem_singleton.mp hm]
      exact hNet.sound_far hj hLeaves
    · intro inclines other length weight hSame
      cases hSame
      exact Connection.not_inverted_inclinesLeaving (hInclines id _ hc) _
  | neighbour hc hApart _ hBeside =>
    obtain ⟨hNumber, hLeast, -⟩ := hSane.weight_neighbour (isBeside_iff.mp hBeside).1
    refine ⟨fun m hm => ?_, ⟨hNumber, hLeast⟩, nofun, nofun⟩
    rw [hNet.node_id hj] at hApart
    rcases List.mem_pair.mp hm with rfl | rfl
    · exact hNet.sound_apart hc hApart .start
    · exact hNet.sound_apart hc hApart .stop

theorem weight_le_of_mem_neighbourRules (hSane : s.Sane)
    (hr : r ∈ neighbourRules s net j (net.connectionsOf j)) : r.weight ≤ s.neighbourWeight := by
  obtain ⟨id, c, -, -, -, hBeside, rfl⟩ := exists_of_mem_neighbourRules hr
  exact (hSane.weight_neighbour (isBeside_iff.mp hBeside).1).2.2

/-- Deriving the heights of any network under accepted, finite settings appends sound rules to every node,
and rules of neighbours that weigh at most as much as the settings say. -/
theorem sound_deriveByEdits {ops : List Operation} {settings : ConversionSettings}
    (hTypes : ∀ c ∈ (run ops).connections.values, c.trackType.Made) (hValid : settings.validate = .ok ())
    (hFinite : ∀ f ∈ settings.rules.numbers, f.2.isFinite = true) (ground : Ground) :
    ∃ d, (run ops).deriveByEdits ground settings.rules = .ok d ∧
      ∀ n j, (run ops).node? n = some j → ∃ added, (d.network.node? n).map (·.rules) = some (j.rules ++ added) ∧
        (∀ r ∈ added, r.Sound (run ops) n) ∧
          ∃ own neighbours, added = own ++ neighbours ∧
            neighbours = neighbourRules settings.rules (run ops) j ((run ops).connectionsOf j) ∧
              ∀ r ∈ neighbours, r.weight ≤ settings.rules.neighbourWeight := by
  have hNet := wellFormed_run ops
  have hSane : settings.rules.Sane := ⟨((ConversionSettings.validate_eq_ok_iff settings).mp hValid).2, hFinite⟩
  obtain ⟨d, hd, hAdded⟩ := exists_deriveByEdits (run ops) ground settings.rules
  refine ⟨d, hd, fun n j hj => ⟨_, hAdded n j hj, fun r hr => ?_, _, _, rfl, rfl, fun r hr =>
    weight_le_of_mem_neighbourRules hSane hr⟩⟩
  refine (hNet.derived hj hr).sound hNet hj hSane fun id c hc => ?_
  exact (hTypes c (Table.mem_values.mpr ⟨id, hc⟩)).not_inverted

/-- A dam, and a track that ends beside it on a rising slope. -/
def causeway : List Operation :=
  [.addNode { point := ⟨0.0, 0.0⟩ }, .addNode { point := ⟨100.0, 0.0⟩ }, .addNode { point := ⟨50.0, 5.0⟩ },
    .addNode { point := ⟨50.0, 80.0⟩ }, .connect ⟨0⟩ ⟨1⟩ { heightType := .embankment }, .connect ⟨2⟩ ⟨3⟩ {},
    .edit ⟨1⟩ (.trackType ⟨7, .rail, ⟨0.0, 0.04⟩⟩)]

theorem neighbourRules_causeway (j : Junction) (hj : (run causeway).node? ⟨2⟩ = some j) :
    neighbourRules {} (run causeway) j ((run causeway).connectionsOf j) = [.betweenNodes ⟨0⟩ ⟨1⟩ 0.5 1.0] := by
  have hFound : (run causeway).node? ⟨2⟩ = some (((run causeway).node? ⟨2⟩).getD default) := by decide +kernel
  obtain rfl := Option.some.inj (hFound.symm.trans hj)
  have hBeside : (run causeway).connectionsBeside (((run causeway).node? ⟨2⟩).getD default).point none 10.0 1.0 =
      [⟨0⟩, ⟨1⟩] := by
    rw [(wellFormed_run causeway).connectionsBeside_eq _ _ _ _ (by decide +kernel)]
    decide +kernel
  rw [neighbourRules, hBeside]
  decide +kernel

theorem sound_deriveByEdits_causeway : ∃ d j added,
    (run causeway).deriveByEdits (fun _ => 0.0) {} = .ok d ∧ (run causeway).node? ⟨2⟩ = some j ∧
      (d.network.node? ⟨2⟩).map (·.rules) = some (j.rules ++ added) ∧
        .betweenNodes ⟨0⟩ ⟨1⟩ 0.5 1.0 ∈ added ∧ ∀ r ∈ added, r.Sound (run causeway) ⟨2⟩ := by
  have hTypes : ∀ c ∈ (run causeway).connections.values, c.trackType.Made := by
    have hMade : ∀ c ∈ (run causeway).connections.values, c.trackType = .ofSubnetwork (-1) .rail ∨
        TrackType.withInclines 7 .rail ⟨0.0, 0.04⟩ = .ok c.trackType := by decide +kernel
    intro c hc
    rcases hMade c hc with hUsual | hChecked
    · exact hUsual ▸ .usual _ _
    · exact .checked hChecked
  obtain ⟨d, hd, hRules⟩ := @sound_deriveByEdits causeway {} hTypes (by decide +kernel)
    (by decide +kernel) fun _ => 0.0
  obtain ⟨j, hj⟩ : ∃ j, (run causeway).node? ⟨2⟩ = some j :=
    Option.isSome_iff_exists.mp (by decide +kernel)
  obtain ⟨added, hAdded, hSound, own, neighbours, hSplit, hNeighbours, -⟩ := hRules ⟨2⟩ j hj
  refine ⟨d, j, added, hd, hj, hAdded, ?_, hSound⟩
  rw [hSplit, hNeighbours, neighbourRules_causeway j hj]
  exact List.mem_append_right own List.mem_cons_self

end Network

end TrackLayout
