import TrackLayout.Proofs.Binary64.Hypotenuse
import TrackLayout.Proofs.Heights.Reach
import TrackLayout.Proofs.Heights.SelectedDerivation

/-!
# Rules of surveyed networks

A network is mapped if its points are in a square, its tracks have the inclines
of their subnetworks, and its nodes have a few tracks each. Under the default
settings every node gets an incline rule for each of its tracks, which ties its
height to that of another node. If every track has a length too, the network is
surveyed, and all rules derived from it are moderate.
-/
set_option autoImplicit false

namespace TrackLayout

open Binary64

namespace Network

/-- A point has coordinates in a square. -/
def Central (p : Point) : Prop := Near p.x 20 ∧ Near p.y 20

/-- What is known of a network whose sources were in a square, tracks without any length included. -/
structure Mapped (net : Network) : Prop where
  wellFormed : net.WellFormed
  point : ∀ {n j}, net.node? n = some j → Central j.point
  inclines : ∀ {id c}, net.connection? id = some c → ∃ sub : Subnetwork, c.trackType.inclines = sub.inclines
  tracks : ∀ {n j}, net.node? n = some j → j.tracks ≠ []
  room : ∀ {n j}, net.node? n = some j → j.tracks.length ≤ 4

/-- Where the rules that are derived from a network are in range. -/
structure Surveyed (net : Network) : Prop extends net.Mapped where
  length : ∀ {id c}, net.connection? id = some c → Inside c.length (2 ^ (-60 : ℤ)) (2 ^ (22 : ℤ))

variable {net : Network} {n : NodeId} {j : Junction} {c : Connection}

/-! ## Baselines -/

theorem length_connectionsOf_le (net : Network) (j : Junction) : (net.connectionsOf j).length ≤ j.tracks.length :=
  (List.length_filterMap_le _ _).trans_eq (List.length_map _)

theorem near_heightOffset {h : HeightType} {z : Float} (hOffset : h.offset? = some z) : Near z 3 := by
  cases h <;> cases hOffset <;> exact near_rational (by decide +kernel)

theorem near_baseline {ground : Float} (hGround : Near ground 20) {connections : List Connection}
    (hRoom : connections.length ≤ 4) : Near (baseline ground connections) 21 := by
  rw [baseline]
  have hLength : (connections.filterMap (·.heightType.offset?)).length ≤ 4 :=
    (List.length_filterMap_le _ _).trans hRoom
  have hOffsets : ∀ z ∈ connections.filterMap (·.heightType.offset?), Near z 3 := by
    intro z hz
    obtain ⟨c, -, hc⟩ := List.mem_filterMap.mp hz
    exact near_heightOffset hc
  generalize connections.filterMap (·.heightType.offset?) = offsets at hLength hOffsets
  cases offsets with
  | nil => exact hGround.mono (by decide)
  | cons first rest =>
    have hSum := Near.sum hOffsets (by decide) (by omega)
    obtain ⟨count, hCount, hOne⟩ : ∃ v, Denotes (first :: rest).length.toFloat v ∧ 2 ^ (0 : ℤ) ≤ v := by
      have hCounts : ∀ k < 4, (rational? (k + 1).toFloat).any (fun q => 1 ≤ q && q ≤ 4) = true := by
        decide +kernel
      obtain ⟨v, hv, hLow, -⟩ := inside_rational (hCounts rest.length (Nat.lt_of_succ_le hLength))
      exact ⟨v, hv, by rwa [zpow_zero, ← Rat.cast_one]⟩
    have hMean := (hSum.mono (show _ ≤ 7 by omega)).div hCount hOne (by decide) (by decide)
    exact hGround.add (hMean.mono (by decide)) (by decide) (by decide)

/-! ## Rules -/

open HeightRule (Moderate)

theorem moderate_ground {start : Float} {v : ℝ} (hStart : Denotes start v) {k : ℕ} (hCount : k ≤ 4) :
    Moderate (.fixedHeight start (1.0 + 5.0 * k.toFloat) 0.2) := by
  refine ⟨⟨v, hStart⟩, ?_, ?_⟩
  · have hTolerances : ∀ k < 5, (rational? (1.0 + 5.0 * k.toFloat)).any
        (fun q => 2 ^ (0 : ℤ) ≤ q && q ≤ 2 ^ (5 : ℤ)) = true := by
      decide +kernel
    have hTolerance := inside_rational (hTolerances k (Nat.lt_succ_of_le hCount))
    simp only [Rat.cast_zpow, Rat.cast_ofNat] at hTolerance
    exact hTolerance
  · obtain ⟨w, hw, hLow, -⟩ : Inside (0.2 : Float) ((1 / 8 : ℚ) : ℝ) ((1 : ℚ) : ℝ) :=
      inside_rational (by decide +kernel)
    exact ⟨w, hw, lt_of_lt_of_le (by norm_num) hLow⟩

theorem moderate_smoothing {front rear : Float} (hFront : Inside front (2 ^ (-60 : ℤ)) (2 ^ (22 : ℤ)))
    (hRear : Inside rear (2 ^ (-60 : ℤ)) (2 ^ (22 : ℤ))) (ahead behind : NodeId) :
    Moderate (.betweenNodes ahead behind (front / (front + rear)) 0.5) := by
  obtain ⟨a, ha, haLow, haHigh⟩ := hFront
  obtain ⟨b, hb, hbLow, hbHigh⟩ := hRear
  have hNear : Near front 22 := ⟨a, ha, by rwa [abs_of_pos ((two_zpow_pos _).trans_le haLow)]⟩
  obtain ⟨t, ht, htLow, -⟩ := (ha.add hb).inside (representable_two_zpow (by decide : -1074 ≤ (-60 : ℤ)))
    (representable_two_zpow (by decide : -1074 ≤ (23 : ℤ)))
    (haLow.trans (le_add_of_nonneg_right ((two_zpow_pos _).trans_le hbLow).le)) (by
      rw [show (23 : ℤ) = 22 + 1 by rfl, zpow_add_one₀ (by norm_num), mul_two]
      exact add_le_add haHigh hbHigh)
    ((neg_nonpos.mpr (two_zpow_pos _).le).trans (two_zpow_pos _).le)
    (zpow_le_zpow_right₀ (by norm_num) (by decide))
  refine ⟨(hNear.div ht htLow (by decide) (by decide)).mono (by decide), ?_⟩
  have hWeight : Inside (0.5 : Float) ((0 : ℚ) : ℝ) ((2 : ℚ) : ℝ) := inside_rational (by decide +kernel)
  simpa using hWeight

/-- The inclines of all subnetworks, in both directions. -/
theorem moderate_inclines (sub : Subnetwork) (here : ConnectionEnd) :
    Near (HeightRule.meanIncline (Connection.inclinesLeaving sub.inclines here)) 0 ∧
      Inside (HeightRule.halfWidth (Connection.inclinesLeaving sub.inclines here)) (2 ^ (-15 : ℤ))
        (2 ^ (0 : ℤ)) := by
  constructor
  · cases sub <;> cases here <;> exact near_rational (by decide +kernel)
  · have hWidth : Inside (HeightRule.halfWidth (Connection.inclinesLeaving sub.inclines here))
        ((2 ^ (-15 : ℤ) : ℚ) : ℝ) ((2 ^ (0 : ℤ) : ℚ) : ℝ) := by
      cases sub <;> cases here <;> exact inside_rational (by decide +kernel)
    simp only [Rat.cast_zpow, Rat.cast_ofNat] at hWidth
    exact hWidth

/-! ### Offsets -/

/-- The ends of a connection are where its nodes are. -/
theorem WellFormed.central (hNet : net.WellFormed)
    (hPoint : ∀ {n : NodeId} {j : Junction}, net.node? n = some j → Central j.point) {id : ConnectionId}
    {c : Connection} (hc : net.connection? id = some c) : Central c.startPoint ∧ Central c.stopPoint := by
  obtain ⟨i, hi, hStart⟩ := Option.map_eq_some_iff.mp (hNet.start hc)
  obtain ⟨k, hk, hStop⟩ := Option.map_eq_some_iff.mp (hNet.stop hc)
  rw [← hStart, ← hStop]
  exact ⟨hPoint hi, hPoint hk⟩

theorem inside_length {s : Segment} (hStart : Central s.start) (hStop : Central s.stop) :
    Inside s.length 0 (2 ^ (22 : ℤ)) :=
  inside_hypot (hStart.1.sub hStop.1 (by decide) (by decide)) (hStart.2.sub hStop.2 (by decide) (by decide))

section Offsets

variable {s : Segment} {p : Point} (hStart : Central s.start) (hStop : Central s.stop)
  (hLength : Inside s.length (2 ^ (-60 : ℤ)) (2 ^ (22 : ℤ)))

include hStart hStop hLength

theorem near_heading : Near s.heading.x 81 ∧ Near s.heading.y 81 := by
  obtain ⟨l, hl, hLow, -⟩ := hLength
  rw [PlanarSegment.heading]
  split
  · exact ⟨(hStop.1.sub hStart.1 (by decide) (by decide)).div hl hLow (by decide) (by decide),
      (hStop.2.sub hStart.2 (by decide) (by decide)).div hl hLow (by decide) (by decide)⟩
  · exact ⟨near_rational (by decide +kernel), near_rational (by decide +kernel)⟩

theorem near_offset (hPoint : Central p) :
    Near (s.offset p).forward 103 ∧ Near (s.offset p).sideward 103 := by
  obtain ⟨hx, hy⟩ := near_heading hStart hStop hLength
  have hpx := hPoint.1.sub hStart.1 (by decide) (by decide)
  have hpy := hPoint.2.sub hStart.2 (by decide) (by decide)
  constructor
  · exact (hpx.mul hx (by decide) (by decide)).add (hpy.mul hy (by decide) (by decide)) (by decide) (by decide)
  · exact (hx.mul hpy (by decide) (by decide)).sub (hy.mul hpx (by decide) (by decide)) (by decide) (by decide)

end Offsets

/-- The closeness of a point that lies beside a connection. -/
theorem inside_closeness {sideward : Float} {v : ℝ} (hSideward : Denotes sideward v)
    (hBeside : sideward.abs ≤ 10.0) : Inside ((1.0 - (sideward / 10.0).abs) * 2.0) 0 2 := by
  have hTen : Denotes (10.0 : Float) ((10 : ℚ) : ℝ) := denotes_rational (by decide +kernel)
  have hTwo : Denotes (2.0 : Float) ((2 : ℚ) : ℝ) := denotes_rational (by decide +kernel)
  simp only [Rat.cast_ofNat] at hTen hTwo
  exact inside_tapered hSideward hTen hTwo hBeside (by norm_num) (by norm_num)

section Mapped

variable (h : net.Mapped) (hj : net.node? n = some j)
include h

theorem Mapped.tethers {id : ConnectionId} {c : Connection} (hc : net.connection? id = some c)
    (here : ConnectionEnd) (other : NodeId) :
    HeightRule.Tethers (Connection.inclineRule c.trackType.inclines here other c.length 1.0) := by
  obtain ⟨sub, hSub⟩ := h.inclines hc
  obtain ⟨hStart, hStop⟩ := h.wellFormed.central h.point hc
  obtain ⟨hMean, hWidth⟩ := moderate_inclines sub here
  rw [Connection.inclineRule, hSub]
  exact ⟨hMean, hWidth, inside_length (s := c.segment) hStart hStop, 1, denotes_one, one_pos⟩

include hj

theorem Mapped.near_start {ground : Float} (hGround : Near ground 20) : Near (net.derive {} j ground).1 21 :=
  near_baseline hGround ((length_connectionsOf_le net j).trans (h.room hj))

/-- There is a rule for the incline of the first track, towards a node that is present. -/
theorem Mapped.exists_inclineRule (ground : Float) : ∃ inclines other length weight,
    HeightRule.inclineBetween inclines other length weight ∈ (net.derive {} j ground).2 ∧
      HeightRule.Tethers (.inclineBetween inclines other length weight) ∧ ∃ i, net.node? other = some i := by
  obtain ⟨t, ht⟩ := List.exists_mem_of_ne_nil _ (h.tracks hj)
  obtain ⟨c, hc, hTouches⟩ := h.wellFormed.exists_connection hj ht
  obtain ⟨here, hHere⟩ := Connection.touches_iff.mp hTouches
  exact ⟨_, _, _, _, (h.wellFormed.inclineBetween_mem_derive hj).mpr ⟨t.connection, c, here, hc, hHere, rfl⟩,
    h.tethers hc here _, h.wellFormed.exists_node hc here.other⟩

omit hj

theorem Mapped.of_bare {other : Network} (hBare : net.bare = other.bare)
    (hConnections : other.connections = net.connections) : other.Mapped where
  wellFormed := h.wellFormed.of_bare hBare
  point {n j} hj := by
    obtain ⟨i, hi, -, hPoint, -⟩ := exists_node_of_bare hBare hj
    exact hPoint ▸ h.point hi
  inclines {id c} hc := by
    rw [connection?, hConnections] at hc
    exact h.inclines hc
  tracks {n j} hj := by
    obtain ⟨i, hi, -, -, hTracks, -⟩ := exists_node_of_bare hBare hj
    exact hTracks ▸ h.tracks hi
  room {n j} hj := by
    obtain ⟨i, hi, -, -, hTracks, -⟩ := exists_node_of_bare hBare hj
    exact hTracks ▸ h.room hi

end Mapped

section Surveyed

variable (h : net.Surveyed) (hj : net.node? n = some j)
include h

theorem Surveyed.moderate_incline {id : ConnectionId} (hc : net.connection? id = some c) (here : ConnectionEnd)
    (other : NodeId) : Moderate (Connection.inclineRule c.trackType.inclines here other c.length 1.0) := by
  obtain ⟨hMean, hWidth, -, hWeight⟩ := h.toMapped.tethers hc here other
  exact ⟨hMean, hWidth, h.length hc, hWeight⟩

include hj

theorem Surveyed.moderate_neighbour {id : ConnectionId} (hc : net.connection? id = some c)
    (hBeside : isBeside j.point 10.0 1.0 c = true) (first second : NodeId) :
    Moderate (.betweenNodes first second ((PlanarSegment.offset c.segment j.point).forward / c.length)
      ((1.0 - ((PlanarSegment.offset c.segment j.point).sideward / 10.0).abs) * 2.0)) := by
  obtain ⟨hStart, hStop⟩ := h.wellFormed.central h.point hc
  obtain ⟨l, hl, hLow, hHigh⟩ := h.length hc
  obtain ⟨hForward, v, hSideward, -⟩ :=
    near_offset (s := c.segment) hStart hStop ⟨l, hl, hLow, hHigh⟩ (h.point hj)
  exact ⟨(hForward.div hl hLow (by decide) (by decide)).mono (by decide),
    inside_closeness hSideward (isBeside_iff.mp hBeside).1⟩

/-! ## Derivation -/

theorem Surveyed.moderate_derive {ground : Float} (hGround : Near ground 20) {r : Rule}
    (hr : r ∈ (net.derive {} j ground).2) : r.Moderate := by
  obtain ⟨v, hStart, -⟩ := h.toMapped.near_start hj hGround
  cases h.wellFormed.derived hj hr with
  | ground hCount =>
    exact moderate_ground hStart (hCount.trans ((length_connectionsOf_le net j).trans (h.room hj)))
  | smoothing hAhead hBehind =>
    obtain ⟨_, hFront, -⟩ := (h.wellFormed.leaves_iff hj).mp hAhead
    obtain ⟨_, hRear, -⟩ := (h.wellFormed.leaves_iff hj).mp hBehind
    exact moderate_smoothing (h.length hFront) (h.length hRear) _ _
  | incline hLeaves =>
    obtain ⟨_, hc, -⟩ := (h.wellFormed.leaves_iff hj).mp hLeaves
    exact h.moderate_incline hc _ _
  | neighbour hc _ _ hBeside => exact h.moderate_neighbour hj hc hBeside _ _

omit hj

theorem Surveyed.of_bare {other : Network} (hBare : net.bare = other.bare)
    (hConnections : other.connections = net.connections) : other.Surveyed where
  toMapped := h.toMapped.of_bare hBare hConnections
  length {id c} hc := by
    rw [connection?, hConnections] at hc
    exact h.length hc

end Surveyed

/-- Where the ground is known, its height is moderate. -/
def Level (ground : Ground) : Prop := ∀ p, (ground p).isNaN = true ∨ Near (ground p) 20

theorem Level.near {ground : Ground} (h : Level ground) (p : Point) :
    Near (if (ground p).isNaN then 0.0 else ground p) 20 := by
  split
  · exact near_rational (by decide +kernel)
  · next hKnown => exact (h p).resolve_left hKnown

/-- A network some of whose nodes have been visited. -/
structure PartlyVisited (net : Network) (done : List NodeId) (d : Network) : Prop where
  bare : net.bare = d.bare
  connections : d.connections = net.connections
  height : ∀ n ∈ done, ∀ j, d.node? n = some j → ∃ z, j.elevation = some z ∧ Near z 21
  tied : ∀ n ∈ done, ∀ j, d.node? n = some j → ∃ inclines other length weight,
    HeightRule.inclineBetween inclines other length weight ∈ j.rules ∧
      HeightRule.Tethers (.inclineBetween inclines other length weight) ∧ ∃ i, net.node? other = some i

section Visits

variable {ground : Ground} {d : Derivation} {done : List NodeId}

theorem PartlyVisited.visit (hDone : PartlyVisited net done d.network) (h : net.Mapped)
    (hGround : Level ground) (n : NodeId) :
    PartlyVisited net (n :: done) (d.visit {} ground n).network := by
  cases hj : d.network.node? n with
  | none =>
    rw [visit_of_absent {} ground hj]
    refine { hDone with height := fun m hm i hi => ?_, tied := fun m hm i hi => ?_ }
    · rcases List.mem_cons.mp hm with rfl | hm
      · rw [hj] at hi
        cases hi
      · exact hDone.height m hm i hi
    · rcases List.mem_cons.mp hm with rfl | hm
      · rw [hj] at hi
        cases hi
      · exact hDone.tied m hm i hi
  | some j =>
    have hMapped : d.network.Mapped := h.of_bare hDone.bare hDone.connections
    obtain ⟨height, hHeight, -, hVisit⟩ := visit_of_present {} ground hj
    have hKnown : Near height 20 := hHeight ▸ hGround.near j.point
    rw [hVisit]
    refine ⟨?_, hDone.connections, fun m hDoneM i hm => ?_, fun m hDoneM i hm => ?_⟩
    · rw [hDone.bare]
      exact (bare_modifyNode (bare_visited _ _) d.network n).symm
    · obtain ⟨-, k, hk, rfl⟩ | ⟨hOther, hOld⟩ := node_of_modifyNode hm
      · exact ⟨_, rfl, hMapped.near_start hj hKnown⟩
      · exact hDone.height m ((List.mem_cons.mp hDoneM).resolve_left hOther) i hOld
    · obtain ⟨-, k, hk, rfl⟩ | ⟨hOther, hOld⟩ := node_of_modifyNode hm
      · obtain ⟨inclines, other, length, weight, hRule, hTether, k, hk⟩ := hMapped.exists_inclineRule hj height
        obtain ⟨o, ho, -⟩ := exists_node_of_bare hDone.bare hk
        exact ⟨inclines, other, length, weight, List.mem_append_right _ hRule, hTether, o, ho⟩
      · exact hDone.tied m ((List.mem_cons.mp hDoneM).resolve_left hOther) i hOld

theorem PartlyVisited.foldl_visit (hDone : PartlyVisited net done d.network) (h : net.Mapped)
    (hGround : Level ground) (ids : List NodeId) :
    PartlyVisited net (ids.reverse ++ done) (ids.foldl (Derivation.visit {} ground) d).network := by
  induction ids generalizing d done with
  | nil => exact hDone
  | cons n ids ih =>
    rw [List.foldl_cons, List.reverse_cons, List.append_assoc, List.singleton_append]
    exact ih (hDone.visit h hGround n)

theorem Surveyed.moderate_visit (h : net.Surveyed) (hDone : PartlyVisited net done d.network)
    (hGround : Level ground) (n : NodeId) (hRules : ∀ m i, d.network.node? m = some i → ∀ r ∈ i.rules, r.Moderate) :
    ∀ m i, (d.visit {} ground n).network.node? m = some i → ∀ r ∈ i.rules, r.Moderate := by
  cases hj : d.network.node? n with
  | none => rwa [visit_of_absent {} ground hj]
  | some j =>
    have hSurveyed : d.network.Surveyed := h.of_bare hDone.bare hDone.connections
    obtain ⟨height, hHeight, -, hVisit⟩ := visit_of_present {} ground hj
    intro m i hm r hr
    rw [hVisit] at hm
    obtain ⟨rfl, k, hk, rfl⟩ | ⟨-, hOld⟩ := node_of_modifyNode hm
    · obtain rfl := Option.some.inj (hj.symm.trans hk)
      rcases List.mem_append.mp hr with hOld | hNew
      · exact hRules m j hj r hOld
      · exact hSurveyed.moderate_derive hj (hHeight ▸ hGround.near j.point) hNew
    · exact hRules m i hOld r hr

theorem Surveyed.moderate_foldl_visit (h : net.Surveyed) (hDone : PartlyVisited net done d.network)
    (hGround : Level ground) (hRules : ∀ m i, d.network.node? m = some i → ∀ r ∈ i.rules, r.Moderate)
    (ids : List NodeId) :
    ∀ m i, (ids.foldl (Derivation.visit {} ground) d).network.node? m = some i → ∀ r ∈ i.rules, r.Moderate := by
  induction ids generalizing d done with
  | nil => exact hRules
  | cons n ids ih => exact ih (hDone.visit h.toMapped hGround n) (h.moderate_visit hDone hGround n hRules)

end Visits

/-- After the derivation all heights are near the ground. -/
theorem Mapped.tethered_deriveHeights (h : net.Mapped) {ground : Ground} (hGround : Level ground) :
    (net.deriveHeights ground {}).network.Tethered (2 ^ (21 : ℤ)) := by
  have hStart : PartlyVisited net [] net := ⟨rfl, rfl, nofun, nofun⟩
  have hDone : PartlyVisited net (net.nodes.ids.reverse ++ []) (net.deriveHeights ground {}).network :=
    PartlyVisited.foldl_visit (d := { network := net }) hStart h hGround net.nodes.ids
  have hAll {n : NodeId} {j : Junction} (hj : (net.deriveHeights ground {}).network.node? n = some j) :
      n ∈ net.nodes.ids.reverse ++ [] := by
    obtain ⟨i, hi, -⟩ := exists_node_of_bare hDone.bare hj
    rw [List.append_nil, List.mem_reverse]
    exact Table.mem_ids.mpr ⟨i, hi⟩
  refine ⟨fun n z hz => ?_, fun n j hj => ?_⟩
  · obtain ⟨j, hj, hElevation⟩ := Option.bind_eq_some_iff.mp hz
    obtain ⟨y, hy, hNear⟩ := hDone.height n (hAll hj) j hj
    rw [hElevation] at hy
    exact (Option.some.inj hy).symm ▸ hNear
  · obtain ⟨inclines, other, length, weight, hRule, hTether, i, hi⟩ := hDone.tied n (hAll hj) j hj
    obtain ⟨k, hk, -⟩ := exists_node_of_bare hDone.bare.symm hi
    obtain ⟨y, hy, -⟩ := hDone.height other (hAll hk) k hk
    refine ⟨inclines, other, length, weight, hRule, hTether, ?_⟩
    rw [elevation, hk, Option.bind_some, hy]
    rfl

theorem Surveyed.calm_deriveHeights (h : net.Surveyed)
    (hRules : ∀ n j, net.node? n = some j → ∀ r ∈ j.rules, r.Moderate) {ground : Ground}
    (hGround : ∀ p, Near (ground p) 20) : (net.deriveHeights ground {}).network.Calm (2 ^ (21 : ℤ)) where
  toTethered := h.toMapped.tethered_deriveHeights fun p => .inr (hGround p)
  moderate :=
    have hStart : PartlyVisited net [] net := ⟨rfl, rfl, nofun, nofun⟩
    h.moderate_foldl_visit (d := { network := net }) hStart (fun p => .inr (hGround p)) hRules net.nodes.ids

end Network

end TrackLayout
