import TrackLayout.Proofs.Heights.Survey
import TrackLayout.Proofs.Heights.Totals

/-!
# From sources to surveyed networks

Ways whose points are in a square become a network whose points are in that
square. A cleanup adds nodes only where nodes are, keeps what tracks are made
of, and adds no rules but links.
-/
set_option autoImplicit false

namespace TrackLayout

open Binary64

namespace Network

variable {net next out : Network} {n : NodeId} {j : Junction}

/-- What imports and cleanups keep. -/
structure Sourced (net : Network) : Prop where
  point : ∀ {n j}, net.node? n = some j → Central j.point
  rules : ∀ {n j}, net.node? n = some j → j.unlinked.rules = []
  inclines : ∀ {id c}, net.connection? id = some c → ∃ sub : Subnetwork, c.trackType.inclines = sub.inclines

theorem Sourced.unrated (h : net.Sourced) : net.Unrated := fun _ _ hj => h.rules hj

theorem Sourced.moderate (h : net.Sourced) (hj : net.node? n = some j) : ∀ r ∈ j.rules, r.Moderate := by
  intro r hr
  have hLink := List.filter_eq_nil_iff.mp (h.rules hj) r hr
  cases r with
  | linkedTo other => trivial
  | _ => exact absurd rfl hLink

theorem sourced_empty : empty.Sourced where
  point hj := by
    rw [node?_empty] at hj
    cases hj
  rules hj := unrated_empty hj
  inclines hc := by
    rw [connection?_empty] at hc
    cases hc

/-! ## Imports -/

theorem Added.sourced {position : Position} {id : NodeId} (hAdded : Added net position id next)
    (hPoint : Central position.point) (h : net.Sourced) : next.Sourced where
  point {n j} hj := by
    rw [hAdded.node?] at hj
    split at hj
    · rw [← Option.some.inj hj]
      exact hPoint
    · exact h.point hj
  rules hj := hAdded.unrated h.unrated hj
  inclines {id c} hc := by
    rw [hAdded.connection?] at hc
    exact h.inclines hc

theorem Connected.sourced {start stop : NodeId} {spec : TrackSpec} {p q : Point} {id : ConnectionId}
    (hConnected : Connected net start stop spec p q id next)
    (hSpec : ∃ sub : Subnetwork, spec.trackType.inclines = sub.inclines) (h : net.Sourced) : next.Sourced where
  point {n j} hj := by
    rw [hConnected.node?] at hj
    obtain ⟨i, hi, rfl⟩ := Option.map_eq_some_iff.mp hj
    have hPoint := h.point hi
    exact hPoint
  rules hj := hConnected.unrated h.unrated hj
  inclines {other c} hc := by
    rw [hConnected.connection?] at hc
    split at hc
    · rw [← Option.some.inj hc]
      exact hSpec
    · exact h.inclines hc

/-! ## Cleaning up -/

theorem Split.sourced {ts : List Attachment} {sibling : NodeId} (hSplit : Split net n j ts sibling next)
    (h : net.Sourced) : next.Sourced where
  point {m i} hm := by
    obtain ⟨o, c, hc, hPoint, -⟩ := hSplit.exists_origin hm
    exact hPoint ▸ h.point hc
  rules hm := hSplit.unrated h.unrated hm
  inclines {id c} hc := by
    have hLoose := Table.get?_of_map_eq hSplit.loose id
    rw [show next.connections.get? id = some c from hc, Option.map_some] at hLoose
    obtain ⟨d, hd, hSame⟩ := Option.map_eq_some_iff.mp hLoose.symm
    rw [show c.trackType = d.trackType from (congrArg Connection.trackType hSame).symm]
    exact h.inclines hd

theorem Repairs.sourced {queue : List NodeId} {k : ℕ} (hRepairs : Repairs net queue k out)
    (hNet : net.WellFormed) (h : net.Sourced) : out.Sourced :=
  hRepairs.invariant (fun _ hSplit => hSplit.sourced) hNet h

theorem Sourced.prune (h : net.Sourced) : net.prune.Sourced where
  point hj := h.point (node?_of_prune hj).1
  rules hj := h.rules (node?_of_prune hj).1
  inclines hc := h.inclines hc

theorem Sourced.markStraight (h : net.Sourced) : net.markStraight.Sourced where
  point hj := h.point hj
  rules hj := h.rules hj
  inclines {id c} hc := by
    rw [connection?, Network.markStraight, Table.get?_map] at hc
    obtain ⟨d, hd, rfl⟩ := Option.map_eq_some_iff.mp hc
    have hInclines := h.inclines hd
    exact hInclines

theorem inside_of_least_le {x : Float} {a b : ℝ} (h : Inside x a b) (hLow : 1e-18 ≤ x) :
    Inside x (2 ^ (-60 : ℤ)) b := by
  obtain ⟨v, hv, -, hHigh⟩ := h
  obtain ⟨w, hw, hLeast, -⟩ : Inside 1e-18 ((2 ^ (-60 : ℤ) : ℚ) : ℝ) ((1 : ℚ) : ℝ) :=
    inside_rational (by decide +kernel)
  push_cast at hLeast
  exact ⟨v, hv, hLeast.trans ((hw.le_iff hv).mp hLow), hHigh⟩

theorem Sourced.mapped {clean : Network} {report : CleanupReport} (h : net.Sourced) (hNet : net.WellFormed)
    (hClean : net.cleanup = .ok (report, clean)) : clean.markStraight.Mapped ∧ clean.markStraight.Sourced := by
  have hRepairs := hNet.repairs_of_cleanup hClean
  have hCleanedUp := hRepairs.cleanedUp hNet
  have hSourced := (hRepairs.sourced hNet.prune h.prune).markStraight
  have hWellFormed := (hRepairs.changes.wellFormed hNet.prune).of_bare (bare_markStraight clean).symm
  refine ⟨⟨hWellFormed, hSourced.point, hSourced.inclines, fun hj => hCleanedUp.tracked hj, ?_⟩, hSourced⟩
  intro n j hj
  obtain ⟨first, rest, hTracks⟩ := List.exists_cons_of_ne_nil (hCleanedUp.tracked hj)
  exact (hCleanedUp.fits hj (by rw [hTracks, List.head?_cons])).room

/-- A clean network is surveyed if its tracks have a length. -/
theorem Sourced.surveyed {clean : Network} {report : CleanupReport} (h : net.Sourced) (hNet : net.WellFormed)
    (hClean : net.cleanup = .ok (report, clean))
    (hLength : ∀ id c, clean.markStraight.connection? id = some c → 1e-18 ≤ c.length) :
    clean.markStraight.Surveyed ∧ clean.markStraight.Sourced := by
  obtain ⟨hMapped, hSourced⟩ := h.mapped hNet hClean
  refine ⟨⟨hMapped, ?_⟩, hSourced⟩
  intro id c hc
  obtain ⟨hStart, hStop⟩ := hMapped.wellFormed.central hMapped.point hc
  exact inside_of_least_le (inside_length (s := c.segment) hStart hStop) (hLength id c hc)

end Network

end TrackLayout
