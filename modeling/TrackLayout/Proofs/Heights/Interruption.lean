import TrackLayout.Proofs.Heights.Relaxation

/-!
# Interrupted relaxations

Whoever watches a relaxation may end it after any pass. What is left then is
what a relaxation of as many passes would have left, down to the report: the
cooling of a pass depends on how many there were before and not on how many are
still to come. Elevations change on the way, of nodes that have one, and
nothing else.
-/
set_option autoImplicit false

namespace TrackLayout.Network

/-- The network after some passes, the first of which is under the given cooling. -/
def afterPasses (s : SolverSettings) (net : Network) (cooling : Float) : Nat → Network
  | 0 => net
  | passes + 1 => afterPasses s (net.nextPass s cooling).network (cooling * s.coolingDecay) passes

/-- Of at most `rounds` passes the one numbered `k` is the last: it is the first after which `goOn` says
no, or there are no more. -/
structure LastPass (s : SolverSettings) (goOn : GoOn) (rounds finished : Nat) (cooling : Float) (net : Network)
    (k : Nat) : Prop where
  le : k ≤ rounds
  before : ∀ p, 0 < p → p < k → goOn (finished + p) (afterPasses s net cooling p) = true
  stop : k < rounds → 0 < k ∧ goOn (finished + k) (afterPasses s net cooling k) = false

/-- Passes end with this one under the settings. -/
def StopsAfter (net : Network) (s : SolverSettings) (goOn : GoOn) (k : UInt64) : Prop :=
  LastPass s goOn s.iterations.toNat 0 s.initialCooling net k.toNat

/-- Elevations of nodes that had one may be others. All else is as it was. -/
structure Reheighted (net next : Network) : Prop where
  node? : ∀ n, next.node? n = net.node? n ∨ ∃ j new, net.node? n = some j ∧ j.elevation.isSome = true ∧
    next.node? n = some (j.withElevation new)
  slots : next.nodes.slots.size = net.nodes.slots.size
  connections : next.connections = net.connections
  index : next.index = net.index

variable {s : SolverSettings} {goOn : GoOn} {net next : Network} {rounds finished : Nat} {cooling : Float}
  {k m : Nat}

/-! ## The last pass -/

namespace LastPass

theorem zero : LastPass s goOn 0 finished cooling net 0 := ⟨le_rfl, nofun, nofun⟩

/-- The first pass is the last one if nobody wants another. -/
theorem one (h : goOn (finished + 1) (net.nextPass s cooling).network = false) :
    LastPass s goOn (rounds + 1) finished cooling net 1 where
  le := Nat.succ_pos rounds
  before p hPos hLess := absurd hPos (by omega)
  stop _ := ⟨Nat.one_pos, h⟩

theorem succ (hGo : goOn (finished + 1) (net.nextPass s cooling).network = true)
    (h : LastPass s goOn rounds (finished + 1) (cooling * s.coolingDecay) (net.nextPass s cooling).network k) :
    LastPass s goOn (rounds + 1) finished cooling net (k + 1) where
  le := Nat.succ_le_succ h.le
  before
    | 1, _, _ => hGo
    | p + 2, _, hLess => by
      rw [← Nat.succ_add_eq_add_succ]
      exact h.before (p + 1) p.succ_pos (Nat.lt_of_succ_lt_succ hLess)
  stop hLess := by
    refine ⟨k.succ_pos, ?_⟩
    rw [← Nat.succ_add_eq_add_succ]
    exact (h.stop (Nat.lt_of_succ_lt_succ hLess)).2

theorem exists_last (s : SolverSettings) (goOn : GoOn) (rounds finished : Nat) (cooling : Float) (net : Network) :
    ∃ k, LastPass s goOn rounds finished cooling net k := by
  induction rounds generalizing finished cooling net with
  | zero => exact ⟨0, zero⟩
  | succ rounds ih =>
    cases hGo : goOn (finished + 1) (net.nextPass s cooling).network with
    | false => exact ⟨1, one hGo⟩
    | true =>
      obtain ⟨k, hk⟩ := ih (finished + 1) (cooling * s.coolingDecay) (net.nextPass s cooling).network
      exact ⟨k + 1, hk.succ hGo⟩

theorem not_lt (hk : LastPass s goOn rounds finished cooling net k)
    (hm : LastPass s goOn rounds finished cooling net m) : ¬k < m := by
  intro hLess
  obtain ⟨hPos, hStop⟩ := hk.stop (hLess.trans_le hm.le)
  rw [hm.before k hPos hLess] at hStop
  cases hStop

theorem unique (hk : LastPass s goOn rounds finished cooling net k)
    (hm : LastPass s goOn rounds finished cooling net m) : k = m :=
  le_antisymm (Nat.le_of_not_lt (hm.not_lt hk)) (Nat.le_of_not_lt (hk.not_lt hm))

end LastPass

/-! ## Passes -/

/-- How many passes are allowed in all does not show in any of them. -/
theorem passes_iterations (n : UInt64) (goOn : GoOn) :
    net.passes { s with iterations := n } goOn rounds finished cooling =
      net.passes s goOn rounds finished cooling := by
  induction rounds generalizing net finished cooling with
  | zero => rfl
  | succ rounds ih =>
    have hPass : net.nextPass { s with iterations := n } cooling = net.nextPass s cooling := rfl
    rw [passes, passes, hPass, ih]

theorem passes_eq_of_lastPass (h : LastPass s goOn rounds finished cooling net k) :
    net.passes s goOn rounds finished cooling = net.passes s (fun _ _ => true) k finished cooling := by
  induction rounds generalizing net finished cooling k with
  | zero =>
    obtain rfl := Nat.le_zero.mp h.le
    rfl
  | succ rounds ih =>
    cases hGo : goOn (finished + 1) (net.nextPass s cooling).network with
    | false =>
      obtain rfl := h.unique (.one hGo)
      rw [passes, passes, if_neg (by rw [hGo]; exact Bool.false_ne_true), if_pos rfl, passes]
    | true =>
      -- the pass after which the rest ends is one later here
      obtain ⟨m, hm⟩ := LastPass.exists_last s goOn rounds (finished + 1) (cooling * s.coolingDecay)
        (net.nextPass s cooling).network
      obtain rfl := h.unique (hm.succ hGo)
      rw [passes, passes, if_pos hGo, if_pos rfl, ih hm]

theorem relaxWhile_eq_relax {n : UInt64} (h : net.StopsAfter s goOn n) :
    net.relaxWhile s goOn = net.relax { s with iterations := n } := by
  refine congrArg (Relaxation.mk net) ?_
  exact (passes_eq_of_lastPass h).trans (passes_iterations n fun _ _ => true).symm

/-! ## What changes -/

namespace Reheighted

theorem refl (net : Network) : net.Reheighted net := ⟨fun _ => .inl rfl, rfl, rfl, rfl⟩

theorem withElevation (h : net.Reheighted next) {n : NodeId} {old : Float} (hOld : next.elevation n = some old)
    (new : Float) : net.Reheighted (next.modifyNode n (·.withElevation new)) where
  node? m := by
    rw [node?_withElevation]
    split
    · next hm =>
      subst hm
      obtain ⟨i, hi, hElevation⟩ := Option.bind_eq_some_iff.mp hOld
      right
      rcases h.node? m with hSame | ⟨j, _, hj, hSome, hMoved⟩
      · exact ⟨i, new, hSame ▸ hi, Option.isSome_of_eq_some hElevation, by rw [hi, Option.map_some]⟩
      · exact ⟨j, new, hj, hSome, by rw [hMoved, Option.map_some]; rfl⟩
    · exact h.node? m
  slots := by
    rw [modifyNode, Table.slots_size_modify]
    exact h.slots
  connections := h.connections
  index := h.index

theorem relaxWhile (net : Network) (s : SolverSettings) (goOn : GoOn) :
    net.Reheighted (net.relaxWhile s goOn).network :=
  relaxWhile_invariant (fun _ _ _ new hOld h => h.withElevation hOld new) s goOn (refl net)

end Reheighted

/-- A relaxation that is interrupted leaves what one of fewer passes leaves and reports the same. Whatever
ends it, only elevations of nodes that have one are changed. -/
theorem relaxWhile_interrupted (net : Network) (s : SolverSettings) (goOn : GoOn) :
    ∃ k, (∀ n, net.StopsAfter s goOn n ↔ n = k) ∧
      (net.relaxWhile s goOn).network = (net.relax { s with iterations := k }).network ∧
      (net.relaxWhile s goOn).report = (net.relax { s with iterations := k }).report ∧
      (net.relaxWhile s goOn).report.passes = k.toNat ∧
      net.Reheighted (net.relaxWhile s goOn).network := by
  obtain ⟨last, hLast⟩ := LastPass.exists_last s goOn s.iterations.toNat 0 s.initialCooling net
  have hWord : (UInt64.ofNat last).toNat = last :=
    UInt64.toNat_ofNat_of_lt' (hLast.le.trans_lt s.iterations.toNat_lt)
  have hStops : net.StopsAfter s goOn (.ofNat last) := by
    rw [StopsAfter, hWord]
    exact hLast
  have hSame := relaxWhile_eq_relax hStops
  refine ⟨.ofNat last, fun n => ⟨fun hn => ?_, fun hn => hn ▸ hStops⟩, ?_, ?_, ?_, .relaxWhile net s goOn⟩
  · exact UInt64.toNat_inj.mp (LastPass.unique hn hStops)
  · rw [hSame]
  · rw [hSame]
  · rw [hSame]
    exact length_passes ..

example : ((run [.addNode { point := ⟨0.0, 0.0⟩, elevation := some 0.0 },
    .addRule ⟨0⟩ (.fixedHeight 4.0 1.0 1.0)]).relaxWhile {} fun finished _ => finished < 3).report.passes = 3 := by
  decide +kernel

end TrackLayout.Network
