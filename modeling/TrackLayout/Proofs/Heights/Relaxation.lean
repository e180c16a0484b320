import TrackLayout.Proofs.Heights.Rule
import TrackLayout.Proofs.Network.Operation

/-!
# One step of the relaxation

A node that moves had a height rated that its rules like better than the old
one. The search keeps the sum of its steps and not that height, and the sum is
rounded in another order. So the height a node moves to may be one rounding
away from the height that was rated. Where the two agree the cost of the node
falls; where they do not, it may stay as it was or rise.
-/
set_option autoImplicit false

namespace TrackLayout

/-- The heights whose cost may be kept with a change by `delta`: that of the change itself, and that of
its last step added to what the steps before had made of the height. -/
inductive RatedAt (height : Float) : Float → Float → Prop where
  | jump (delta : Float) : RatedAt height delta (height + delta)
  | up (delta step : Float) : RatedAt height (delta + step) (height + delta + step)
  | down (delta step : Float) : RatedAt height (delta - step) (height + delta - step)

namespace Jump

/-- The cost of the jump was found at a height that it may stand for. -/
def Rated (cost : Float → Float) (height : Float) (j : Jump) : Prop :=
  ∃ rated, RatedAt height j.delta rated ∧ j.cost = cost rated

variable {cost : Float → Float} {height : Float} {j : Jump}

theorem rated_refine (h : j.Rated cost height) (shrink : Float) (rounds : Nat) (step : Float) :
    (refine cost height shrink rounds step j).Rated cost height := by
  induction rounds generalizing step j with
  | zero => exact h
  | succ rounds ih =>
    rw [refine]
    apply ih
    split
    · exact ⟨_, .up j.delta step, rfl⟩
    · split
      · exact ⟨_, .down j.delta step, rfl⟩
      · exact h

end Jump

namespace Network

variable {s : SolverSettings} {net : Network} {node : NodeId}

theorem improved?_eq_some {cooling height new : Float} (h : net.improved? s node cooling height = some new) :
    ∃ delta rated, new = height + delta ∧ RatedAt height delta rated ∧
      net.costAt s node rated < net.costAt s node height := by
  have hRated (delta step : Float) : (Jump.refine (net.costAt s node) height s.stepShrink
      s.refinementRounds.toNat step ⟨delta, net.costAt s node (height + delta)⟩).Rated
        (net.costAt s node) height :=
    Jump.rated_refine ⟨height + delta, .jump delta, rfl⟩ s.stepShrink s.refinementRounds.toNat step
  obtain ⟨rated, hAt, hCost⟩ := hRated (meanCorrection (net.rulesRating s node) net.elevation height)
    (cooling * meanCorrection (net.rulesRating s node) net.elevation height)
  rw [improved?] at h
  split at h
  · next hLess =>
    refine ⟨_, rated, (Option.some.inj h).symm, hAt, ?_⟩
    rw [← hCost]
    exact hLess
  · cases h

/-! ## Moving a node -/

variable {new : Float}

theorem node?_withElevation (n : NodeId) : (net.modifyNode node (·.withElevation new)).node? n =
    if n = node then (net.node? n).map (·.withElevation new) else net.node? n := Table.get?_modify ..

theorem elevation_withElevation_of_ne {n : NodeId} (hn : n ≠ node) :
    (net.modifyNode node (·.withElevation new)).elevation n = net.elevation n := by
  rw [elevation, node?_withElevation, if_neg hn, elevation]

theorem rules_withElevation (n : NodeId) :
    ((net.modifyNode node (·.withElevation new)).node? n).map (·.rules) = (net.node? n).map (·.rules) := by
  rw [node?_withElevation]
  split
  · rw [Option.map_map]
    rfl
  · rfl

theorem rulesRating_withElevation (n : NodeId) :
    (net.modifyNode node (·.withElevation new)).rulesRating s n = net.rulesRating s n := by
  have hOthers : (fun n => ((net.modifyNode node (·.withElevation new)).node? n).map (·.rules)) =
      fun n => (net.node? n).map (·.rules) := funext rules_withElevation
  have hNode := congrFun hOthers n
  rw [rulesRating, rulesRating]
  cases hn : net.node? n with
  | none =>
    rw [hn, Option.map_none, Option.map_eq_none_iff] at hNode
    rw [hNode]
  | some j =>
    rw [hn, Option.map_some] at hNode
    obtain ⟨i, hi, hRules⟩ := Option.map_eq_some_iff.mp hNode
    rw [hi]
    dsimp only
    rw [hRules, Junction.linked, hRules, Junction.linked]
    exact congrArg (fun others : NodeId → Option (List Rule) =>
      if s.poolLinkedRules then
        j.rules ++ (j.rules.filterMap HeightRule.linked?).flatMap fun n => (others n).getD []
      else j.rules) hOthers

/-- What rates a node does not change when the node moves, unless a rule looks at the node itself. -/
theorem costAt_withElevation (hOwn : ∀ r ∈ net.rulesRating s node, node ∉ r.read) (height : Float) :
    (net.modifyNode node (·.withElevation new)).costAt s node height = net.costAt s node height := by
  rw [costAt, costAt, rulesRating_withElevation, weightedCost, weightedCost]
  refine congrArg Binary64.sum (List.map_congr_left fun r hr => ?_)
  have hRead : ∀ n ∈ r.read,
      (net.modifyNode node (·.withElevation new)).elevation (id n) = net.elevation n := by
    intro n hn
    apply elevation_withElevation_of_ne
    rintro rfl
    exact hOwn r hr hn
  have hCost := HeightRule.cost_rename hRead height
  rw [HeightRule.rename_id] at hCost
  rw [hCost]

/-- A step leaves the network as it is, or moves its node and changes nothing else. It moves the node only
if some height was rated below the old one, and that height stands for the new one. Where no rule looks at
the node itself, the cost of the node falls if the new height is the very height that was rated. -/
theorem relaxNode_eq (s : SolverSettings) (net : Network) (cooling : Float) (node : NodeId)
    (hOwn : ∀ r ∈ net.rulesRating s node, node ∉ r.read) :
    net.relaxNode s cooling node = (false, net) ∨
      ∃ old delta rated, net.elevation node = some old ∧ RatedAt old delta rated ∧
        net.relaxNode s cooling node = (true, net.modifyNode node (·.withElevation (old + delta))) ∧
        net.costAt s node rated < net.costAt s node old ∧
        (∀ height, (net.relaxNode s cooling node).2.costAt s node height = net.costAt s node height) ∧
        (rated = old + delta →
          (net.relaxNode s cooling node).2.costAt s node (old + delta) < net.costAt s node old) := by
  rw [relaxNode]
  cases hMove : (net.elevation node).bind (net.improved? s node cooling) with
  | none => exact .inl rfl
  | some new =>
    right
    obtain ⟨old, hOld, hNew⟩ := Option.bind_eq_some_iff.mp hMove
    obtain ⟨delta, rated, rfl, hAt, hLess⟩ := improved?_eq_some hNew
    have hCost : ∀ height, (net.modifyNode node (·.withElevation (old + delta))).costAt s node height =
        net.costAt s node height := costAt_withElevation hOwn
    refine ⟨old, delta, rated, hOld, hAt, rfl, hLess, hCost, ?_⟩
    intro hSame
    rw [hCost, ← hSame]
    exact hLess

/-- A node at 0 under one rule that wants it at 4. -/
def pulled : Network :=
  run [.addNode { point := ⟨0.0, 0.0⟩, elevation := some 0.0 }, .addRule ⟨0⟩ (.fixedHeight 4.0 1.0 1.0)]

theorem relaxNode_pulled :
    (∀ r ∈ pulled.rulesRating {} ⟨0⟩, ⟨0⟩ ∉ r.read) ∧
      ∃ delta rated, RatedAt 0.0 delta rated ∧ pulled.costAt {} ⟨0⟩ rated < pulled.costAt {} ⟨0⟩ 0.0 ∧
        pulled.relaxNode {} 0.8 ⟨0⟩ = (true, pulled.modifyNode ⟨0⟩ (·.withElevation (0.0 + delta))) := by
  have hOwn : ∀ r ∈ pulled.rulesRating {} ⟨0⟩, ⟨0⟩ ∉ r.read := by decide +kernel
  refine ⟨hOwn, ?_⟩
  rcases relaxNode_eq {} pulled 0.8 ⟨0⟩ hOwn with hStays | ⟨old, delta, rated, hOld, hAt, hMoves, hLess, -⟩
  · have hMoved : (pulled.relaxNode {} 0.8 ⟨0⟩).1 = true := by decide +kernel
    rw [hStays] at hMoved
    cases hMoved
  · have hStart : pulled.elevation ⟨0⟩ = some 0.0 := by decide +kernel
    rw [hStart, Option.some.injEq] at hOld
    subst hOld
    exact ⟨delta, rated, hAt, hLess, hMoves⟩

/-- A node at 1.9 between two rules that want it at 1.5 and at 2.7. -/
def balanced : Network :=
  run [.addNode { point := ⟨0.0, 0.0⟩, elevation := some 1.9 }, .addRule ⟨0⟩ (.fixedHeight 1.5 1.0 1.0),
    .addRule ⟨0⟩ (.fixedHeight 2.7 1.0 0.5)]

/-- The cost of a node may rise with a step that moves it. A pass over a network of this node alone tells it by the
costs that it reports. -/
theorem costAt_lt_costAt_relaxNode :
    (∀ r ∈ balanced.rulesRating {} ⟨0⟩, ⟨0⟩ ∉ r.read) ∧ balanced.elevation ⟨0⟩ = some 1.9 ∧
      (balanced.relaxNode {} 0.8 ⟨0⟩).1 = true ∧
      (balanced.relaxNode {} 0.8 ⟨0⟩).2.elevation ⟨0⟩ = some 1.9000000000000001 ∧
      balanced.costAt {} ⟨0⟩ 1.9 <
        (balanced.relaxNode {} 0.8 ⟨0⟩).2.costAt {} ⟨0⟩ 1.9000000000000001 ∧
      (balanced.relax { iterations := 1 }).report =
        { passes := 1, moves := 1, initialCost := 0.48000000000000015, finalCost := 0.4800000000000002 } := by
  decide +kernel

end Network

end TrackLayout
