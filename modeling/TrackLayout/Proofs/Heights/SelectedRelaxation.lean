import TrackLayout.Proofs.Heights.Relaxation
import TrackLayout.Proofs.Heights.SelectedDerivation

/-!
# Relaxing one height plane

The rules that rate a selected node, its own and those pooled from linked
nodes, look at selected nodes only. So a step moves a selected node to the same
height in the part as in the whole, and a step of any other node does not show.
A pass visits the selected nodes in the same order in both.
-/
set_option autoImplicit false

namespace TrackLayout

/-! ## Renamed rules -/

/-- Adds up the weights of rules and the changes they suggest. -/
def tally (elevation : NodeId → Option Float) (height : Float) (total : Float × Float) (r : Rule) : Float × Float :=
  (total.1 + r.weight, total.2 + r.correction height elevation * r.weight)

theorem meanCorrection_eq (rules : List Rule) (elevation : NodeId → Option Float) (height : Float) :
    meanCorrection rules elevation height =
      let total := rules.foldl (tally elevation height) (0.0, 0.0)
      if total.1 ≤ 0.0 || total.1.isNaN || total.2.isNaN then 0.0 else total.2 / total.1 := rfl

section Renamed

variable {ρ : NodeId → NodeId} {rules : List Rule} {before after : NodeId → Option Float}
  (h : ∀ r ∈ rules, ∀ n ∈ r.read, after (ρ n) = before n)
include h

theorem weightedCost_rename (height : Float) :
    weightedCost (rules.map (·.rename ρ)) after height = weightedCost rules before height := by
  rw [weightedCost, List.map_map, weightedCost]
  refine congrArg Binary64.sum (List.map_congr_left fun r hr => ?_)
  dsimp only [Function.comp]
  rw [HeightRule.weight_rename, HeightRule.cost_rename (h r hr)]

theorem foldl_tally_rename (height : Float) (start : Float × Float) :
    (rules.map (·.rename ρ)).foldl (tally after height) start = rules.foldl (tally before height) start := by
  induction rules generalizing start with
  | nil => rw [List.map_nil, List.foldl_nil, List.foldl_nil]
  | cons r rest ih =>
    obtain ⟨hr, hRest⟩ := List.forall_mem_cons.mp h
    rw [List.map_cons, List.foldl_cons, List.foldl_cons, ih hRest, tally, tally, HeightRule.weight_rename,
      HeightRule.correction_rename hr]

theorem meanCorrection_rename (height : Float) :
    meanCorrection (rules.map (·.rename ρ)) after height = meanCorrection rules before height := by
  rw [meanCorrection_eq, meanCorrection_eq, foldl_tally_rename h]

end Renamed

namespace Network

namespace Selects

variable {S : Selection} {net part : Network} {n : NodeId} (h : net.Selects S part) (s : SolverSettings)
include h

theorem rulesRating (hn : S.node n = true) :
    part.rulesRating s (S.nodeId n) = (net.rulesRating s n).map (·.rename S.nodeId) := by
  rw [Network.rulesRating, Network.rulesRating, h.node? hn]
  cases hj : net.node? n with
  | none => rfl
  | some j =>
    have hOthers : (S.junction j).linked.flatMap (fun m => ((part.node? m).map (·.rules)).getD []) =
        (j.linked.flatMap fun m => ((net.node? m).map (·.rules)).getD []).map (·.rename S.nodeId) := by
      rw [Selection.linked_junction, List.flatMap_map, List.map_flatMap]
      apply List.flatMap_congr
      intro m hm
      rw [h.node? ((h.links hj m hm).trans hn)]
      cases net.node? m <;> rfl
    dsimp only [Option.map_some]
    rw [hOthers]
    split
    · rw [List.map_append]
      rfl
    · rfl

theorem read_rulesRating (hn : S.node n = true) :
    ∀ r ∈ net.rulesRating s n, ∀ m ∈ r.read, S.node m = true := by
  intro r hr
  rw [Network.rulesRating] at hr
  split at hr
  · cases hr
  · next j hj =>
    split at hr
    · rcases List.mem_append.mp hr with hOwn | hPooled
      · exact h.read hj hn r hOwn
      · obtain ⟨m, hm, hRules⟩ := List.mem_flatMap.mp hPooled
        cases hi : net.node? m with
        | none => simp [hi] at hRules
        | some i =>
          rw [hi] at hRules
          exact h.read hi ((h.links hj m hm).trans hn) r hRules
    · exact h.read hj hn r hr

theorem improved? (hn : S.node n = true) (cooling height : Float) :
    part.improved? s (S.nodeId n) cooling height = net.improved? s n cooling height := by
  have hElevation : ∀ r ∈ net.rulesRating s n, ∀ m ∈ r.read, part.elevation (S.nodeId m) = net.elevation m :=
    fun r hr m hm => h.elevation (h.read_rulesRating s hn r hr m hm)
  have hCost : weightedCost ((net.rulesRating s n).map (·.rename S.nodeId)) part.elevation =
      weightedCost (net.rulesRating s n) net.elevation := funext fun height => weightedCost_rename hElevation height
  rw [Network.improved?, h.rulesRating s hn, hCost, meanCorrection_rename hElevation, Network.improved?]

theorem relaxNode (hn : S.node n = true) (cooling : Float) :
    (net.relaxNode s cooling n).2.Selects S (part.relaxNode s cooling (S.nodeId n)).2 := by
  have hSame : part.improved? s (S.nodeId n) cooling = net.improved? s n cooling :=
    funext (h.improved? s hn cooling)
  rw [Network.relaxNode, Network.relaxNode, h.elevation hn, hSame]
  cases (net.elevation n).bind (net.improved? s n cooling) with
  | none => exact h
  | some height =>
    refine h.modifyNode hn (fun _ => rfl) (fun _ => rfl) (fun _ _ => rfl) ?_ ?_
    · intro j hj
      have hLinks := h.links hj
      exact hLinks
    · intro j hj
      have hRead := h.read hj hn
      exact hRead

theorem relaxNode_dropped (hn : S.node n = false) (cooling : Float) :
    (net.relaxNode s cooling n).2.Selects S part := by
  rw [Network.relaxNode]
  split
  · refine h.modifyNode_dropped hn (fun _ => rfl) ?_
    intro j hj
    have hLinks := h.links hj
    exact hLinks
  · exact h

theorem nextPass (cooling : Float) :
    (net.nextPass s cooling).network.Selects S (part.nextPass s cooling).network := by
  rw [Network.nextPass, Network.nextPass, h.nodes.ids_eq]
  refine foldl_filter_related (R := fun pass pass' : Pass => pass.network.Selects S pass'.network) ?_ ?_ _ h
  · intro n pass pass' hn hPass
    exact hPass.relaxNode s hn cooling
  · intro n pass pass' hn hPass
    exact hPass.relaxNode_dropped s hn cooling

omit h s in
/-- As many passes as there are rounds make the same of the part as of the whole. -/
theorem passes (s : SolverSettings) (rounds finished : Nat) (cooling : Float) {net part : Network}
    (h : net.Selects S part) :
    (Relaxation.mk net (net.passes s (fun _ _ => true) rounds finished cooling)).network.Selects S
      (Relaxation.mk part (part.passes s (fun _ _ => true) rounds finished cooling)).network := by
  induction rounds generalizing finished cooling net part with
  | zero => exact h
  | succ rounds ih =>
    have hRest := ih (finished + 1) (cooling * s.coolingDecay) (h.nextPass s cooling)
    simp only [Relaxation.network, Network.passes, if_true, List.getLast?_cons, Option.map_some,
      Option.getD_some] at hRest ⊢
    rw [Option.getD_map, Option.getD_map] at hRest
    exact hRest

theorem relaxWhile : (net.relaxWhile s fun _ _ => true).network.Selects S
    (part.relaxWhile s fun _ _ => true).network := by
  rw [Network.relaxWhile, Network.relaxWhile]
  exact h.passes s s.iterations.toNat 0 s.initialCooling

end Selects

end Network

end TrackLayout
