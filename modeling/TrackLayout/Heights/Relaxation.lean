import TrackLayout.Network
import TrackLayout.Settings

/-!
# Relaxation of heights

Passes over all nodes, in each of which a node may move to a height that its
rules rate better. A node first jumps to the weighted mean of what its rules
suggest and then refines the jump by a search with shrinking steps. A move is
kept only if it lowers the cost of the node; nothing is claimed about the sum
of all costs.
-/
set_option autoImplicit false

namespace TrackLayout

/-- Weighted cost of a height under rules. -/
def weightedCost (rules : List Rule) (elevation : NodeId → Option Float) (height : Float) : Float :=
  Binary64.sum (rules.map fun r => r.weight * r.cost height elevation)

/-- Weighted mean of what rules suggest; no change if the weights say nothing. -/
def meanCorrection (rules : List Rule) (elevation : NodeId → Option Float) (height : Float) : Float :=
  let (weights, delta) := rules.foldl
    (fun (weights, delta) r => (weights + r.weight, delta + r.correction height elevation * r.weight))
    ((0.0, 0.0) : Float × Float)
  if weights ≤ 0.0 || weights.isNaN || delta.isNaN then 0.0 else delta / weights

/-- A change of height, and its cost. -/
structure Jump where
  delta : Float
  cost : Float

/-- Tries a step up and a step down, with ever smaller steps, and keeps what is better. -/
def Jump.refine (cost : Float → Float) (height shrink : Float) : Nat → Float → Jump → Jump
  | 0, _, j => j
  | rounds + 1, step, j =>
    let up := cost (height + j.delta + step)
    let down := cost (height + j.delta - step)
    let next : Jump :=
      if up < j.cost && up < down then ⟨j.delta + step, up⟩
      else if down < j.cost then ⟨j.delta - step, down⟩
      else j
    Jump.refine cost height shrink rounds (step / shrink) next

namespace Network

/-- The rules that rate a node: its own, and those of linked nodes if they are pooled. -/
def rulesRating (s : SolverSettings) (net : Network) (id : NodeId) : List Rule :=
  match net.node? id with
  | none => []
  | some j =>
    if s.poolLinkedRules then
      j.rules ++ j.linked.flatMap fun other => ((net.node? other).map (·.rules)).getD []
    else j.rules

/-- Cost of putting a node at a height. -/
def costAt (s : SolverSettings) (net : Network) (id : NodeId) (height : Float) : Float :=
  weightedCost (net.rulesRating s id) net.elevation height

/-- A better height for a node at a height, if the search finds one. -/
def improved? (s : SolverSettings) (net : Network) (id : NodeId) (cooling height : Float) : Option Float :=
  let rules := net.rulesRating s id
  let cost := weightedCost rules net.elevation
  let delta := meanCorrection rules net.elevation height
  let best := Jump.refine cost height s.stepShrink s.refinementRounds.toNat (cooling * delta)
    ⟨delta, cost (height + delta)⟩
  if best.cost < cost height then some (height + best.delta) else none

/-- Moves a node to a better height; tells whether it moved. A node without elevation stays without. -/
def relaxNode (s : SolverSettings) (net : Network) (cooling : Float) (id : NodeId) : Bool × Network :=
  match (net.elevation id).bind (net.improved? s id cooling) with
  | some height => (true, net.modifyNode id (·.withElevation height))
  | none => (false, net)

/-- Sum of the costs of all nodes that have an elevation, each under its own rules. -/
def costSum (net : Network) : Float :=
  Binary64.sum (net.nodes.values.filterMap fun j => j.elevation.map (weightedCost j.rules net.elevation))

/-- What a pass did. -/
structure Pass where
  moves : Nat
  network : Network

/-- One pass over all nodes in order. -/
def nextPass (s : SolverSettings) (net : Network) (cooling : Float) : Pass :=
  net.nodes.ids.foldl (fun pass id =>
    match pass.network.relaxNode s cooling id with
    | (moved, network) => ⟨pass.moves + moved.toNat, network⟩) ⟨0, net⟩

/-- Whether to go on, given how many passes are finished and the network they left. -/
abbrev GoOn := Nat → Network → Bool

/-- At most `rounds` more passes; the last one is the first after which `goOn` says no. -/
def passes (s : SolverSettings) (goOn : GoOn) :
    (rounds finished : Nat) → (cooling : Float) → Network → List Pass
  | 0, _, _, _ => []
  | rounds + 1, finished, cooling, net =>
    let pass := net.nextPass s cooling
    pass :: if goOn (finished + 1) pass.network then
      passes s goOn rounds (finished + 1) (cooling * s.coolingDecay) pass.network
    else []

end Network

structure RelaxationReport where
  passes : Nat := 0
  moves : Nat := 0
  initialCost : Float := 0.0
  finalCost : Float := 0.0
  deriving DecidableEq, Inhabited

/-- A finished relaxation with all its passes. -/
structure Relaxation where
  start : Network
  passes : List Network.Pass

namespace Relaxation

/-- The network the last pass left. -/
def network (r : Relaxation) : Network := (r.passes.getLast?.map (·.network)).getD r.start

def report (r : Relaxation) : RelaxationReport where
  passes := r.passes.length
  moves := r.passes.foldl (fun moves pass => moves + pass.moves) 0
  initialCost := r.start.costSum
  finalCost := r.network.costSum

end Relaxation

/-- Runs passes as long as the settings allow and `goOn` agrees. -/
def Network.relaxWhile (net : Network) (s : SolverSettings) (goOn : Network.GoOn) : Relaxation :=
  ⟨net, net.passes s goOn s.iterations.toNat 0 s.initialCooling⟩

/-- Runs all passes of the settings. -/
def Network.relax (net : Network) (s : SolverSettings) : Relaxation := net.relaxWhile s fun _ _ => true

end TrackLayout
