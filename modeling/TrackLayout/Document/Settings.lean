import TrackLayout.Document
import TrackLayout.Settings

/-!
# Documents of settings

Every field, and every section, may be left out and then has its default.
Settings read from a text are validated.
-/
set_option autoImplicit false

namespace TrackLayout

open Document (toJson)

instance : Document SolverSettings where
  toJson s := .record
    [("iterations", toJson s.iterations), ("initial_cooling", toJson s.initialCooling),
      ("cooling_decay", toJson s.coolingDecay), ("refinement_rounds", toJson s.refinementRounds),
      ("step_shrink", toJson s.stepShrink), ("pool_linked_rules", toJson s.poolLinkedRules)]
  ofJson? j := do
    let f ← j.fields? ["iterations", "initial_cooling", "cooling_decay", "refinement_rounds",
      "step_shrink", "pool_linked_rules"]
    let d : SolverSettings := {}
    return {
      iterations := ← f.getD "iterations" d.iterations
      initialCooling := ← f.getD "initial_cooling" d.initialCooling
      coolingDecay := ← f.getD "cooling_decay" d.coolingDecay
      refinementRounds := ← f.getD "refinement_rounds" d.refinementRounds
      stepShrink := ← f.getD "step_shrink" d.stepShrink
      poolLinkedRules := ← f.getD "pool_linked_rules" d.poolLinkedRules }

instance : Document RuleSettings where
  toJson s := .record
    [("fixed_height_weight", toJson s.fixedHeightWeight), ("base_tolerance", toJson s.baseTolerance),
      ("embankment_tolerance", toJson s.embankmentTolerance), ("incline_weight", toJson s.inclineWeight),
      ("smooth_incline_weight", toJson s.smoothInclineWeight),
      ("neighbour_weight", toJson s.neighbourWeight),
      ("neighbour_max_sideward", toJson s.neighbourMaxSideward),
      ("neighbour_max_forward", toJson s.neighbourMaxForward)]
  ofJson? j := do
    let f ← j.fields? ["fixed_height_weight", "base_tolerance", "embankment_tolerance", "incline_weight",
      "smooth_incline_weight", "neighbour_weight", "neighbour_max_sideward", "neighbour_max_forward"]
    let d : RuleSettings := {}
    return {
      fixedHeightWeight := ← f.getD "fixed_height_weight" d.fixedHeightWeight
      baseTolerance := ← f.getD "base_tolerance" d.baseTolerance
      embankmentTolerance := ← f.getD "embankment_tolerance" d.embankmentTolerance
      inclineWeight := ← f.getD "incline_weight" d.inclineWeight
      smoothInclineWeight := ← f.getD "smooth_incline_weight" d.smoothInclineWeight
      neighbourWeight := ← f.getD "neighbour_weight" d.neighbourWeight
      neighbourMaxSideward := ← f.getD "neighbour_max_sideward" d.neighbourMaxSideward
      neighbourMaxForward := ← f.getD "neighbour_max_forward" d.neighbourMaxForward }

instance : Document ConversionSettings where
  toJson s := .record [("solver", toJson s.solver), ("rules", toJson s.rules)]
  ofJson? j := do
    let f ← j.fields? ["solver", "rules"]
    return ⟨← f.getD "solver" {}, ← f.getD "rules" {}⟩

namespace ConversionSettings

def toText (s : ConversionSettings) : String := (toJson s).pretty

def ofText (text : String) : Except SettingsError ConversionSettings := do
  match (Document.parse? text : Option ConversionSettings) with
  | none => throw .unreadable
  | some s =>
    s.validate
    return s

end ConversionSettings

end TrackLayout
