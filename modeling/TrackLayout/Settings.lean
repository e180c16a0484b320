import TrackLayout.Decimal.Style

/-!
# Settings

What can be tuned about a conversion, with its defaults, and the ranges that
are accepted. Validation names the first offending field and says what is
wrong with it; a value that is not a number is in no range.
-/
set_option autoImplicit false

namespace TrackLayout

/-- The schedule of the relaxation. -/
structure SolverSettings where
  iterations : UInt64 := 20
  initialCooling : Float := 0.8
  coolingDecay : Float := 0.95
  refinementRounds : UInt64 := 4
  stepShrink : Float := 3.0
  /-- Whether the rules of linked nodes rate a node too. -/
  poolLinkedRules : Bool := false
  deriving DecidableEq, Inhabited

/-- Weights and search distances of the derived rules. -/
structure RuleSettings where
  fixedHeightWeight : Float := 0.2
  baseTolerance : Float := 1.0
  embankmentTolerance : Float := 5.0
  inclineWeight : Float := 1.0
  smoothInclineWeight : Float := 0.5
  neighbourWeight : Float := 2.0
  neighbourMaxSideward : Float := 10.0
  neighbourMaxForward : Float := 1.0
  deriving DecidableEq, Inhabited

structure ConversionSettings where
  solver : SolverSettings := {}
  rules : RuleSettings := {}
  deriving DecidableEq, Inhabited

/-- What is wrong with a value. -/
inductive RangeError where
  | zero
  | notAboveOne
  | outsideUnit (value : Float)
  | notPositive (value : Float)
  | negative (value : Float)
  deriving DecidableEq

def RangeError.message : RangeError → String
  | .zero => "must be positive"
  | .notAboveOne => "must be greater than 1"
  | .outsideUnit x => NumberStyle.plain.write x ++ " is outside (0, 1]"
  | .notPositive x => NumberStyle.plain.write x ++ " must be positive"
  | .negative x => NumberStyle.plain.write x ++ " must not be negative"

inductive SettingsError where
  /-- The text holds no settings. -/
  | unreadable
  | invalid (field : String) (reason : RangeError)
  deriving DecidableEq

def SettingsError.message : SettingsError → String
  | .unreadable => "failed to parse settings"
  | .invalid field reason => "invalid setting `" ++ field ++ "`: " ++ reason.message

/-! ## Ranges -/

def atLeastOnce (n : UInt64) : Option RangeError := if n = 0 then some .zero else none

def aboveOne (x : Float) : Option RangeError := if 1.0 < x then none else some .notAboveOne

def inUnit (x : Float) : Option RangeError := if 0.0 < x && x ≤ 1.0 then none else some (.outsideUnit x)

def positive (x : Float) : Option RangeError := if 0.0 < x then none else some (.notPositive x)

def notNegative (x : Float) : Option RangeError := if 0.0 ≤ x then none else some (.negative x)

/-- Every checked field and what is wrong with it, in the order of the checks. -/
def ConversionSettings.findings (s : ConversionSettings) : List (String × Option RangeError) :=
  [ ("solver.iterations", atLeastOnce s.solver.iterations),
    ("solver.refinement_rounds", atLeastOnce s.solver.refinementRounds),
    ("solver.initial_cooling", inUnit s.solver.initialCooling),
    ("solver.cooling_decay", inUnit s.solver.coolingDecay),
    ("solver.step_shrink", aboveOne s.solver.stepShrink),
    ("rules.base_tolerance", positive s.rules.baseTolerance),
    ("rules.neighbour_max_sideward", positive s.rules.neighbourMaxSideward),
    ("rules.fixed_height_weight", notNegative s.rules.fixedHeightWeight),
    ("rules.embankment_tolerance", notNegative s.rules.embankmentTolerance),
    ("rules.incline_weight", notNegative s.rules.inclineWeight),
    ("rules.smooth_incline_weight", notNegative s.rules.smoothInclineWeight),
    ("rules.neighbour_weight", notNegative s.rules.neighbourWeight),
    ("rules.neighbour_max_forward", notNegative s.rules.neighbourMaxForward) ]

/-- The first finding, if there is one. -/
def ConversionSettings.validate (s : ConversionSettings) : Except SettingsError Unit :=
  match s.findings.findSome? fun (field, finding) => finding.map (field, ·) with
  | some (field, reason) => .error (.invalid field reason)
  | none => .ok ()

end TrackLayout
