import TrackLayout.Heights.Derivation
import TrackLayout.Heights.Relaxation
import TrackLayout.Import
import TrackLayout.Network.Cleanup
import TrackLayout.Network.Straightness

/-!
# Conversion

From source ways to a network with clean junctions and heights: import,
cleanup, straightness, height rules, relaxation. A converter holds settings
that have been validated.
-/
set_option autoImplicit false

namespace TrackLayout

structure Converter where
  settings : ConversionSettings
  valid : settings.validate = .ok ()

/-- Refuses settings out of range. -/
def Converter.make? (settings : ConversionSettings) : Except SettingsError Converter :=
  match h : settings.validate with
  | .ok () => .ok ⟨settings, h⟩
  | .error e => .error e

structure ConversionReport where
  imported : ImportReport := {}
  cleanup : Network.CleanupReport := {}
  straightConnections : Nat := 0
  heightRules : Nat := 0
  relaxation : RelaxationReport := {}
  deriving DecidableEq, Inhabited

/-- A finished network, with the warnings on the way and the passes of the relaxation. -/
structure Finished where
  network : Network
  report : ConversionReport
  warnings : List GroundWarning
  passes : List Network.Pass

namespace Converter

/-- Cleans up a network that is there already, derives its rules and relaxes it as long as `goOn` agrees. -/
def finishWhile (c : Converter) (net : Network) (ground : Ground) (goOn : Network.GoOn) :
    Except NetworkError Finished := do
  let (cleanup, clean) ← net.cleanup
  let drawn := clean.markByEdits
  let derived ← drawn.network.deriveByEdits ground c.settings.rules
  let relaxed := derived.network.relaxWhile c.settings.solver goOn
  return {
    network := relaxed.network
    report := {
      cleanup
      straightConnections := drawn.straight
      heightRules := derived.added
      relaxation := relaxed.report }
    warnings := derived.warnings
    passes := relaxed.passes }

def finish (c : Converter) (net : Network) (ground : Ground) : Except NetworkError Finished :=
  c.finishWhile net ground fun _ _ => true

/-- Builds a network from ways and finishes it. -/
def convert (c : Converter) (ways : List Way) (classifiers : List WayClassifier) (ground : Ground) :
    Except NetworkError Finished :=
  match ImportState.importWays ⟨{}, .empty⟩ ways classifiers with
  | (some e, _) => .error e
  | (none, s) =>
    (c.finish s.network ground).map fun p => { p with report.imported := s.importer.report }

end Converter

end TrackLayout
