import TrackLayout.Document.Settings
import TrackLayout.Proofs.Document.Values
import TrackLayout.Proofs.Json.Ranges
import TrackLayout.Proofs.Json.Text

/-!
# Settings saved and loaded

Settings that are accepted stay so when they are written and read back, and
when a text gives some of their fields only. What is not given has its default.
A number is read back but for its last places, and as it was if it has few
digits; one that is infinite cannot be read.
-/
set_option autoImplicit false

namespace TrackLayout

open Document (toJson ofJson?)
open Json (reread FewDigits Near)

/-! ## Fields -/

namespace SolverSettings

def fields (s : SolverSettings) : List (String × Json) :=
  [("iterations", toJson s.iterations), ("initial_cooling", toJson s.initialCooling),
    ("cooling_decay", toJson s.coolingDecay), ("refinement_rounds", toJson s.refinementRounds),
    ("step_shrink", toJson s.stepShrink), ("pool_linked_rules", toJson s.poolLinkedRules)]

def numbers (s : SolverSettings) : List (String × Float) :=
  [("initial_cooling", s.initialCooling), ("cooling_decay", s.coolingDecay), ("step_shrink", s.stepShrink)]

def mapNumbers (f : Float → Float) (s : SolverSettings) : SolverSettings :=
  { s with
    initialCooling := f s.initialCooling
    coolingDecay := f s.coolingDecay
    stepShrink := f s.stepShrink }

/-- The default settings overwritten on the given fields. -/
def overwriting (s : SolverSettings) (given : String → Bool) : SolverSettings :=
  let d : SolverSettings := {}
  { iterations := if given "iterations" then s.iterations else d.iterations
    initialCooling := if given "initial_cooling" then s.initialCooling else d.initialCooling
    coolingDecay := if given "cooling_decay" then s.coolingDecay else d.coolingDecay
    refinementRounds := if given "refinement_rounds" then s.refinementRounds else d.refinementRounds
    stepShrink := if given "step_shrink" then s.stepShrink else d.stepShrink
    poolLinkedRules := if given "pool_linked_rules" then s.poolLinkedRules else d.poolLinkedRules }

/-- Every check passes. -/
structure Accepted (s : SolverSettings) : Prop where
  iterations : atLeastOnce s.iterations = none
  refinementRounds : atLeastOnce s.refinementRounds = none
  initialCooling : inUnit s.initialCooling = none
  coolingDecay : inUnit s.coolingDecay = none
  stepShrink : aboveOne s.stepShrink = none

end SolverSettings

namespace RuleSettings

def fields (s : RuleSettings) : List (String × Json) :=
  [("fixed_height_weight", toJson s.fixedHeightWeight), ("base_tolerance", toJson s.baseTolerance),
    ("embankment_tolerance", toJson s.embankmentTolerance), ("incline_weight", toJson s.inclineWeight),
    ("smooth_incline_weight", toJson s.smoothInclineWeight), ("neighbour_weight", toJson s.neighbourWeight),
    ("neighbour_max_sideward", toJson s.neighbourMaxSideward),
    ("neighbour_max_forward", toJson s.neighbourMaxForward)]

def numbers (s : RuleSettings) : List (String × Float) :=
  [("fixed_height_weight", s.fixedHeightWeight), ("base_tolerance", s.baseTolerance),
    ("embankment_tolerance", s.embankmentTolerance), ("incline_weight", s.inclineWeight),
    ("smooth_incline_weight", s.smoothInclineWeight), ("neighbour_weight", s.neighbourWeight),
    ("neighbour_max_sideward", s.neighbourMaxSideward), ("neighbour_max_forward", s.neighbourMaxForward)]

def mapNumbers (f : Float → Float) (s : RuleSettings) : RuleSettings where
  fixedHeightWeight := f s.fixedHeightWeight
  baseTolerance := f s.baseTolerance
  embankmentTolerance := f s.embankmentTolerance
  inclineWeight := f s.inclineWeight
  smoothInclineWeight := f s.smoothInclineWeight
  neighbourWeight := f s.neighbourWeight
  neighbourMaxSideward := f s.neighbourMaxSideward
  neighbourMaxForward := f s.neighbourMaxForward

/-- The default settings overwritten on the given fields. -/
def overwriting (s : RuleSettings) (given : String → Bool) : RuleSettings :=
  let d : RuleSettings := {}
  { fixedHeightWeight := if given "fixed_height_weight" then s.fixedHeightWeight else d.fixedHeightWeight
    baseTolerance := if given "base_tolerance" then s.baseTolerance else d.baseTolerance
    embankmentTolerance := if given "embankment_tolerance" then s.embankmentTolerance else d.embankmentTolerance
    inclineWeight := if given "incline_weight" then s.inclineWeight else d.inclineWeight
    smoothInclineWeight := if given "smooth_incline_weight" then s.smoothInclineWeight else d.smoothInclineWeight
    neighbourWeight := if given "neighbour_weight" then s.neighbourWeight else d.neighbourWeight
    neighbourMaxSideward := if given "neighbour_max_sideward" then s.neighbourMaxSideward else d.neighbourMaxSideward
    neighbourMaxForward := if given "neighbour_max_forward" then s.neighbourMaxForward else d.neighbourMaxForward }

/-- Every check passes. -/
structure Accepted (s : RuleSettings) : Prop where
  baseTolerance : positive s.baseTolerance = none
  neighbourMaxSideward : positive s.neighbourMaxSideward = none
  fixedHeightWeight : notNegative s.fixedHeightWeight = none
  embankmentTolerance : notNegative s.embankmentTolerance = none
  inclineWeight : notNegative s.inclineWeight = none
  smoothInclineWeight : notNegative s.smoothInclineWeight = none
  neighbourWeight : notNegative s.neighbourWeight = none
  neighbourMaxForward : notNegative s.neighbourMaxForward = none

end RuleSettings

/-! ## Checks -/

section Checks

variable {x : Float}

theorem aboveOne_eq_none_iff : aboveOne x = none ↔ 1.0 < x := by simp [aboveOne]

theorem inUnit_eq_none_iff : inUnit x = none ↔ 0.0 < x ∧ x ≤ 1.0 := by simp [inUnit]

theorem positive_eq_none_iff : positive x = none ↔ 0.0 < x := by simp [positive]

theorem notNegative_eq_none_iff : notNegative x = none ↔ 0.0 ≤ x := by simp [notNegative]

/-- A check that passes a finite value passes what it comes back as. -/
def KeptByReading (check : Float → Option RangeError) : Prop :=
  ∀ x : Float, x.isFinite = true → check x = none → check (reread x) = none

theorem keeps_aboveOne : KeptByReading aboveOne := fun x hFinite h => by
  rw [aboveOne_eq_none_iff] at h ⊢
  exact Json.one_lt_reread hFinite h

theorem keeps_inUnit : KeptByReading inUnit := fun x hFinite h => by
  rw [inUnit_eq_none_iff] at h ⊢
  exact ⟨Json.pos_reread hFinite h.1, Json.le_one_reread hFinite h.1 h.2⟩

theorem keeps_positive : KeptByReading positive := fun x hFinite h => by
  rw [positive_eq_none_iff] at h ⊢
  exact Json.pos_reread hFinite h

theorem keeps_notNegative : KeptByReading notNegative := fun x hFinite h => by
  rw [notNegative_eq_none_iff] at h ⊢
  exact Json.nonneg_reread hFinite h

end Checks

/-- A check passes a field that is given or has its default. -/
theorem check_ite {α : Type} {check : α → Option RangeError} {b : Bool} {a d : α}
    (ha : b = true → check a = none) (hd : check d = none) : check (if b then a else d) = none := by
  cases b with
  | false => exact hd
  | true => exact ha rfl

/-- The same of a number that comes back from a text. -/
theorem KeptByReading.check_ite {check : Float → Option RangeError} (hKept : KeptByReading check) {b : Bool}
    {x d : Float} (hFinite : b = true → x.isFinite = true) (hx : check x = none) (hd : check d = none) :
    check (if b then reread x else d) = none :=
  TrackLayout.check_ite (fun hGiven => hKept x (hFinite hGiven) hx) hd

theorem ConversionSettings.validate_eq_ok_iff (s : ConversionSettings) :
    s.validate = .ok () ↔ s.solver.Accepted ∧ s.rules.Accepted := by
  have hFindings : s.validate = .ok () ↔ ∀ f ∈ s.findings, f.2 = none := by
    rw [validate]
    split
    · next field reason hFound =>
      obtain ⟨f, hf, hReason⟩ := List.exists_of_findSome?_eq_some hFound
      obtain ⟨r, hr, -⟩ := Option.map_eq_some_iff.mp hReason
      refine iff_of_false (fun hOk => ?_) fun hNone => ?_
      · cases hOk
      · exact Option.some_ne_none r (hr.symm.trans (hNone f hf))
    · next hNone =>
      refine iff_of_true rfl fun f hf => ?_
      exact Option.map_eq_none_iff.mp (List.findSome?_eq_none_iff.mp hNone f hf)
  rw [hFindings, findings]
  simp only [List.forall_mem_cons]
  constructor
  · rintro ⟨h1, h2, h3, h4, h5, h6, h7, h8, h9, h10, h11, h12, h13, -⟩
    exact ⟨⟨h1, h2, h3, h4, h5⟩, ⟨h6, h7, h8, h9, h10, h11, h12, h13⟩⟩
  · rintro ⟨⟨h1, h2, h3, h4, h5⟩, ⟨h6, h7, h8, h9, h10, h11, h12, h13⟩⟩
    exact ⟨h1, h2, h3, h4, h5, h6, h7, h8, h9, h10, h11, h12, h13, List.forall_mem_nil _⟩

section Accepted

variable {given : String → Bool}

theorem SolverSettings.Accepted.overwriting {s : SolverSettings} (h : s.Accepted)
    (hFinite : ∀ m ∈ s.numbers, given m.1 = true → m.2.isFinite = true) :
    ((s.mapNumbers reread).overwriting given).Accepted := by
  simp only [numbers, List.forall_mem_cons] at hFinite
  obtain ⟨hCooling, hDecay, hShrink, -⟩ := hFinite
  exact {
    iterations := check_ite (fun _ => h.iterations) (by decide)
    refinementRounds := check_ite (fun _ => h.refinementRounds) (by decide)
    initialCooling := keeps_inUnit.check_ite hCooling h.initialCooling (by decide +kernel)
    coolingDecay := keeps_inUnit.check_ite hDecay h.coolingDecay (by decide +kernel)
    stepShrink := keeps_aboveOne.check_ite hShrink h.stepShrink (by decide +kernel) }

theorem RuleSettings.Accepted.overwriting {s : RuleSettings} (h : s.Accepted)
    (hFinite : ∀ m ∈ s.numbers, given m.1 = true → m.2.isFinite = true) :
    ((s.mapNumbers reread).overwriting given).Accepted := by
  simp only [numbers, List.forall_mem_cons] at hFinite
  obtain ⟨hFixed, hBase, hEmbankment, hIncline, hSmooth, hNeighbour, hSideward, hForward, -⟩ := hFinite
  exact {
    baseTolerance := keeps_positive.check_ite hBase h.baseTolerance (by decide +kernel)
    neighbourMaxSideward := keeps_positive.check_ite hSideward h.neighbourMaxSideward (by decide +kernel)
    fixedHeightWeight := keeps_notNegative.check_ite hFixed h.fixedHeightWeight (by decide +kernel)
    embankmentTolerance := keeps_notNegative.check_ite hEmbankment h.embankmentTolerance (by decide +kernel)
    inclineWeight := keeps_notNegative.check_ite hIncline h.inclineWeight (by decide +kernel)
    smoothInclineWeight := keeps_notNegative.check_ite hSmooth h.smoothInclineWeight (by decide +kernel)
    neighbourWeight := keeps_notNegative.check_ite hNeighbour h.neighbourWeight (by decide +kernel)
    neighbourMaxForward := keeps_notNegative.check_ite hForward h.neighbourMaxForward (by decide +kernel) }

end Accepted

/-! ## Reading -/

section Fields

variable {fields : List (String × Json)} {given : String → Bool} (hNames : (fields.map Prod.fst).Nodup)

include hNames

theorem getD_value {α : Type} [Document α] (name : String) {a d : α} (hf : (name, toJson a) ∈ fields)
    (hRead : ofJson? (toJson a) = some a) :
    Fields.getD ⟨fields.map fun f => (f.1, Fields.shown given f)⟩ name d = some (if given name then a else d) :=
  Fields.defaulted_eq_some hNames hf fun _ => hRead

theorem getD_number (name : String) {x d : Float} (hf : (name, toJson x) ∈ fields)
    (hFinite : given name = true → x.isFinite = true) :
    Fields.getD ⟨fields.map fun f => (f.1, Fields.shown given f)⟩ name d =
      some (if given name then reread x else d) :=
  Fields.defaulted_eq_some hNames hf fun hGiven => ofJson?_float (hFinite hGiven)

theorem getD_infinite (name : String) {x d : Float} (hf : (name, toJson x) ∈ fields) (hGiven : given name = true)
    (h : x.isFinite = false) :
    Fields.getD ⟨fields.map fun f => (f.1, Fields.shown given f)⟩ name d = none :=
  Fields.defaulted_eq_none hNames hf hGiven (ofJson?_float_eq_none h)

end Fields

/-- A change of numbers is not seen in a field that it leaves alone. -/
theorem ite_of_fixed {f : Float → Float} {b : Bool} {x : Float} (h : b = true → f x = x) (d : Float) :
    (if b then f x else d) = if b then x else d := by
  cases b with
  | false => rfl
  | true => exact h rfl

namespace SolverSettings

variable {s : SolverSettings} {given : String → Bool} {members : List (String × Json)}

theorem nodup_fields (s : SolverSettings) : (s.fields.map Prod.fst).Nodup := by simp [fields]

theorem ofJson?_shows (h : Fields.Shows s.fields given members)
    (hFinite : ∀ m ∈ s.numbers, given m.1 = true → m.2.isFinite = true) :
    ofJson? (.record members) = some ((s.mapNumbers reread).overwriting given) := by
  have hNames := s.nodup_fields
  simp only [numbers, List.forall_mem_cons] at hFinite
  obtain ⟨hCooling, hDecay, hShrink, -⟩ := hFinite
  refine (congrArg (Option.bind · _) (Json.fields?_record _ rfl hNames h)).trans ?_
  simp [getD_value hNames "iterations" (a := s.iterations) (by simp [fields]) (Json.uint64?_ofNat _),
    getD_value hNames "refinement_rounds" (a := s.refinementRounds) (by simp [fields]) (Json.uint64?_ofNat _),
    getD_value hNames "pool_linked_rules" (a := s.poolLinkedRules) (by simp [fields]) rfl,
    getD_number hNames "initial_cooling" (by simp [fields]) hCooling,
    getD_number hNames "cooling_decay" (by simp [fields]) hDecay,
    getD_number hNames "step_shrink" (by simp [fields]) hShrink, overwriting, mapNumbers]

theorem overwriting_mapNumbers {f : Float → Float} (h : ∀ m ∈ s.numbers, given m.1 = true → f m.2 = m.2) :
    (s.mapNumbers f).overwriting given = s.overwriting given := by
  simp only [numbers, List.forall_mem_cons] at h
  obtain ⟨hCooling, hDecay, hShrink, -⟩ := h
  rw [overwriting, overwriting]
  congr 1
  · exact ite_of_fixed hCooling _
  · exact ite_of_fixed hDecay _
  · exact ite_of_fixed hShrink _

/-- A number that is infinite is written as null, which is none. -/
theorem ofJson?_infinite (h : Fields.Shows s.fields given members) {m : String × Float} (hm : m ∈ s.numbers)
    (hGiven : given m.1 = true) (hInfinite : m.2.isFinite = false) :
    (ofJson? (.record members) : Option SolverSettings) = none := by
  have hNames := s.nodup_fields
  simp only [numbers, List.mem_cons, List.not_mem_nil, or_false] at hm
  refine (congrArg (Option.bind · _) (Json.fields?_record _ rfl hNames h)).trans ?_
  rcases hm with rfl | rfl | rfl
  all_goals simp [getD_infinite hNames _ (by simp [fields]) hGiven hInfinite]

end SolverSettings

namespace RuleSettings

variable {s : RuleSettings} {given : String → Bool} {members : List (String × Json)}

theorem nodup_fields (s : RuleSettings) : (s.fields.map Prod.fst).Nodup := by simp [fields]

theorem ofJson?_shows (h : Fields.Shows s.fields given members)
    (hFinite : ∀ m ∈ s.numbers, given m.1 = true → m.2.isFinite = true) :
    ofJson? (.record members) = some ((s.mapNumbers reread).overwriting given) := by
  have hNames := s.nodup_fields
  simp only [numbers, List.forall_mem_cons] at hFinite
  obtain ⟨hFixed, hBase, hEmbankment, hIncline, hSmooth, hNeighbour, hSideward, hForward, -⟩ := hFinite
  refine (congrArg (Option.bind · _) (Json.fields?_record _ rfl hNames h)).trans ?_
  simp [getD_number hNames "fixed_height_weight" (by simp [fields]) hFixed,
    getD_number hNames "base_tolerance" (by simp [fields]) hBase,
    getD_number hNames "embankment_tolerance" (by simp [fields]) hEmbankment,
    getD_number hNames "incline_weight" (by simp [fields]) hIncline,
    getD_number hNames "smooth_incline_weight" (by simp [fields]) hSmooth,
    getD_number hNames "neighbour_weight" (by simp [fields]) hNeighbour,
    getD_number hNames "neighbour_max_sideward" (by simp [fields]) hSideward,
    getD_number hNames "neighbour_max_forward" (by simp [fields]) hForward, overwriting, mapNumbers]

theorem overwriting_mapNumbers {f : Float → Float} (h : ∀ m ∈ s.numbers, given m.1 = true → f m.2 = m.2) :
    (s.mapNumbers f).overwriting given = s.overwriting given := by
  simp only [numbers, List.forall_mem_cons] at h
  obtain ⟨hFixed, hBase, hEmbankment, hIncline, hSmooth, hNeighbour, hSideward, hForward, -⟩ := h
  rw [overwriting, overwriting]
  congr 1
  · exact ite_of_fixed hFixed _
  · exact ite_of_fixed hBase _
  · exact ite_of_fixed hEmbankment _
  · exact ite_of_fixed hIncline _
  · exact ite_of_fixed hSmooth _
  · exact ite_of_fixed hNeighbour _
  · exact ite_of_fixed hSideward _
  · exact ite_of_fixed hForward _

theorem ofJson?_infinite (h : Fields.Shows s.fields given members) {m : String × Float} (hm : m ∈ s.numbers)
    (hGiven : given m.1 = true) (hInfinite : m.2.isFinite = false) :
    (ofJson? (.record members) : Option RuleSettings) = none := by
  have hNames := s.nodup_fields
  simp only [numbers, List.mem_cons, List.not_mem_nil, or_false] at hm
  refine (congrArg (Option.bind · _) (Json.fields?_record _ rfl hNames h)).trans ?_
  rcases hm with rfl | rfl | rfl | rfl | rfl | rfl | rfl | rfl
  all_goals simp [getD_infinite hNames _ (by simp [fields]) hGiven hInfinite]

end RuleSettings

/-! ## The whole settings -/

/-- Which sections and which of their fields are given. -/
structure GivenSettings where
  sections : String → Bool
  solver : String → Bool
  rules : String → Bool

def GivenSettings.all : GivenSettings := ⟨fun _ => true, fun _ => true, fun _ => true⟩

namespace ConversionSettings

def mapNumbers (f : Float → Float) (s : ConversionSettings) : ConversionSettings :=
  ⟨s.solver.mapNumbers f, s.rules.mapNumbers f⟩

/-- The default settings overwritten on what is given. -/
def overwriting (s : ConversionSettings) (g : GivenSettings) : ConversionSettings where
  solver := if g.sections "solver" then s.solver.overwriting g.solver else {}
  rules := if g.sections "rules" then s.rules.overwriting g.rules else {}

/-- The numbers that are given. -/
def numbers (s : ConversionSettings) (g : GivenSettings) : List (String × Float) :=
  (if g.sections "solver" then s.solver.numbers.filter (g.solver ·.1) else []) ++
    if g.sections "rules" then s.rules.numbers.filter (g.rules ·.1) else []

/-- An object that gives a part of the settings, in any order and among other members. -/
def ShownBy (s : ConversionSettings) (g : GivenSettings) (j : Json) : Prop :=
  ∃ members solver rules, j = .record members ∧
    Fields.Shows [("solver", .record solver), ("rules", .record rules)] g.sections members ∧
    Fields.Shows s.solver.fields g.solver solver ∧ Fields.Shows s.rules.fields g.rules rules

theorem shownBy_all (s : ConversionSettings) : s.ShownBy .all (toJson s) :=
  ⟨_, s.solver.fields, s.rules.fields, rfl, Fields.shows_self _, Fields.shows_self _, Fields.shows_self _⟩

variable {s : ConversionSettings} {g : GivenSettings}

theorem forall_numbers {p : String × Float → Prop} : (∀ m ∈ s.numbers g, p m) ↔
    (g.sections "solver" = true → ∀ m ∈ s.solver.numbers, g.solver m.1 = true → p m) ∧
      (g.sections "rules" = true → ∀ m ∈ s.rules.numbers, g.rules m.1 = true → p m) := by
  rw [numbers, List.forall_mem_append]
  refine and_congr ?_ ?_
  · cases g.sections "solver" <;> simp
  · cases g.sections "rules" <;> simp

theorem validate_default : validate {} = .ok () := by decide +kernel

/-- What is read is accepted wherever the settings that were written are. -/
theorem validate_overwriting (hAccepted : s.validate = .ok ())
    (hFinite : ∀ m ∈ s.numbers g, m.2.isFinite = true) :
    ((s.mapNumbers reread).overwriting g).validate = .ok () := by
  obtain ⟨hSolver, hRules⟩ := (validate_eq_ok_iff s).mp hAccepted
  obtain ⟨hSolverDefault, hRulesDefault⟩ := (validate_eq_ok_iff _).mp validate_default
  rw [forall_numbers] at hFinite
  rw [validate_eq_ok_iff, overwriting]
  constructor
  · dsimp only
    split
    · next hGiven => exact hSolver.overwriting (hFinite.1 hGiven)
    · exact hSolverDefault
  · dsimp only
    split
    · next hGiven => exact hRules.overwriting (hFinite.2 hGiven)
    · exact hRulesDefault

section Sections

variable {members solver rules : List (String × Json)}
  (hMembers : Fields.Shows [("solver", .record solver), ("rules", .record rules)] g.sections members)

include hMembers

/-- Settings are read section by section. -/
theorem ofJson?_sections : (ofJson? (.record members) : Option ConversionSettings) =
    (if g.sections "solver" then ofJson? (.record solver) else some {}).bind fun solver =>
      (if g.sections "rules" then ofJson? (.record rules) else some {}).bind fun rules =>
        some ⟨solver, rules⟩ := by
  have hNames : ([("solver", Json.record solver), ("rules", .record rules)].map Prod.fst).Nodup := by simp
  refine (congrArg (Option.bind · _) (Json.fields?_record _ rfl hNames hMembers)).trans ?_
  rw [Option.bind_some, Fields.getD, Fields.defaulted_of_mem hNames (f := ("solver", .record solver)) (by simp),
    Fields.getD, Fields.defaulted_of_mem hNames (f := ("rules", .record rules)) (by simp)]
  rfl

end Sections

theorem ofJson?_shownBy {j : Json} (h : s.ShownBy g j) (hFinite : ∀ m ∈ s.numbers g, m.2.isFinite = true) :
    ofJson? j = some ((s.mapNumbers reread).overwriting g) := by
  obtain ⟨members, solver, rules, rfl, hMembers, hSolver, hRules⟩ := h
  rw [forall_numbers] at hFinite
  have hFirst : (if g.sections "solver" then ofJson? (.record solver) else some {}) =
      some ((s.mapNumbers reread).overwriting g).solver := by
    rw [overwriting]
    split
    · next hGiven => exact SolverSettings.ofJson?_shows hSolver (hFinite.1 hGiven)
    · rfl
  have hSecond : (if g.sections "rules" then ofJson? (.record rules) else some {}) =
      some ((s.mapNumbers reread).overwriting g).rules := by
    rw [overwriting]
    split
    · next hGiven => exact RuleSettings.ofJson?_shows hRules (hFinite.2 hGiven)
    · rfl
  rw [ofJson?_sections hMembers, hFirst, hSecond]
  rfl

/-- Settings of which an infinite number is given cannot be read. -/
theorem ofJson?_infinite {j : Json} (h : s.ShownBy g j) (hInfinite : ¬∀ m ∈ s.numbers g, m.2.isFinite = true) :
    (ofJson? j : Option ConversionSettings) = none := by
  obtain ⟨members, solver, rules, rfl, hMembers, hSolver, hRules⟩ := h
  rw [forall_numbers, not_and_or] at hInfinite
  rw [ofJson?_sections hMembers]
  rcases hInfinite with hFirst | hSecond
  · push Not at hFirst
    obtain ⟨hSection, m, hm, hGiven, hNumber⟩ := hFirst
    rw [if_pos hSection, SolverSettings.ofJson?_infinite hSolver hm hGiven (Bool.eq_false_iff.mpr hNumber)]
    rfl
  · push Not at hSecond
    obtain ⟨hSection, m, hm, hGiven, hNumber⟩ := hSecond
    rw [if_pos hSection, RuleSettings.ofJson?_infinite hRules hm hGiven (Bool.eq_false_iff.mpr hNumber)]
    exact Option.bind_fun_none _

/-- The settings that a text gives a part of. -/
theorem ofText_shownBy (hAccepted : s.validate = .ok ()) {text : String} {j : Json}
    (hText : Json.parse? text = some j) (h : s.ShownBy g j) :
    ofText text = if ∀ m ∈ s.numbers g, m.2.isFinite = true then .ok ((s.mapNumbers reread).overwriting g)
      else .error .unreadable := by
  rw [ofText, Document.parse?, hText, Option.bind_some]
  by_cases hFinite : ∀ m ∈ s.numbers g, m.2.isFinite = true
  · rw [if_pos hFinite, ofJson?_shownBy h hFinite]
    dsimp only
    rw [validate_overwriting hAccepted hFinite]
    rfl
  · rw [if_neg hFinite, ofJson?_infinite h hFinite]
    rfl

/-- Few digits are read as they were written. -/
theorem overwriting_of_fewDigits (h : ∀ m ∈ s.numbers g, FewDigits m.2) :
    (s.mapNumbers reread).overwriting g = s.overwriting g := by
  rw [forall_numbers] at h
  rw [overwriting, overwriting]
  congr 1
  · split
    · next hGiven =>
      exact SolverSettings.overwriting_mapNumbers fun m hm hField => (h.1 hGiven m hm hField).reread_eq
    · rfl
  · split
    · next hGiven =>
      exact RuleSettings.overwriting_mapNumbers fun m hm hField => (h.2 hGiven m hm hField).reread_eq
    · rfl

/-- Accepted settings load from every text that gives a part of them: what is given overwrites the
defaults, and numbers of few digits are as they were, the others but for their last places. An infinite
number makes a text unreadable. -/
theorem ofText_accepted (s : ConversionSettings) (hAccepted : s.validate = .ok ()) :
    (∀ g text j, Json.parse? text = some j → s.ShownBy g j → ofText text =
      if ∀ m ∈ s.numbers g, m.2.isFinite = true then .ok ((s.mapNumbers reread).overwriting g)
      else .error .unreadable) ∧
    (ofText s.toText = if ∀ m ∈ s.numbers .all, m.2.isFinite = true then .ok (s.mapNumbers reread)
      else .error .unreadable) ∧
    (∀ g, ∀ m ∈ s.numbers g, m.2.isFinite = true → Near m.2 (reread m.2)) ∧
    ∀ g, (∀ m ∈ s.numbers g, FewDigits m.2) → (s.mapNumbers reread).overwriting g = s.overwriting g := by
  refine ⟨fun g text j hText hShown => ofText_shownBy hAccepted hText hShown, ?_,
    fun g m _ hFinite => Json.near_reread hFinite, fun g hFew => overwriting_of_fewDigits hFew⟩
  exact ofText_shownBy hAccepted (Json.parse?_pretty _) s.shownBy_all

/-- Accepted settings with a tolerance of an eleventh. -/
def narrow : ConversionSettings := { rules := { baseTolerance := 0.09090909090909091 } }

/-- What a text gives that holds two fields of the rules, among names of its own. -/
def excerpted : GivenSettings := ⟨(· == "rules"), fun _ => false, (["base_tolerance", "incline_weight"].contains ·)⟩

def excerptedRules : List (String × Json) :=
  [("base_tolerance", toJson narrow.rules.baseTolerance), ("comment", .null),
    ("incline_weight", toJson narrow.rules.inclineWeight)]

def excerpt : Json := .record [("rules", .record excerptedRules), ("version", .array [])]

theorem shownBy_excerpt : narrow.ShownBy excerpted excerpt := by
  refine ⟨_, [], excerptedRules, rfl, ⟨[("version", .array [])], ?_, ?_⟩, ⟨[], ?_, ?_⟩,
    ⟨[("comment", .null)], ?_, ?_⟩⟩
  · simp [excerpted]
  · simp
  · simp [excerpted]
  · simp
  · simp only [excerpted, excerptedRules, RuleSettings.fields]
    exact (List.Perm.swap _ _ _).cons _
  · simp [RuleSettings.fields]

theorem ofText_accepted_narrow : narrow.validate = .ok () ∧
    ofText narrow.toText = .ok (narrow.mapNumbers reread) ∧
    (narrow.mapNumbers reread).rules.baseTolerance = 0.09090909090909093 ∧
    ofText excerpt.pretty = .ok ((narrow.mapNumbers reread).overwriting excerpted) := by
  have hAccepted : narrow.validate = .ok () := by decide +kernel
  obtain ⟨hParts, hWhole, -⟩ := ofText_accepted narrow hAccepted
  rw [if_pos (by decide +kernel)] at hWhole
  have hExcerpt := hParts excerpted excerpt.pretty excerpt (Json.parse?_pretty _) shownBy_excerpt
  rw [if_pos (by decide +kernel)] at hExcerpt
  exact ⟨hAccepted, hWhole, by decide +kernel, hExcerpt⟩

/-- An eleventh has more digits than are read in one piece. -/
theorem ofText_accepted_ne : narrow.validate = .ok () ∧ ofText narrow.toText ≠ .ok narrow := by
  have hAccepted : narrow.validate = .ok () := by decide +kernel
  refine ⟨hAccepted, ?_⟩
  rw [toText, ofText_shownBy hAccepted (Json.parse?_pretty _) narrow.shownBy_all, if_pos (by decide +kernel)]
  exact fun hSame => absurd (Except.ok.inj hSame) (by decide +kernel)

end ConversionSettings

end TrackLayout
