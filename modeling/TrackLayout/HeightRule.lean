import TrackLayout.Id
import TrackLayout.Track

/-!
# Height rules

A rule rates the height of the node that carries it: zero is best. It also
suggests a change of height that would satisfy it. Both are formulas over any
scalar. A rule that mentions a node without elevation is silent.
-/
set_option autoImplicit false

namespace TrackLayout

inductive HeightRule (α : Type) where
  /-- Stay near a height. -/
  | fixedHeight (target tolerance weight : α)
  /-- Lie on the line between two nodes, at a ratio of the way from the first to the second. -/
  | betweenNodes (first second : NodeId) (ratio weight : α)
  /-- Keep the incline towards a node in a range. -/
  | inclineBetween (inclines : InclineRange α) (other : NodeId) (length weight : α)
  /-- The node is at the same place as another one. This rates nothing. -/
  | linkedTo (other : NodeId)
  deriving DecidableEq, Inhabited

namespace HeightRule

variable {α : Type} [Scalar α]

def weight : HeightRule α → α
  | .fixedHeight _ _ w | .betweenNodes _ _ _ w | .inclineBetween _ _ _ w => w
  | .linkedTo _ => 0.0

omit [Scalar α] in
def linked? : HeightRule α → Option NodeId
  | .linkedTo other => some other
  | _ => none

/-- One at a deviation of a full tolerance, growing with the square. -/
def squaredRatio (deviation tolerance : α) : α := deviation * deviation / (tolerance * tolerance)

/-- The incline in the middle of a range. -/
def meanIncline (r : InclineRange α) : α := (r.least + r.greatest) / 2.0

/-- Narrower bands are widened to this half-width, which keeps the cost of a single incline finite. -/
def leastHalfWidth : α := 0.00005

def halfWidth (r : InclineRange α) : α := Scalar.larger (r.greatest - meanIncline r) leastHalfWidth

/-- Tolerance of a place between two nodes at equal heights. -/
def betweenTolerance : α := 0.1

/-- The change of height that brings a node onto the line between two heights. -/
def lineDelta (ratio first second height : α) : α :=
  let target := (1.0 - ratio) * first + ratio * second
  if Scalar.isUndefined target then 0.0 else target - height

/-- The change of height that the rule suggests. -/
def correction (rule : HeightRule α) (height : α) (elevation : NodeId → Option α) : α :=
  match rule with
  | .fixedHeight target _ _ => target - height
  | .betweenNodes first second ratio _ =>
    match elevation first, elevation second with
    | some h₁, some h₂ => lineDelta ratio h₁ h₂ height
    | _, _ => 0.0
  | .inclineBetween inclines other length _ =>
    match elevation other with
    | some h => h - meanIncline inclines * length - height
    | none => 0.0
  | .linkedTo _ => 0.0

/-- How bad a height is, without the weight of the rule. -/
def cost (rule : HeightRule α) (height : α) (elevation : NodeId → Option α) : α :=
  match rule with
  | .fixedHeight target tolerance _ => squaredRatio (target - height) tolerance
  | .betweenNodes first second ratio _ =>
    match elevation first, elevation second with
    | some h₁, some h₂ =>
      let delta := lineDelta ratio h₁ h₂ height
      if Scalar.isZero delta then 0.0
      else squaredRatio delta (Scalar.abs (h₁ - h₂) / 4.0 + betweenTolerance)
    | _, _ => 0.0
  | .inclineBetween inclines other length _ =>
    match elevation other with
    | some h =>
      let x := ((h - height) / length - meanIncline inclines) / halfWidth inclines
      let square := x * x
      square * square
    | none => 0.0
  | .linkedTo _ => 0.0

end HeightRule

/-- The rules of a network. -/
abbrev Rule := HeightRule Float

/-- An incline rule with a checked range. -/
def Rule.inclineBetween? (inclines : InclineRange Float) (other : NodeId) (length weight : Float) :
    Except InclineError Rule :=
  inclines.check.map (.inclineBetween · other length weight)

end TrackLayout
