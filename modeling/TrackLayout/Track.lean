import TrackLayout.Decimal.Style
import TrackLayout.Scalar

/-!
# Tracks

What a connection is made of: its subnetwork, the inclines its track admits,
how high it runs above the ground, and the plane it belongs to. An incline is
height gained per metre. A track type that was read is taken as it is; only
the constructor checks its inclines.
-/
set_option autoImplicit false

namespace TrackLayout

structure InclineRange (α : Type) where
  least : α
  greatest : α
  deriving DecidableEq, Inhabited

/-- The inclines met in the opposite direction of travel. -/
def InclineRange.reversed {α : Type} [Scalar α] (r : InclineRange α) : InclineRange α :=
  ⟨-r.greatest, -r.least⟩

inductive InclineError where
  | inverted (range : InclineRange Float)
  deriving DecidableEq

def InclineError.message : InclineError → String
  | .inverted r =>
    "incline range is inverted: min " ++ NumberStyle.plain.write r.least ++ " > max " ++
      NumberStyle.plain.write r.greatest

/-- A range is refused if its least incline is above its greatest; undefined inclines pass. -/
def InclineRange.check (r : InclineRange Float) : Except InclineError (InclineRange Float) :=
  if r.greatest < r.least then .error (.inverted r) else .ok r

inductive Subnetwork where
  | rail
  | street
  /-- Fences, walls and the like. -/
  | barrier
  | waterway
  /-- The wire above an electrified track. -/
  | contactWire
  deriving DecidableEq, Inhabited

def Subnetwork.inclines : Subnetwork → InclineRange Float
  | .rail => ⟨-0.05, 0.05⟩
  | .street => ⟨-0.5, 0.5⟩
  | .barrier => ⟨-1.0, 1.0⟩
  | .waterway => ⟨-0.3, 0.0⟩
  | .contactWire => ⟨-0.3, 0.3⟩

structure TrackType where
  id : Int64
  subnetwork : Subnetwork
  inclines : InclineRange Float
  deriving DecidableEq, Inhabited

namespace TrackType

/-- A track with the inclines usual in its subnetwork. -/
def ofSubnetwork (id : Int64) (subnetwork : Subnetwork) : TrackType := ⟨id, subnetwork, subnetwork.inclines⟩

def withInclines (id : Int64) (subnetwork : Subnetwork) (inclines : InclineRange Float) :
    Except InclineError TrackType :=
  inclines.check.map (⟨id, subnetwork, ·⟩)

/-- Rail without an identity of its own. -/
def standard : TrackType := ofSubnetwork (-1) .rail

end TrackType

inductive HeightType where
  | bridge
  | embankment
  | onGround
  | tunnel
  | unspecified
  deriving DecidableEq, Inhabited

/-- Height above the ground in metres, where there is a fixed one. -/
def HeightType.offset? : HeightType → Option Float
  | .bridge => some 8.0
  | .embankment => some 3.0
  | .onGround => some 0.0
  | .tunnel | .unspecified => none

/-- Whether track of this kind lies on the terrain. -/
def HeightType.followsGround : HeightType → Bool
  | .embankment | .onGround => true
  | .bridge | .tunnel | .unspecified => false

/-- Tracks on different planes are placed independently of each other. -/
structure HeightPlane where
  val : UInt32
  deriving DecidableEq, Inhabited

end TrackLayout
