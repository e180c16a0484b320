import TrackLayout.BoxTree.Node

/-!
# Splitting an overfull branch

The children are ordered along one of four box sides, and the order is cut in
two. The side is the one whose cuts have the least summed perimeters, the cut is
the one whose parts overlap least; the first of equals wins both times.
-/
set_option autoImplicit false

namespace TrackLayout.BoxNode

variable {α : Type}

/-- The box side along which children are ordered. -/
inductive Side where
  | minX
  | maxX
  | minY
  | maxY
  deriving DecidableEq

def Side.all : List Side := [.minX, .maxX, .minY, .maxY]

def Side.of : Side → Rect → Float
  | .minX, r => r.minX
  | .maxX, r => r.maxX
  | .minY, r => r.minY
  | .maxY, r => r.maxY

/-- Ordered along a side; children level on it keep their order. -/
def sortBySide (side : Side) (children : List (BoxNode α)) : List (BoxNode α) :=
  children.mergeSort fun a b => !(side.of b.box < side.of a.box)

/-- The cuts that leave enough children in both parts. -/
def cuts (children : List (BoxNode α)) : List Nat :=
  (List.range (children.length - leastFill)).drop leastFill

def perimeterSum (children : List (BoxNode α)) : Float :=
  Binary64.sum ((cuts children).map fun k =>
    (union (children.take k)).perimeter + (union (children.drop k)).perimeter)

def cutOverlap (children : List (BoxNode α)) (k : Nat) : Float :=
  (((union (children.take k)).intersection? (union (children.drop k))).map Rect.area).getD 0.0

/-- The orders along all four sides, each sorted from the one before. -/
def orders (children : List (BoxNode α)) : List Side → List (Side × List (BoxNode α))
  | [] => []
  | side :: rest => (side, sortBySide side children) :: orders (sortBySide side children) rest

/-- The side whose order has the least sum of perimeters, or the first side if no sum is a finite number. -/
def bestSide (ordered : List (Side × List (BoxNode α))) : Side :=
  ((firstLeast? (fun o => perimeterSum o.2) ordered).map (·.1)).getD .minX

/-- The children in the order that is cut: sorted along the best side from the last order measured. -/
def cutOrder (children : List (BoxNode α)) : List (BoxNode α) :=
  let ordered := orders children Side.all
  sortBySide (bestSide ordered) ((ordered.getLast?.map (·.2)).getD children)

def bestCut (children : List (BoxNode α)) : Nat :=
  (firstLeast? (cutOverlap children) (cuts children)).getD leastFill

/-- The part that stays and the part for a new sibling. -/
def split (children : List (BoxNode α)) : List (BoxNode α) × List (BoxNode α) :=
  let order := cutOrder children
  order.splitAt (bestCut order)

end TrackLayout.BoxNode
