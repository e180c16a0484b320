import TrackLayout.Geometry.Rect

/-!
# Nodes of a box tree

A leaf holds one item under its own box. A branch holds up to `capacity`
children and the union of their boxes. That children are filled evenly and
that boxes cover what is below them are properties of how trees are built,
not of the type.
-/
set_option autoImplicit false

namespace TrackLayout

inductive BoxNode (α : Type) where
  | leaf (box : Rect) (item : α)
  | branch (box : Rect) (children : List (BoxNode α))
  deriving Inhabited

namespace BoxNode

variable {α : Type}

/-- Most children of a branch. -/
def capacity : Nat := 20

/-- Fewest children on either side of a split. -/
def leastFill : Nat := capacity * 2 / 5

def box : BoxNode α → Rect
  | .leaf b _ => b
  | .branch b _ => b

/-- The rectangle that no box adds nothing to. -/
def emptyBox : Rect := ⟨Binary64.infinity, Binary64.infinity, -Binary64.infinity, -Binary64.infinity⟩

def union : List (BoxNode α) → Rect
  | [] => emptyBox
  | n :: rest => rest.foldl (fun r c => r.union c.box) n.box

def ofChildren (children : List (BoxNode α)) : BoxNode α := .branch (union children) children

/-- Levels from this node down to the leaves, along the first children. -/
def depth : BoxNode α → Nat
  | .leaf .. | .branch _ [] => 1
  | .branch _ (c :: _) => c.depth + 1

mutual

/-- The items whose boxes meet the rectangle, from the first child to the last. -/
def query (r : Rect) : BoxNode α → List α
  | .leaf b item => if b.intersects r then [item] else []
  | .branch b children => if b.intersects r then queryAll r children else []

def queryAll (r : Rect) : List (BoxNode α) → List α
  | [] => []
  | c :: rest => c.query r ++ queryAll r rest

end

end BoxNode

/-- The first element whose cost is least; none if no cost is below infinity. -/
def firstLeast? {ι : Type} (cost : ι → Float) (xs : List ι) : Option ι :=
  (xs.foldl (fun (best, least) x => let c := cost x; if c < least then (some x, c) else (best, least))
    (none, Binary64.infinity)).1

end TrackLayout
