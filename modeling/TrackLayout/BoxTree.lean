import TrackLayout.BoxTree.Split

/-!
# Box trees

A dynamic index of items by their boxes. An item is inserted below the child
whose box grows least for its size; a branch that overflows is split, and a
new root is put above a root that was split. Items are never removed.
-/
set_option autoImplicit false

namespace TrackLayout

namespace BoxNode

variable {α : Type}

/-- How much of the union with the new box a child covers already. -/
def affinity (box : Rect) (child : BoxNode α) : Float :=
  let joint := (child.box.union box).area
  if 0.0 < joint then child.box.area / joint else 1.0

/-- Position of the first child with the greatest affinity. -/
def bestChild (box : Rect) (children : List (BoxNode α)) : Nat :=
  ((firstLeast? (fun c => -(affinity box c.1)) children.zipIdx).map (·.2)).getD 0

/-- A branch of the children and a sibling that one of them handed up, split if that is one too many. -/
def rebuild (children : List (BoxNode α)) (sibling : Option (BoxNode α)) :
    BoxNode α × Option (BoxNode α) :=
  let children := children ++ sibling.toList
  if capacity < children.length then
    let (stay, moved) := split children
    (ofChildren stay, some (ofChildren moved))
  else (ofChildren children, none)

mutual

/-- The node with the item below it, and a new sibling if the node took nothing or had to split. -/
def insert (box : Rect) (item : α) : BoxNode α → BoxNode α × Option (BoxNode α)
  | .leaf b i => (.leaf b i, some (.leaf box item))
  | .branch _ children =>
    let (children, sibling) := insertAt box item (bestChild box children) children
    rebuild children sibling

/-- Inserts below the child at a position. -/
def insertAt (box : Rect) (item : α) (position : Nat) :
    List (BoxNode α) → List (BoxNode α) × Option (BoxNode α)
  | [] => ([], none)
  | c :: rest =>
    match position with
    | 0 =>
      let (c, sibling) := c.insert box item
      (c :: rest, sibling)
    | position + 1 =>
      let (rest, sibling) := insertAt box item position rest
      (c :: rest, sibling)

end

end BoxNode

structure BoxTree (α : Type) where
  root : Option (BoxNode α) := none
  /-- All items, in the order in which they were inserted. -/
  items : Array α := #[]

namespace BoxTree

variable {α : Type}

def empty : BoxTree α := {}

def size (t : BoxTree α) : Nat := t.items.size

def isEmpty (t : BoxTree α) : Bool := t.items.isEmpty

def bounds? (t : BoxTree α) : Option Rect := t.root.map BoxNode.box

def depth (t : BoxTree α) : Nat := (t.root.map BoxNode.depth).getD 0

def insert (t : BoxTree α) (box : Rect) (item : α) : BoxTree α where
  items := t.items.push item
  root :=
    match t.root with
    | none => some (.leaf box item)
    | some root =>
      match root.insert box item with
      | (root, none) => some root
      | (root, some sibling) => some (.ofChildren [sibling, root])

/-- The items whose boxes meet the rectangle. -/
def query (t : BoxTree α) (r : Rect) : List α := (t.root.map (BoxNode.query r)).getD []

end BoxTree

end TrackLayout
