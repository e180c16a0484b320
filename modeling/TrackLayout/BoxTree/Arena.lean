import TrackLayout.BoxTree

/-!
# Box trees in one array

All nodes of a tree stand in one array and name their children by their places
in it. A branch is rewritten where it stands; whatever is new, a leaf, a
sibling or a root, comes at the end. There is no result where a place is beyond
the array, a union is taken of no boxes, a branch holds more than it
may, or the children lead back to a node above them: then the way down has more
levels than there are nodes.
-/
set_option autoImplicit false

namespace TrackLayout

/-- A node that names its children, or its item, by their places. -/
inductive BoxEntry where
  | leaf (box : Rect) (item : Nat)
  | branch (box : Rect) (children : List Nat)
  deriving DecidableEq, Inhabited

namespace BoxEntry

def box : BoxEntry → Rect
  | .leaf b _ => b
  | .branch b _ => b

def leaf? : BoxEntry → Option (Rect × Nat)
  | .leaf b item => some (b, item)
  | .branch .. => none

end BoxEntry

structure BoxArena (α : Type) where
  nodes : Array BoxEntry := #[]
  /-- All items, in the order in which they were inserted. -/
  items : Array α := #[]
  root : Option Nat := none

namespace BoxArena

open BoxNode (capacity leastFill)

/-! ## Branches -/

section Branches

variable (nodes : Array BoxEntry)

/-- Places as leaves under the boxes that are stored there. -/
def marked? (places : List Nat) : Option (List (BoxNode Nat)) :=
  places.mapM fun i => nodes[i]?.map fun e => .leaf e.box i

/-- The places of leaves. -/
def unmarked (leaves : List (BoxNode Nat)) : List Nat :=
  leaves.filterMap fun
    | .leaf _ i => some i
    | .branch .. => none

def union? (children : List Nat) : Option Rect := do
  let leaves ← marked? nodes children
  guard (leaves ≠ [])
  some (BoxNode.union leaves)

def addBranch? (children : List Nat) : Option (Array BoxEntry × Nat) := do
  let box ← union? nodes children
  some (nodes.push (.branch box children), nodes.size)

def setChildren? (place : Nat) (children : List Nat) : Option (Array BoxEntry) := do
  let box ← union? nodes children
  guard (place < nodes.size)
  some (nodes.setIfInBounds place (.branch box children))

/-- The child with the greatest affinity to a box. -/
def bestChild? (box : Rect) (children : List Nat) : Option Nat := do
  let leaves ← marked? nodes children
  children[BoxNode.bestChild box leaves]?

/-- The part that stays and the part for a new sibling, provided that the branch holds one child too many
and that no cut leaves a part without children. -/
def split? (children : List Nat) : Option (List Nat × List Nat) := do
  guard (children.length = capacity + 1)
  let leaves ← marked? nodes children
  guard (∀ k ∈ BoxNode.cuts leaves, leaves.take k ≠ [] ∧ leaves.drop k ≠ [])
  let (stay, moved) := BoxNode.split leaves
  some (unmarked stay, unmarked moved)

/-- Gives a branch its new children, or those that stay, and returns the sibling with the others. -/
def rebuild? (place : Nat) (children : List Nat) : Option (Array BoxEntry × Option Nat) :=
  if capacity < children.length then do
    let (stay, moved) ← split? nodes children
    let nodes ← setChildren? nodes place stay
    let (nodes, sibling) ← addBranch? nodes moved
    some (nodes, some sibling)
  else do
    let nodes ← setChildren? nodes place children
    some (nodes, none)

end Branches

/-! ## Whole trees -/

/-- Inserts below a place, within some levels; returns a new sibling of the node there if it took nothing
or had to split. -/
def insertBelow? (box : Rect) (item : Nat) :
    Nat → Array BoxEntry → Nat → Option (Array BoxEntry × Option Nat)
  | 0, _, _ => none
  | levels + 1, nodes, place =>
    match nodes[place]? with
    | none => none
    | some (.leaf ..) => some (nodes.push (.leaf box item), some nodes.size)
    | some (.branch _ children) => do
      let best ← bestChild? nodes box children
      let (nodes, sibling) ← insertBelow? box item levels nodes best
      guard (sibling = none ∨ children.length ≤ capacity)
      rebuild? nodes place (children ++ sibling.toList)

/-- Levels from a place down to the leaves, along the first children. -/
def depthFrom? (nodes : Array BoxEntry) : Nat → Nat → Option Nat
  | 0, _ => none
  | levels + 1, place =>
    match nodes[place]? with
    | none => none
    | some (.branch _ (child :: _)) => do
      let depth ← depthFrom? nodes levels child
      some (depth + 1)
    | some _ => some 1

/-- The places that are reached from a place, each as often as it is reached. -/
def walkFrom? (nodes : Array BoxEntry) : Nat → Nat → Option (List Nat)
  | 0, _ => none
  | levels + 1, place =>
    match nodes[place]? with
    | none => none
    | some (.leaf ..) => some [place]
    | some (.branch _ children) => do
      let walks ← children.mapM (walkFrom? nodes levels)
      some (place :: walks.flatten)

/-- The places of the items whose boxes meet the rectangle, from the first child to the last. -/
def queryFrom? (nodes : Array BoxEntry) (r : Rect) : Nat → Nat → Option (List Nat)
  | 0, _ => none
  | levels + 1, place =>
    match nodes[place]? with
    | none => none
    | some (.leaf box item) => some (if box.intersects r then [item] else [])
    | some (.branch box children) =>
      if box.intersects r then do
        let found ← children.mapM (queryFrom? nodes r levels)
        some found.flatten
      else some []

variable {α : Type}

def insert? (a : BoxArena α) (box : Rect) (item : α) : Option (BoxArena α) :=
  match a.root with
  | none =>
    some ⟨a.nodes.push (.leaf box a.items.size), a.items.push item, some a.nodes.size⟩
  | some root => do
    match ← insertBelow? box a.items.size a.nodes.size a.nodes root with
    | (nodes, none) => some ⟨nodes, a.items.push item, some root⟩
    | (nodes, some sibling) =>
      let (nodes, top) ← addBranch? nodes [sibling, root]
      some ⟨nodes, a.items.push item, some top⟩

/-- The tree that grows from an empty one by inserting entries in turn. -/
def ofEntries? (entries : List (Rect × α)) : Option (BoxArena α) :=
  entries.foldlM (fun a e => a.insert? e.1 e.2) {}

def bounds? (a : BoxArena α) : Option Rect := do
  let root ← a.root
  let entry ← a.nodes[root]?
  some entry.box

def depth? (a : BoxArena α) : Option Nat := a.root.elim (some 0) (depthFrom? a.nodes a.nodes.size)

def walk? (a : BoxArena α) : Option (List Nat) := a.root.elim (some []) (walkFrom? a.nodes a.nodes.size)

def query? (a : BoxArena α) (r : Rect) : Option (List α) := do
  let found ← a.root.elim (some []) (queryFrom? a.nodes r a.nodes.size)
  found.mapM fun i => a.items[i]?

/-- How far below the root a place is reached. The root is on level 1. -/
inductive Level (a : BoxArena α) : Nat → Nat → Prop
  | root {place : Nat} (top : a.root = some place) : Level a 1 place
  | child {level place child : Nat} {box : Rect} {children : List Nat} (above : Level a level place)
      (entry : a.nodes[place]? = some (.branch box children)) (mem : child ∈ children) :
      Level a (level + 1) child

end BoxArena

end TrackLayout
