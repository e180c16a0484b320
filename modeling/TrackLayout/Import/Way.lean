import TrackLayout.Geometry.Point
import TrackLayout.Track

/-!
# Source ways

Polylines with tags, from which a network is imported. Points are known by
their keys: equal keys mean one node, whatever their positions say. Tags are
kept in the order of their keys, each key once.
-/
set_option autoImplicit false

namespace TrackLayout

structure WayNode where
  key : UInt64
  position : Point
  deriving DecidableEq, Inhabited

/-! ## Tags -/

/-- Puts a value under a key, in order; a value that was there is replaced. -/
def insertTag (key value : String) : List (String × String) → List (String × String)
  | [] => [(key, value)]
  | (k, v) :: rest =>
    if key < k then (key, value) :: (k, v) :: rest
    else if k < key then (k, v) :: insertTag key value rest
    else (key, value) :: rest

theorem mem_insertTag {key value : String} {entries : List (String × String)} {e : String × String}
    (h : e ∈ insertTag key value entries) : e = (key, value) ∨ e ∈ entries := by
  induction entries with
  | nil => simpa [insertTag] using h
  | cons head rest ih =>
    rw [insertTag] at h
    split at h
    · simpa using h
    · split at h
      · rcases List.mem_cons.mp h with rfl | h
        · exact .inr List.mem_cons_self
        · exact (ih h).imp id (List.mem_cons_of_mem _)
      · exact (List.mem_cons.mp h).imp id (List.mem_cons_of_mem _)

theorem insertTag_pairwise {key value : String} {entries : List (String × String)}
    (h : entries.Pairwise (·.1 < ·.1)) : (insertTag key value entries).Pairwise (·.1 < ·.1) := by
  induction entries with
  | nil => simp [insertTag]
  | cons head rest ih =>
    obtain ⟨below, ordered⟩ := List.pairwise_cons.mp h
    rw [insertTag]
    split
    · next less =>
      refine List.pairwise_cons.mpr ⟨fun e he => ?_, h⟩
      rcases List.mem_cons.mp he with rfl | he
      · exact less
      · exact String.lt_trans less (below e he)
    · split
      · next more =>
        refine List.pairwise_cons.mpr ⟨fun e he => ?_, ih ordered⟩
        rcases mem_insertTag he with rfl | he
        · exact more
        · exact below e he
      · next notLess notMore =>
        have same : key = head.1 :=
          String.le_antisymm (String.not_lt.mp notMore) (String.not_lt.mp notLess)
        exact List.pairwise_cons.mpr ⟨fun e he => same ▸ below e he, ordered⟩

structure Tags where
  entries : List (String × String) := []
  ordered : entries.Pairwise (·.1 < ·.1) := by exact .nil

namespace Tags

def empty : Tags := {}

instance : Inhabited Tags := ⟨empty⟩

def insert (t : Tags) (key value : String) : Tags :=
  ⟨insertTag key value t.entries, insertTag_pairwise t.ordered⟩

def get? (t : Tags) (key : String) : Option String := t.entries.lookup key

/-- The tags of a list of pairs; the last pair of a key counts. -/
def ofList (pairs : List (String × String)) : Tags := pairs.foldl (fun t p => t.insert p.1 p.2) empty

end Tags

structure Way where
  id : UInt64
  nodes : List WayNode
  plane : Option HeightPlane := none
  tags : Tags := .empty
  deriving Inhabited

/-- Consecutive pairs of nodes. -/
def Way.segments (w : Way) : List (WayNode × WayNode) := w.nodes.zip w.nodes.tail

/-- Decides which ways become track, and what kind of track. -/
structure WayClassifier where
  /-- None if the way is not handled. -/
  trackType? : Way → Option TrackType
  heightType : Way → HeightType

end TrackLayout
