/-!
# Ids

Junctions and connections are numbered in the order in which they are created,
from separate counters. A number is handed out once and never again. The last
32-bit number is never handed out.
-/
set_option autoImplicit false

namespace TrackLayout

inductive IdKind where
  | node
  | connection
  deriving DecidableEq

structure Id (kind : IdKind) where
  val : UInt32
  deriving DecidableEq, Inhabited

abbrev NodeId := Id .node

abbrev ConnectionId := Id .connection

/-- An id in a message: `n3` is a node and `c3` a connection. -/
def Id.name {kind : IdKind} (id : Id kind) : String :=
  (match kind with | .node => "n" | .connection => "c") ++ id.val.toNat.repr

/-- Hands out numbers in order. -/
structure IdCounter where
  /-- The number handed out next, which is also how many have been. -/
  next : UInt32 := 0
  deriving DecidableEq, Inhabited

namespace IdCounter

/-- The next number and the counter behind it; none when the numbers have run out. -/
def issue? (c : IdCounter) : Option (UInt32 × IdCounter) :=
  if c.next.toNat + 1 < UInt32.size then some (c.next, ⟨c.next + 1⟩) else none

end IdCounter

end TrackLayout
