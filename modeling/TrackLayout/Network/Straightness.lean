import TrackLayout.Network

/-!
# Straight connections

A connection is drawn straight where nothing suggests a curve: at an end that
does not continue into exactly one other connection, or if it is much longer
than both of its continuations.
-/
set_option autoImplicit false

namespace TrackLayout.Network

/-- How many times longer than its continuations a straight connection is. -/
def longFactor : Float := 2.5

/-- Length of the only connection that continues another one at a node. -/
def continuation? (net : Network) (node : NodeId) (c : ConnectionId) : Option Float := do
  let j ← net.node? node
  match ← j.continuations? c with
  | [single] => return (← net.connection? single).length
  | _ => none

def isStraight (net : Network) (c : Connection) : Bool :=
  match net.continuation? c.start c.id, net.continuation? c.stop c.id with
  | some before, some behind =>
    let scaled := c.length / longFactor
    before < scaled && behind < scaled
  | _, _ => true

/-- Flags every connection anew. -/
def markStraight (net : Network) : Network :=
  { net with connections := net.connections.map fun c => { c with straight := net.isStraight c } }

def straightCount (net : Network) : Nat := net.connections.values.countP (·.straight)

/-- A network in which connections are being flagged. -/
structure Flagging where
  network : Network
  /-- How many connections were found straight so far. -/
  straight : Nat := 0

/-- Writes the flag of one connection, if it is there, and counts it if it is set. -/
def Flagging.write (f : Flagging) (decision : ConnectionId × Bool) : Flagging :=
  if f.network.connections.contains decision.1 then
    { network := f.network.modifyConnection decision.1 fun c => { c with straight := decision.2 }
      straight := f.straight + decision.2.toNat }
  else f

/-- Decides about every connection first, and then flags one after the other. -/
def markByEdits (net : Network) : Flagging :=
  (net.connections.values.map fun c => (c.id, net.isStraight c)).foldl Flagging.write { network := net }

end TrackLayout.Network
