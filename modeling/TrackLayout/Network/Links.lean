import TrackLayout.Network

/-!
# Links between nodes at one place

Nodes that were split off from each other stay linked by rules that name the
other node. Linking two nodes links everything that hangs on either to
everything that hangs on the other. A link may name a node that is gone.
-/
set_option autoImplicit false

namespace TrackLayout.Network

/-- The nodes a node links to directly; none if it is not present. -/
def linksOf (net : Network) (id : NodeId) : List NodeId := ((net.node? id).map Junction.linked).getD []

/-- Appends what is not there yet. -/
def appendNew (found : List NodeId) (more : List NodeId) : List NodeId :=
  more.foldl (fun found id => if found.contains id then found else found ++ [id]) found

/-- Goes through the list of nodes found so far, from a place on, while it grows. -/
def followLinks (net : Network) (found : List NodeId) : Nat → Nat → List NodeId
  | 0, _ => found
  | fuel + 1, place =>
    match found[place]? with
    | none => found
    | some id => net.followLinks (appendNew found (net.linksOf id)) fuel (place + 1)

/-- How many links there are; only one node more than that can be found. -/
def linkCount (net : Network) : Nat := (net.nodes.values.flatMap (·.linked)).length

/-- A node and every node that can be reached from it over links, in the order in which they are found. -/
def linkClosure (net : Network) (id : NodeId) : List NodeId := net.followLinks [id] (net.linkCount + 1) 0

/-- One link, unless it is there already. -/
def linkTo (net : Network) (source target : NodeId) : Network :=
  net.modifyNode source fun j =>
    if j.linked.contains target then j else j.addRule (.linkedTo target)

/-- Links in both directions between different nodes. -/
def linkPair (net : Network) (x y : NodeId) : Network :=
  if x = y then net else (net.linkTo x y).linkTo y x

/-- Links two nodes and everything linked to either. -/
def link (net : Network) (a b : NodeId) : Network :=
  let nearA := net.linkClosure a
  let nearB := net.linkClosure b
  nearA.foldl (fun net x => nearB.foldl (fun net y => net.linkPair x y) net) net

end TrackLayout.Network
