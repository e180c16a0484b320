import TrackLayout.Network.Links
import TrackLayout.Proofs.Table

/-!
# Views of networks

Most operations leave most of a network alone. What an operation leaves alone
is said by a view that does not show what it changes: `bare` shows neither
rules nor elevations nor what connections are made of, `unlinked` shows all but
the links between nodes, and `loose` shows a connection without its nodes. An
operation respects a view if the network it leaves looks the same.
-/
set_option autoImplicit false

namespace TrackLayout

/-- Steps that do not show do not show together either. -/
theorem foldl_view {β γ ι : Type} (view : β → γ) {step : β → ι → β}
    (h : ∀ b x, view (step b x) = view b) (b : β) (xs : List ι) : view (xs.foldl step b) = view b := by
  induction xs generalizing b with
  | nil => rfl
  | cons x rest ih => rw [List.foldl_cons, ih, h]

/-- A junction without its elevation and its rules. -/
def Junction.bare (j : Junction) : Junction := { j with position := { point := j.point }, rules := [] }

/-- A connection without what it is made of. -/
def Connection.bare (c : Connection) : Connection :=
  { c with trackType := default, heightType := default, straight := false, plane := none }

theorem Junction.bare_eq_iff {i j : Junction} : i.bare = j.bare ↔
    i.id = j.id ∧ i.point = j.point ∧ i.tracks = j.tracks ∧ i.sides = j.sides := by
  simp [bare, point]

theorem Connection.bare_eq_iff {c d : Connection} : c.bare = d.bare ↔
    c.id = d.id ∧ c.start = d.start ∧ c.stop = d.stop ∧ c.startPoint = d.startPoint ∧
      c.stopPoint = d.stopPoint ∧ c.bounds = d.bounds := by
  simp [bare]

/-- A connection without the nodes at its ends. Its points stay. -/
def Connection.loose (c : Connection) : Connection := { c with start := default, stop := default }

theorem Connection.loose_eq_iff {c d : Connection} : c.loose = d.loose ↔
    c.id = d.id ∧ c.startPoint = d.startPoint ∧ c.stopPoint = d.stopPoint ∧ c.bounds = d.bounds ∧
      c.trackType = d.trackType ∧ c.heightType = d.heightType ∧ c.straight = d.straight ∧ c.plane = d.plane := by
  simp [loose]

def HeightRule.isLink {α : Type} (rule : HeightRule α) : Bool := rule.linked?.isSome

/-- A junction without its links. -/
def Junction.unlinked (j : Junction) : Junction := { j with rules := j.rules.filter (!·.isLink) }

namespace Network

def bare (net : Network) : Network :=
  ⟨net.nodes.map Junction.bare, net.connections.map Connection.bare, net.index⟩

def unlinked (net : Network) : Network := { net with nodes := net.nodes.map Junction.unlinked }

/-! ## Looking up in a view -/

section Bare

variable {net other : Network}

theorem node?_of_bare (h : net.bare = other.bare) (n : NodeId) :
    (net.node? n).map Junction.bare = (other.node? n).map Junction.bare :=
  Table.get?_of_map_eq (congrArg Network.nodes h) n

theorem connection?_of_bare (h : net.bare = other.bare) (id : ConnectionId) :
    (net.connection? id).map Connection.bare = (other.connection? id).map Connection.bare :=
  Table.get?_of_map_eq (congrArg Network.connections h) id

/-- Anything that `bare` keeps of a connection is the same. -/
theorem connection?_congr_of_bare {β : Type} (h : net.bare = other.bare) (f : Connection → β)
    (hf : ∀ c, f c.bare = f c) (id : ConnectionId) :
    (net.connection? id).map f = (other.connection? id).map f := by
  have hBare := congrArg (Option.map f) (connection?_of_bare h id)
  rw [Option.map_map, Option.map_map] at hBare
  have hComp : f ∘ Connection.bare = f := funext hf
  rwa [hComp] at hBare

theorem node?_congr_of_bare {β : Type} (h : net.bare = other.bare) (f : Junction → β)
    (hf : ∀ j, f j.bare = f j) (n : NodeId) : (net.node? n).map f = (other.node? n).map f := by
  have hBare := congrArg (Option.map f) (node?_of_bare h n)
  rw [Option.map_map, Option.map_map] at hBare
  have hComp : f ∘ Junction.bare = f := funext hf
  rwa [hComp] at hBare

end Bare

section Unlinked

variable {net other : Network}

theorem node?_of_unlinked (h : net.unlinked = other.unlinked) (n : NodeId) :
    (net.node? n).map Junction.unlinked = (other.node? n).map Junction.unlinked :=
  Table.get?_of_map_eq (congrArg Network.nodes h) n

theorem connections_of_unlinked (h : net.unlinked = other.unlinked) :
    net.connections = other.connections := congrArg (fun net => net.connections) h

/-- Links do not show on bare networks. -/
theorem bare_of_unlinked (h : net.unlinked = other.unlinked) : net.bare = other.bare := by
  have hBare : ∀ net : Network, net.unlinked.bare = net.bare := fun net => by
    simp only [bare, unlinked, Table.map_map (f := Junction.unlinked) (g := Junction.bare) (fun _ => rfl)]
  rw [← hBare, h, hBare]

end Unlinked

/-! ## Steps that do not show -/

theorem bare_modifyNode {f : Junction → Junction} (hf : ∀ j, (f j).bare = j.bare) (net : Network)
    (n : NodeId) : (net.modifyNode n f).bare = net.bare := by
  simp only [bare, modifyNode, Table.map_modify hf]

/-- After a change of one node, a node is that node as changed or as it was before. -/
theorem node_of_modifyNode {net : Network} {f : Junction → Junction} {n m : NodeId} {i : Junction}
    (hi : (net.modifyNode n f).node? m = some i) :
    (m = n ∧ ∃ j, net.node? n = some j ∧ i = f j) ∨ m ≠ n ∧ net.node? m = some i := by
  rw [node?, modifyNode, Table.get?_modify] at hi
  split at hi
  · next hSame =>
    subst hSame
    obtain ⟨j, hj, rfl⟩ := Option.map_eq_some_iff.mp hi
    exact .inl ⟨rfl, j, hj, rfl⟩
  · next hOther => exact .inr ⟨hOther, hi⟩

theorem bare_modifyConnection {f : Connection → Connection} (hf : ∀ c, (f c).bare = c.bare)
    (net : Network) (id : ConnectionId) : (net.modifyConnection id f).bare = net.bare := by
  simp only [bare, modifyConnection, Table.map_modify hf]

theorem unlinked_linkTo (net : Network) (source target : NodeId) :
    (net.linkTo source target).unlinked = net.unlinked := by
  rw [linkTo, modifyNode, unlinked, Table.map_modify, unlinked]
  intro j
  split
  · rfl
  · simp [Junction.unlinked, Junction.addRule, HeightRule.isLink, HeightRule.linked?]

theorem unlinked_link (net : Network) (a b : NodeId) : (net.link a b).unlinked = net.unlinked := by
  rw [link]
  refine foldl_view unlinked (fun net x => foldl_view unlinked (fun net y => ?_) net _) net _
  rw [linkPair]
  split
  · rfl
  · rw [unlinked_linkTo, unlinked_linkTo]

end Network

end TrackLayout
