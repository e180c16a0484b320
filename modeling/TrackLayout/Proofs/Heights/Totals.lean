import TrackLayout.Proofs.Heights.SelectedDerivation
import TrackLayout.Proofs.Network.Cliques

/-!
# Rules and elevations of a whole network

Imports add no rules and cleanups only links, so the rules that rate anything
are those that are derived from the network. The derivation counts every rule
that it appends, and leaves no node without an elevation. A relaxation keeps
both.
-/
set_option autoImplicit false

namespace TrackLayout.Network

variable {net next out : Network} {n m : NodeId} {j : Junction}

/-! ## Before the derivation -/

/-- All rules are links. -/
def Unrated (net : Network) : Prop := ∀ ⦃n j⦄, net.node? n = some j → j.unlinked.rules = []

theorem unrated_empty : empty.Unrated := by
  intro n j hj
  rw [node?_empty] at hj
  cases hj

theorem Added.unrated {position : Position} {id : NodeId} (hAdded : Added net position id next)
    (h : net.Unrated) : next.Unrated := by
  intro n j hj
  rw [hAdded.node?] at hj
  split at hj
  · rw [← Option.some.inj hj]
    rfl
  · exact h hj

theorem Connected.unrated {start stop : NodeId} {spec : TrackSpec} {p q : Point} {id : ConnectionId}
    (hConnected : Connected net start stop spec p q id next) (h : net.Unrated) : next.Unrated := by
  intro n j hj
  rw [hConnected.node?] at hj
  obtain ⟨i, hi, rfl⟩ := Option.map_eq_some_iff.mp hj
  have hRules := h hi
  exact hRules

theorem Split.unrated {ts : List Attachment} {sibling : NodeId} (hSplit : Split net n j ts sibling next)
    (h : net.Unrated) : next.Unrated := by
  intro m i hm
  have hDetach (b : Junction) (t : Attachment) : (b.detach t.connection).rules = b.rules := rfl
  have hNode := hSplit.node? m
  rw [hm, Option.map_some] at hNode
  split at hNode
  · exact congrArg Junction.rules (Option.some.inj hNode)
  · obtain ⟨b, hb, hSame⟩ := Option.map_eq_some_iff.mp hNode.symm
    rw [← hSame, Junction.unlinked]
    dsimp only
    split
    · rw [foldl_view Junction.rules hDetach]
      exact h hb
    · exact h hb

theorem Repairs.unrated {queue : List NodeId} {k : Nat} (hRepairs : Repairs net queue k out)
    (hNet : net.WellFormed) (h : net.Unrated) : out.Unrated :=
  hRepairs.invariant (fun _ hSplit => hSplit.unrated) hNet h

theorem Unrated.prune (h : net.Unrated) : net.prune.Unrated := fun _ _ hj => h (node?_of_prune hj).1

/-! ## Rules -/

/-- Rules of all nodes that are no links. -/
def ratingCount (net : Network) : Nat := (net.nodes.values.flatMap (·.rules)).countP (!·.isLink)

theorem Unrated.ratingCount (h : net.Unrated) : net.ratingCount = 0 := by
  rw [Network.ratingCount, List.countP_eq_zero]
  intro r hr
  obtain ⟨j, hj, hRule⟩ := List.mem_flatMap.mp hr
  obtain ⟨n, hn⟩ := Table.mem_values.mp hj
  exact List.filter_eq_nil_iff.mp (h hn) r hRule

theorem ratingCount_modifyNode (hj : net.node? n = some j) (f : Junction → Junction) :
    (net.modifyNode n f).ratingCount + j.rules.countP (!·.isLink) =
      net.ratingCount + (f j).rules.countP (!·.isLink) := by
  obtain ⟨before, behind, hOld, hNew⟩ := Table.exists_values_modify hj f
  rw [ratingCount, ratingCount, modifyNode, hOld, hNew]
  simp only [List.flatMap_append, List.flatMap_cons, List.countP_append]
  omega

theorem ratingCount_withElevation (net : Network) (n : NodeId) (z : Float) :
    (net.modifyNode n (·.withElevation z)).ratingCount = net.ratingCount := by
  cases hj : net.node? n with
  | none => rw [modifyNode, Table.modify_of_absent hj]
  | some j => exact Nat.add_right_cancel (ratingCount_modifyNode hj (·.withElevation z))

section Visits

variable {d : Derivation} (s : RuleSettings) (ground : Ground)

theorem ratingCount_visit (d : Derivation) (n : NodeId) :
    (d.visit s ground n).network.ratingCount + d.added =
      d.network.ratingCount + (d.visit s ground n).added := by
  cases hj : d.network.node? n with
  | none => rw [Derivation.visit, hj]
  | some j =>
    obtain ⟨height, -, hAdded, hVisit⟩ := visit_of_present s ground hj
    have hRating : (d.network.derive s j height).2.countP (!·.isLink) = (d.network.derive s j height).2.length := by
      rw [List.countP_eq_length]
      intro r hr
      rw [isLink_of_mem_derive hr]
      rfl
    have hCount := ratingCount_modifyNode hj
      (visited (d.network.derive s j height).1 (d.network.derive s j height).2)
    rw [visited, List.countP_append, hRating] at hCount
    rw [hVisit, hAdded]
    omega

/-- The derivation counts the rules that it appends. -/
theorem ratingCount_deriveHeights (net : Network) : (net.deriveHeights ground s).network.ratingCount =
    net.ratingCount + (net.deriveHeights ground s).added := by
  refine List.foldlRecOn (motive := fun d : Derivation => d.network.ratingCount = net.ratingCount + d.added)
    net.nodes.ids _ rfl ?_
  intro d hd n _
  have hVisit := ratingCount_visit s ground d n
  omega

/-! ## Elevations -/

/-- Every node has an elevation. -/
def Elevated (net : Network) : Prop := ∀ ⦃n j⦄, net.node? n = some j → j.elevation.isSome = true

theorem Elevated.withElevation (h : net.Elevated) (n : NodeId) (z : Float) :
    (net.modifyNode n (·.withElevation z)).Elevated := by
  intro m i hi
  obtain ⟨-, j, -, rfl⟩ | ⟨-, hOld⟩ := node_of_modifyNode hi
  · rfl
  · exact h hOld

/-- A visit gives its node an elevation and takes none away. -/
theorem isSome_elevation_visit {i : Junction} (hi : (d.visit s ground n).network.node? m = some i)
    (h : m = n ∨ ∀ j, d.network.node? m = some j → j.elevation.isSome = true) : i.elevation.isSome = true := by
  cases hn : d.network.node? n with
  | none =>
    rw [visit_of_absent s ground hn] at hi
    rcases h with rfl | hOld
    · rw [hn] at hi
      cases hi
    · exact hOld i hi
  | some j =>
    obtain ⟨height, -, -, hVisit⟩ := visit_of_present s ground hn
    rw [hVisit] at hi
    obtain ⟨-, j, -, rfl⟩ | ⟨hOther, hOld⟩ := node_of_modifyNode hi
    · rfl
    · exact h.resolve_left hOther i hOld

theorem isSome_elevation_foldl_visit {ids : List NodeId} {i : Junction}
    (hi : (ids.foldl (Derivation.visit s ground) d).network.node? m = some i)
    (h : m ∈ ids ∨ ∀ j, d.network.node? m = some j → j.elevation.isSome = true) : i.elevation.isSome = true := by
  induction ids generalizing d with
  | nil => exact h.resolve_left List.not_mem_nil i hi
  | cons n rest ih =>
    apply ih hi
    rw [List.mem_cons, or_comm (a := m = n), or_assoc] at h
    exact h.imp_right fun h j hj => isSome_elevation_visit s ground hj h

theorem elevated_deriveHeights (net : Network) : (net.deriveHeights ground s).network.Elevated := by
  intro n j hj
  obtain ⟨i, hi, -⟩ := exists_node_of_bare (bare_deriveHeights net ground s).symm hj
  exact isSome_elevation_foldl_visit s ground hj (.inl (Table.mem_ids.mpr ⟨i, hi⟩))

end Visits

/-! ## What stays -/

theorem connections_deriveHeights (net : Network) (ground : Ground) (s : RuleSettings) :
    (net.deriveHeights ground s).network.connections = net.connections := by
  refine foldl_view (fun d : Derivation => d.network.connections) (fun d n => ?_) { network := net } net.nodes.ids
  rw [Derivation.visit]
  split <;> rfl

end TrackLayout.Network
