import TrackLayout.Proofs.Network.Cliques
import TrackLayout.Proofs.Network.Closure
import TrackLayout.Proofs.Network.Splits

/-!
# Pooled rules

With pooled rules a node is also rated by the rules of the nodes it is linked
to. Only one step of links is taken for that. It leads to every node of the
group all the same, and to none twice, since links form cliques: so linked
nodes are rated alike. Links to nodes that are gone lead to no rules.
-/
set_option autoImplicit false

namespace TrackLayout.Network

variable {net : Network} {s : SolverSettings} {x y n m : NodeId} {j : Junction}

/-! ## What rates a node -/

/-- The rules a node carries, less its links. -/
def ownRules (net : Network) (n : NodeId) : List Rule := ((net.node? n).map fun j => j.unlinked.rules).getD []

/-- The rules that rate a node, less the links among them. -/
def ratedBy (s : SolverSettings) (net : Network) (n : NodeId) : List Rule :=
  (net.rulesRating s n).filter (!·.isLink)

/-- The nodes that can be reached from a node over links, as far as they are present. -/
def linkGroup (net : Network) (n : NodeId) : List NodeId :=
  (net.linkClosure n).filter fun m => (net.node? m).isSome

theorem ownRules_of_absent (h : net.node? n = none) : net.ownRules n = [] := by
  rw [ownRules, h]
  rfl

/-- Nodes that are gone carry no rules. -/
theorem flatMap_ownRules_present (net : Network) (ns : List NodeId) :
    (ns.filter fun m => (net.node? m).isSome).flatMap net.ownRules = ns.flatMap net.ownRules := by
  induction ns with
  | nil => rfl
  | cons m rest ih =>
    cases hm : net.node? m with
    | none => rw [List.filter_cons_of_neg (by rw [hm]; exact Bool.false_ne_true), List.flatMap_cons,
        ownRules_of_absent hm, List.nil_append, ih]
    | some j => rw [List.filter_cons_of_pos (by rw [hm]; rfl), List.flatMap_cons, List.flatMap_cons, ih]

theorem ratedBy_pooled (hPool : s.poolLinkedRules = true) (hn : net.node? n = some j) :
    net.ratedBy s n = (n :: j.linked).flatMap net.ownRules := by
  have hOwn (m : NodeId) : (((net.node? m).map (·.rules)).getD []).filter (!·.isLink) = net.ownRules m := by
    rw [ownRules]
    cases net.node? m <;> rfl
  have hSelf : j.rules.filter (!·.isLink) = net.ownRules n := by
    rw [ownRules, hn]
    rfl
  rw [ratedBy, rulesRating, hn]
  dsimp only
  rw [if_pos hPool, List.filter_append, List.filter_flatMap, hSelf, List.flatMap_cons]
  simp only [hOwn]

/-! ## Groups -/

theorem nodup_linkGroup (net : Network) (n : NodeId) : (net.linkGroup n).Nodup :=
  (frontier_linkClosure net n).nodup.filter _

namespace Cliques

variable (h : net.Cliques)
include h

theorem mem_linkGroup (hn : (net.node? n).isSome = true) : m ∈ net.linkGroup n ↔ net.Near n m := by
  rw [linkGroup, List.mem_filter]
  constructor
  · rintro ⟨hMem, hm⟩
    exact (h.mem_linkClosure hm).mp hMem
  · intro hNear
    have hm : (net.node? m).isSome = true := by
      rcases hNear with rfl | hJoined
      · exact hn
      · exact hJoined.2
    exact ⟨(h.mem_linkClosure hm).mpr hNear, hm⟩

theorem near_of_near (hJoined : net.Joined x y) (hNear : net.Near y m) : net.Near x m := by
  rcases hNear with rfl | hNext
  · exact .inr hJoined
  · exact h.near_of_joined (.inr hJoined) hNext

/-- One step of links leads to the whole group. -/
theorem linked_perm_linkGroup (hn : net.node? n = some j) :
    ((n :: j.linked).filter fun m => (net.node? m).isSome).Perm (net.linkGroup n) := by
  have hPresent : (net.node? n).isSome = true := Option.isSome_of_eq_some hn
  have hLinks : net.linksOf n = j.linked := linksOf_of_node? hn
  have hNodup : ((n :: j.linked).filter fun m => (net.node? m).isSome).Nodup := by
    rw [List.filter_cons, if_pos hPresent]
    refine List.nodup_cons.mpr ⟨?_, ?_⟩
    · intro hSelf
      rw [← hLinks] at hSelf
      exact h.irrefl ⟨(List.mem_filter.mp hSelf).1, hPresent⟩
    · rw [← hLinks]
      exact (h.nodup n).filter _
  refine (List.perm_ext_iff_of_nodup hNodup (nodup_linkGroup net n)).mpr fun m => ?_
  rw [h.mem_linkGroup hPresent, List.mem_filter, List.mem_cons, ← hLinks, Near, Joined]
  constructor
  · rintro ⟨rfl | hLink, hm⟩
    · exact .inl rfl
    · exact .inr ⟨hLink, hm⟩
  · rintro (rfl | ⟨hLink, hm⟩)
    · exact ⟨.inl rfl, hPresent⟩
    · exact ⟨.inr hLink, hm⟩

theorem ratedBy_perm (hPool : s.poolLinkedRules = true) (hn : (net.node? n).isSome = true) :
    (net.ratedBy s n).Perm ((net.linkGroup n).flatMap net.ownRules) := by
  obtain ⟨j, hj⟩ := present_iff.mp hn
  rw [ratedBy_pooled hPool hj, ← flatMap_ownRules_present]
  exact (h.linked_perm_linkGroup hj).flatMap_right net.ownRules

theorem linkGroup_perm (hJoined : net.Joined x y) : (net.linkGroup x).Perm (net.linkGroup y) := by
  refine (List.perm_ext_iff_of_nodup (nodup_linkGroup net x) (nodup_linkGroup net y)).mpr fun m => ?_
  rw [h.mem_linkGroup hJoined.present, h.mem_linkGroup hJoined.2]
  constructor
  · exact h.near_of_near (h.symm hJoined)
  · exact h.near_of_near hJoined

end Cliques

/-- Two nodes are rated by the same rules: those of the nodes of one group, which both belong to. -/
structure PooledAlike (s : SolverSettings) (net : Network) (x y : NodeId) : Prop where
  perm : (net.ratedBy s x).Perm (net.ratedBy s y)
  group : (net.linkGroup x).Perm (net.linkGroup y)
  mem_group : ∀ m, m ∈ net.linkGroup x ↔ m = x ∨ net.Joined x m
  /-- No node of the group counts twice. -/
  nodup : (net.linkGroup x).Nodup
  counted : (net.ratedBy s x).Perm ((net.linkGroup x).flatMap net.ownRules)

/-- Along a lawful run linked nodes are rated alike if rules are pooled. -/
theorem pooledAlike_run {ops : List Operation} (hLawful : empty.Lawful ops) (hPool : s.poolLinkedRules = true)
    (hJoined : (run ops).Joined x y) : (run ops).PooledAlike s x y := by
  have hCliques : (run ops).Cliques := cliques_empty.foldl_after empty_wellFormed hLawful
  have hx := hCliques.ratedBy_perm hPool hJoined.present
  have hy := hCliques.ratedBy_perm hPool hJoined.2
  have hGroup := hCliques.linkGroup_perm hJoined
  refine ⟨?_, hGroup, fun m => hCliques.mem_linkGroup hJoined.present, nodup_linkGroup _ x, hx⟩
  exact hx.trans ((hGroup.flatMap_right _).trans hy.symm)

/-- A bend that a cleanup splits. A third node at the same place is linked and then pruned, so both halves
of the bend link to a node that is gone. Only the new half carries a rule. -/
def landing : List Operation :=
  bend ++ [.cleanup, .addNode { point := ⟨0.0, 0.0⟩ }, .link ⟨0⟩ ⟨4⟩, .cleanup,
    .addRule ⟨3⟩ (.fixedHeight 2.0 1.0 1.0)]

theorem pooledAlike_landing : empty.Lawful landing ∧ (run landing).Joined ⟨0⟩ ⟨3⟩ ∧
    (run landing).linksOf ⟨0⟩ = [⟨3⟩, ⟨4⟩] ∧ (run landing).node? ⟨4⟩ = none ∧
    (run landing).PooledAlike { poolLinkedRules := true } ⟨0⟩ ⟨3⟩ ∧
    (run landing).ratedBy { poolLinkedRules := true } ⟨0⟩ = [.fixedHeight 2.0 1.0 1.0] := by
  have hLawful : empty.Lawful landing := by
    refine ⟨trivial, trivial, trivial, trivial, trivial, trivial, trivial, ⟨?_, ?_⟩, trivial, rfl, trivial⟩ <;>
      decide +kernel
  have hJoined : (run landing).Joined ⟨0⟩ ⟨3⟩ := by
    constructor <;> decide +kernel
  refine ⟨hLawful, hJoined, ?_, ?_, pooledAlike_run hLawful rfl hJoined, ?_⟩ <;> decide +kernel

end TrackLayout.Network
