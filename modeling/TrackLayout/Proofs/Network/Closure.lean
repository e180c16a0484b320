import Mathlib.Logic.Relation
import TrackLayout.Proofs.Network.Links

/-!
# What links lead to

The list of nodes grows while it is gone through. It comes to its end whatever
the links are: they may lead one way only, in circles, to the node itself or
to nodes that are gone. Then it holds every node that can be reached, once.
-/
set_option autoImplicit false

namespace TrackLayout.Network

variable {net : Network} {found all : List NodeId} {id n m : NodeId} {place : Nat}

/-- A present node carries a link to a node, which need not be present. -/
def LinksTo (net : Network) (n m : NodeId) : Prop := ∃ j, net.node? n = some j ∧ .linkedTo m ∈ j.rules

theorem mem_linksOf_iff : m ∈ net.linksOf n ↔ net.LinksTo n m := by
  rw [mem_linksOf, LinksTo]
  refine exists_congr fun j => and_congr_right fun _ => ?_
  rw [Junction.linked, List.mem_filterMap]
  constructor
  · rintro ⟨r, hr, hTarget⟩
    cases r <;> cases hTarget
    exact hr
  · intro h
    exact ⟨_, h, rfl⟩

/-- What has been found when the list is gone through up to a place. -/
structure Frontier (net : Network) (id : NodeId) (found : List NodeId) (place : Nat) : Prop where
  first : found.head? = some id
  nodup : found.Nodup
  reachable : ∀ m ∈ found, Relation.ReflTransGen net.LinksTo id m
  closed : ∀ n ∈ found.take place, net.linksOf n ⊆ found

namespace Frontier

theorem start (net : Network) (id : NodeId) : net.Frontier id [id] 0 where
  first := rfl
  nodup := List.nodup_singleton id
  reachable m hm := by
    rw [List.mem_singleton.mp hm]
  closed n hn := by
    rw [List.take_zero] at hn
    cases hn

theorem visited (h : net.Frontier id found place) (hNext : found[place]? = some n) :
    net.Frontier id (appendNew found (net.linksOf n)) (place + 1) where
  first := by
    obtain ⟨more, hMore⟩ := prefix_appendNew found (net.linksOf n)
    rw [← hMore, List.head?_append, h.first, Option.some_or]
  nodup := nodup_appendNew h.nodup
  reachable m hm := by
    rcases mem_appendNew.mp hm with hOld | hNew
    · exact h.reachable m hOld
    · exact (h.reachable n (List.mem_of_getElem? hNext)).tail (mem_linksOf_iff.mp hNew)
  closed k hk := by
    obtain ⟨hLess, rfl⟩ := List.getElem?_eq_some_iff.mp hNext
    obtain ⟨more, hMore⟩ := prefix_appendNew found (net.linksOf found[place])
    rw [← hMore, List.take_append_of_le_length hLess, List.take_succ_eq_append_getElem hLess, List.mem_append,
      List.mem_singleton] at hk
    intro m hm
    rcases hk with hOld | rfl
    · exact mem_appendNew.mpr (.inl (h.closed k hOld hm))
    · exact mem_appendNew.mpr (.inr hm)

theorem finds (h : net.Frontier id found place) (hFinds : net.Finds found place all) :
    net.Frontier id all all.length := by
  induction hFinds with
  | finished hEnd =>
    have hLength := List.getElem?_eq_none_iff.mp hEnd
    refine { h with closed := fun n hn => h.closed n ?_ }
    rw [List.take_length] at hn
    rwa [List.take_of_length_le hLength]
  | visited hNext _ ih => exact ih (h.visited hNext)

/-- A list that is gone through to its end is closed under links. -/
theorem mem_of_reachable (h : net.Frontier id all all.length) (hReach : Relation.ReflTransGen net.LinksTo id m) :
    m ∈ all := by
  have hClosed (n : NodeId) (hn : n ∈ all) : net.linksOf n ⊆ all := h.closed n (by rwa [List.take_length])
  induction hReach with
  | refl => exact List.mem_of_head? h.first
  | tail _ hLink ih => exact hClosed _ ih (mem_linksOf_iff.mpr hLink)

end Frontier

theorem frontier_linkClosure (net : Network) (id : NodeId) :
    net.Frontier id (net.linkClosure id) (net.linkClosure id).length :=
  (Frontier.start net id).finds (finds_linkClosure net id)

/-- Whatever the links are and whether or not the node is present, going through the list of nodes found comes to
an end, and the list then is the node itself and, once each, all that can be reached from it over links. -/
theorem linkClosure_reachable (net : Network) (id : NodeId) :
    (∀ all, net.Finds [id] 0 all ↔ all = net.linkClosure id) ∧
    (net.linkClosure id).head? = some id ∧ (net.linkClosure id).Nodup ∧
    ∀ m, m ∈ net.linkClosure id ↔ Relation.ReflTransGen net.LinksTo id m := by
  have hFrontier := frontier_linkClosure net id
  refine ⟨fun all => ?_, hFrontier.first, hFrontier.nodup, fun m => ?_⟩
  · constructor
    · intro hFinds
      exact hFinds.unique (finds_linkClosure net id)
    · rintro rfl
      exact finds_linkClosure net id
  · exact ⟨hFrontier.reachable m, hFrontier.mem_of_reachable⟩

end TrackLayout.Network
