import Mathlib.Data.List.Nodup
import Mathlib.Data.List.Perm.Subperm
import TrackLayout.Network.Links
import TrackLayout.Proofs.Table

/-!
# Following links

The nodes found over links are listed once each, and every one but the first
is the target of some link. So there are at most as many steps to take as links
and one, and fuel for so many is enough to go through the list to its end.
-/
set_option autoImplicit false

namespace TrackLayout.Network

variable {net : Network} {found more : List NodeId} {id m : NodeId}

theorem appendNew_cons (found more : List NodeId) (id : NodeId) :
    appendNew found (id :: more) = appendNew (if found.contains id then found else found ++ [id]) more := rfl

theorem mem_appendNew : m ∈ appendNew found more ↔ m ∈ found ∨ m ∈ more := by
  induction more generalizing found with
  | nil => simp [appendNew]
  | cons id rest ih =>
    rw [appendNew_cons, ih]
    split
    · next hOld =>
      have hMem : id ∈ found := by simpa using hOld
      constructor
      · rintro (h | h)
        · exact .inl h
        · exact .inr (List.mem_cons_of_mem _ h)
      · rintro (h | h)
        · exact .inl h
        · rcases List.mem_cons.mp h with rfl | h
          · exact .inl hMem
          · exact .inr h
    · simp [or_assoc]

theorem prefix_appendNew (found more : List NodeId) : found <+: appendNew found more := by
  induction more generalizing found with
  | nil => exact List.prefix_refl found
  | cons id rest ih =>
    rw [appendNew_cons]
    split
    · exact ih found
    · exact (List.prefix_append found [id]).trans (ih _)

theorem nodup_appendNew (h : found.Nodup) : (appendNew found more).Nodup := by
  induction more generalizing found with
  | nil => exact h
  | cons id rest ih =>
    rw [appendNew_cons]
    apply ih
    split
    · exact h
    · next hNew =>
      have hNotMem : id ∉ found := by simpa using hNew
      exact List.nodup_append.mpr ⟨h, List.nodup_singleton id, by simpa using fun _ h => ne_of_mem_of_not_mem h hNotMem⟩

/-- The targets of all links of a network. -/
def linkTargets (net : Network) : List NodeId := net.nodes.values.flatMap (·.linked)

theorem mem_linksOf : m ∈ net.linksOf id ↔ ∃ j, net.node? id = some j ∧ m ∈ j.linked := by
  rw [linksOf]
  cases net.node? id <;> simp

theorem linksOf_subset (id : NodeId) : net.linksOf id ⊆ net.linkTargets := by
  intro m hm
  obtain ⟨j, hj, hLinked⟩ := mem_linksOf.mp hm
  exact List.mem_flatMap.mpr ⟨j, Table.mem_values.mpr ⟨id, hj⟩, hLinked⟩

theorem length_le_of_targets (hNodup : found.Nodup) (hFound : found ⊆ id :: net.linkTargets) :
    found.length ≤ net.linkCount + 1 := by
  simpa [linkCount, linkTargets] using (List.subperm_of_subset hNodup hFound).length_le

/-! ## Going through the list -/

/-- Going through a list of nodes from a place on comes to an end, with all the nodes found by then. -/
inductive Finds (net : Network) : List NodeId → Nat → List NodeId → Prop
  | finished {found place} (h : found[place]? = none) : Finds net found place found
  | visited {found place n all} (h : found[place]? = some n)
      (rest : Finds net (appendNew found (net.linksOf n)) (place + 1) all) : Finds net found place all

theorem Finds.unique {all all' : List NodeId} {place : Nat} (h : net.Finds found place all)
    (h' : net.Finds found place all') : all = all' := by
  induction h with
  | finished hEnd =>
    cases h' with
    | finished => rfl
    | visited hNext => cases hEnd.symm.trans hNext
  | visited hNext _ ih =>
    cases h' with
    | finished hEnd => cases hEnd.symm.trans hNext
    | visited hNext' rest =>
      cases Option.some.inj (hNext.symm.trans hNext')
      exact ih rest

/-- Fuel for as many steps as there can be nodes to find lasts to the end. -/
theorem finds_followLinks {fuel place : Nat} (hNodup : found.Nodup) (hFound : found ⊆ id :: net.linkTargets)
    (hFuel : net.linkCount + 1 ≤ place + fuel) : net.Finds found place (net.followLinks found fuel place) := by
  -- what is found stays without repetition and among the targets, so its end is reached in time
  induction fuel generalizing found place with
  | zero =>
    have hLength := length_le_of_targets hNodup hFound
    exact .finished (List.getElem?_eq_none (by omega))
  | succ fuel ih =>
    rw [followLinks]
    cases hNext : found[place]? with
    | none => exact .finished hNext
    | some n =>
      refine .visited hNext (ih (nodup_appendNew hNodup) (fun m hm => ?_) (by omega))
      rcases mem_appendNew.mp hm with hOld | hNew
      · exact hFound hOld
      · exact List.mem_cons_of_mem id (linksOf_subset n hNew)

theorem finds_of_le_fuel (id : NodeId) {fuel : Nat} (hFuel : net.linkCount + 1 ≤ fuel) :
    net.Finds [id] 0 (net.followLinks [id] fuel 0) := by
  have hFirst : [id] ⊆ id :: net.linkTargets := by simp
  exact finds_followLinks (List.nodup_singleton id) hFirst (by omega)

theorem finds_linkClosure (net : Network) (id : NodeId) : net.Finds [id] 0 (net.linkClosure id) :=
  finds_of_le_fuel id (Nat.le_refl _)

theorem followLinks_eq_linkClosure (id : NodeId) {fuel : Nat} (hFuel : net.linkCount + 1 ≤ fuel) :
    net.followLinks [id] fuel 0 = net.linkClosure id :=
  (finds_of_le_fuel id hFuel).unique (finds_linkClosure net id)

/-- What is kept by links is kept by everything found over them. -/
theorem forall_mem_followLinks {p : NodeId → Prop} (hLinks : ∀ n, p n → ∀ m ∈ net.linksOf n, p m)
    (hFound : ∀ m ∈ found, p m) (fuel place : Nat) : ∀ m ∈ net.followLinks found fuel place, p m := by
  induction fuel generalizing found place with
  | zero => exact hFound
  | succ fuel ih =>
    rw [followLinks]
    cases hNext : found[place]? with
    | none => exact hFound
    | some n =>
      refine ih (fun m hm => ?_) (place + 1)
      rcases mem_appendNew.mp hm with hOld | hNew
      · exact hFound m hOld
      · exact hLinks n (hFound n (List.mem_of_getElem? hNext)) m hNew

theorem subset_followLinks (fuel place : Nat) : found ⊆ net.followLinks found fuel place := by
  induction fuel generalizing found place with
  | zero => exact List.Subset.refl _
  | succ fuel ih =>
    rw [followLinks]
    cases found[place]? with
    | none => exact List.Subset.refl _
    | some n => exact fun m hm => ih (place + 1) (mem_appendNew.mpr (.inl hm))

theorem mem_linkClosure_self (id : NodeId) : id ∈ net.linkClosure id :=
  subset_followLinks _ _ (List.mem_singleton_self id)

theorem linksOf_subset_linkClosure (id : NodeId) : net.linksOf id ⊆ net.linkClosure id := by
  intro m hm
  rw [linkClosure, followLinks]
  exact subset_followLinks _ _ (mem_appendNew.mpr (.inr hm))

end TrackLayout.Network
