import Mathlib.Data.Option.Basic
import TrackLayout.BoxTree.Arena
import TrackLayout.Proofs.BoxTree.Boxes

/-!
# Trees that are stored in one array

A plot is a tree together with the places that its nodes take in the array. An
insertion below a plot writes to places of that plot and to new ones at the end,
so the plots beside it stay as they are. It comes to the same trees as the
insertion into the tree itself, and none of its checks fails.
-/
set_option autoImplicit false

namespace TrackLayout.BoxArena

open BoxNode (capacity leastFill Filled)

/-- A tree with the place of its top and the places of all its nodes. -/
structure Plot where
  place : Nat
  node : BoxNode Nat
  places : List Nat

namespace Plot

/-- The plot of a new branch over given ones. -/
def above (place : Nat) (plots : List Plot) : Plot :=
  ⟨place, .ofChildren (plots.map (·.node)), place :: plots.flatMap (·.places)⟩

/-- The entry of a branch over given plots. -/
def entry (plots : List Plot) : BoxEntry :=
  .branch (BoxNode.union (plots.map (·.node))) (plots.map (·.place))

end Plot

/-- The array holds every node of a plot at its place, each branch under the union of its children's boxes. -/
inductive Stored (nodes : Array BoxEntry) : Plot → Prop
  | leaf {place item : Nat} {box : Rect} (entry : nodes[place]? = some (.leaf box item)) :
      Stored nodes ⟨place, .leaf box item, [place]⟩
  | branch {place : Nat} {plots : List Plot} (entry : nodes[place]? = some (Plot.entry plots))
      (below : ∀ p ∈ plots, Stored nodes p) : Stored nodes (.above place plots)

variable {nodes after : Array BoxEntry} {p : Plot} {plots : List Plot}

theorem lt_size_of_entry {place : Nat} {e : BoxEntry} (h : nodes[place]? = some e) : place < nodes.size :=
  (Array.getElem?_eq_some_iff.mp h).1

theorem Stored.entry (h : Stored nodes p) : ∃ e, nodes[p.place]? = some e ∧ e.box = p.node.box := by
  cases h with
  | leaf entry => exact ⟨_, entry, rfl⟩
  | branch entry below => exact ⟨_, entry, rfl⟩

theorem Stored.lt_size (h : Stored nodes p) : ∀ i ∈ p.places, i < nodes.size := by
  induction h with
  | leaf entry =>
    intro i hi
    rw [List.mem_singleton.mp hi]
    exact lt_size_of_entry entry
  | branch entry below ih =>
    intro i hi
    obtain rfl | hBelow := List.mem_cons.mp hi
    · exact lt_size_of_entry entry
    · obtain ⟨q, hq, hiq⟩ := List.mem_flatMap.mp hBelow
      exact ih q hq i hiq

/-- Levels that are enough for a branch, by the places under it, leave enough for each child. -/
theorem exists_levels {place levels : Nat} (h : (Plot.above place plots).places.length ≤ levels) :
    ∃ below, levels = below + 1 ∧ ∀ q ∈ plots, q.places.length ≤ below := by
  have hTotal : (plots.flatMap (·.places)).length + 1 ≤ levels := h
  obtain ⟨below, rfl⟩ := Nat.exists_eq_add_of_le' (Nat.le_of_add_left_le hTotal)
  refine ⟨below, rfl, fun q hq => ?_⟩
  calc q.places.length
    _ ≤ (plots.flatMap (·.places)).length :=
      (List.sublist_flatten_of_mem (List.mem_map_of_mem hq)).length_le
    _ ≤ below := Nat.le_of_succ_le_succ hTotal

/-- A plot stays where it is as long as nothing is written to its own places. -/
theorem Stored.frame (h : Stored nodes p) (hSame : ∀ i ∈ p.places, after[i]? = nodes[i]?) : Stored after p := by
  induction h with
  | @leaf place _ _ entry =>
    apply Stored.leaf
    rw [hSame place List.mem_cons_self, entry]
  | @branch place plots entry below ih =>
    apply Stored.branch
    · rw [hSame place List.mem_cons_self, entry]
    · intro q hq
      apply ih q hq
      intro i hi
      exact hSame i (List.mem_cons_of_mem _ (List.mem_flatMap.mpr ⟨q, hq, hi⟩))

theorem Stored.push (h : Stored nodes p) (e : BoxEntry) : Stored (nodes.push e) p := by
  apply h.frame
  intro i hi
  rw [Array.getElem?_push, if_neg (h.lt_size i hi).ne]

/-! ## Reading children -/

section Children

variable (hStored : ∀ p ∈ plots, Stored nodes p)

include hStored

theorem marked?_eq : marked? nodes (plots.map (·.place)) =
    some (plots.map fun p => .leaf p.node.box p.place) := by
  induction plots with
  | nil => rfl
  | cons p rest ih =>
    obtain ⟨hp, hRest⟩ := List.forall_mem_cons.mp hStored
    obtain ⟨e, hEntry, hBox⟩ := hp.entry
    have hMarked := ih hRest
    unfold marked? at hMarked ⊢
    rw [List.map_cons, List.mapM_cons, hMarked, hEntry]
    simp [hBox]

theorem union?_eq (hNe : plots ≠ []) :
    union? nodes (plots.map (·.place)) = some (BoxNode.union (plots.map (·.node))) := by
  have hUnion := BoxNode.union_congr (f := fun p : Plot => .leaf p.node.box p.place) (g := (·.node))
    (fun _ => rfl) plots
  rw [union?, marked?_eq hStored]
  simp [hNe, hUnion]

theorem bestChild?_eq (box : Rect) : bestChild? nodes box (plots.map (·.place)) =
    (plots.map (·.place))[BoxNode.bestChild box (plots.map (·.node))]? := by
  have hBest := BoxNode.bestChild_congr (f := fun p : Plot => .leaf p.node.box p.place) (g := (·.node))
    (fun _ => rfl) box plots
  rw [bestChild?, marked?_eq hStored]
  simp [hBest]

theorem exists_split? (hLength : plots.length = capacity + 1) : ∃ stay moved : List Plot,
    (stay ++ moved).Perm plots ∧
      split? nodes (plots.map (·.place)) = some (stay.map (·.place), moved.map (·.place)) ∧
      BoxNode.split (plots.map (·.node)) = (stay.map (·.node), moved.map (·.node)) := by
  obtain ⟨stay, moved, hPerm, hMarks, hNodes⟩ :=
    BoxNode.exists_split (f := fun p : Plot => .leaf p.node.box p.place) (g := (·.node)) (fun _ => rfl) plots
  have hUnmarked : ∀ part : List Plot,
      unmarked (part.map fun p => .leaf p.node.box p.place) = part.map (·.place) := by
    intro part
    simp [unmarked, List.filterMap_map]
  refine ⟨stay, moved, hPerm, ?_, hNodes⟩
  rw [split?, marked?_eq hStored]
  have hCuts := @BoxNode.parts_ne_nil _ (plots.map fun p => (.leaf p.node.box p.place : BoxNode Nat))
  simp only [List.length_map, hLength, Option.pure_def, Option.bind_eq_bind, Option.bind_some,
    guard, if_pos fun k hk => hCuts hk, hMarks, hUnmarked]
  rfl

end Children

/-! ## Writing -/

/-- What an operation at a plot comes to: the tree that `out` says, at the place of the plot and at new
places, perhaps with a new sibling, and no other change. -/
structure Grown (nodes after : Array BoxEntry) (place : Nat) (places : List Nat)
    (out : BoxNode Nat × Option (BoxNode Nat)) (q : Plot) (sibling : Option Plot) : Prop where
  stays : q.place = place
  tree : (q.node, sibling.map (·.node)) = out
  stored : ∀ r ∈ q :: sibling.toList, Stored after r
  taken : ((q :: sibling.toList).flatMap (·.places)).Perm
    (places ++ List.range' nodes.size (after.size - nodes.size))
  size_le : nodes.size ≤ after.size
  frame : ∀ i < nodes.size, i ∉ places → after[i]? = nodes[i]?

theorem Stored.write (h : Stored nodes p) {place : Nat} (hPlace : place ∉ p.places) (e : BoxEntry) :
    Stored (nodes.setIfInBounds place e) p := by
  apply h.frame
  intro i hi
  rw [Array.getElem?_setIfInBounds, if_neg]
  exact fun hEq => hPlace (hEq ▸ hi)

theorem addBranch?_eq (hStored : ∀ p ∈ plots, Stored nodes p) (hNe : plots ≠ []) :
    addBranch? nodes (plots.map (·.place)) = some (nodes.push (Plot.entry plots), nodes.size) := by
  rw [addBranch?, union?_eq hStored hNe]
  rfl

theorem stored_push (hStored : ∀ p ∈ plots, Stored nodes p) :
    Stored (nodes.push (Plot.entry plots)) (.above nodes.size plots) := by
  apply Stored.branch
  · rw [Array.getElem?_push, if_pos rfl]
  · exact fun p hp => (hStored p hp).push _

section Writing

variable {place : Nat} (hPlace : place < nodes.size)

include hPlace

theorem setChildren?_eq (hStored : ∀ p ∈ plots, Stored nodes p) (hNe : plots ≠ []) :
    setChildren? nodes place (plots.map (·.place)) = some (nodes.setIfInBounds place (Plot.entry plots)) := by
  rw [setChildren?, union?_eq hStored hNe]
  simp [hPlace, guard, Plot.entry]

/-- A branch is stored once its children are and its own entry is written. -/
theorem stored_write (hStored : ∀ p ∈ plots, Stored nodes p) (hApart : place ∉ plots.flatMap (·.places)) :
    Stored (nodes.setIfInBounds place (Plot.entry plots)) (.above place plots) := by
  apply Stored.branch
  · rw [Array.getElem?_setIfInBounds, if_pos rfl, if_pos hPlace]
  · intro p hp
    exact (hStored p hp).write (fun hMem => hApart (List.mem_flatMap.mpr ⟨p, hp, hMem⟩)) _

theorem grown_write (hStored : ∀ p ∈ plots, Stored nodes p) (hApart : place ∉ plots.flatMap (·.places)) :
    Grown nodes (nodes.setIfInBounds place (Plot.entry plots)) place (place :: plots.flatMap (·.places))
      (.ofChildren (plots.map (·.node)), none) (.above place plots) none where
  stays := rfl
  tree := rfl
  stored := by simpa using stored_write hPlace hStored hApart
  taken := by simp [Plot.above]
  size_le := by simp
  frame := by
    intro i _ hi
    rw [Array.getElem?_setIfInBounds, if_neg]
    exact fun hEq => hi (hEq ▸ List.mem_cons_self)

theorem grown_split {stay moved : List Plot} (hPerm : (stay ++ moved).Perm plots)
    (hStored : ∀ p ∈ plots, Stored nodes p) (hNe : stay ≠ []) (hMoved : moved ≠ [])
    (hApart : place ∉ plots.flatMap (·.places)) : ∃ after,
      (do
        let nodes ← setChildren? nodes place (stay.map (·.place))
        addBranch? nodes (moved.map (·.place))) = some (after, nodes.size) ∧
      Grown nodes after place (place :: plots.flatMap (·.places))
        (.ofChildren (stay.map (·.node)), some (.ofChildren (moved.map (·.node))))
        (.above place stay) (some (.above nodes.size moved)) := by
  have hPlaces := hPerm.flatMap_right (·.places)
  rw [List.flatMap_append] at hPlaces
  have hStoredStay : ∀ p ∈ stay, Stored nodes p :=
    fun p hp => hStored p (hPerm.subset (List.mem_append_left _ hp))
  -- the children that move are read when the branch has been written
  have hStoredMoved : ∀ p ∈ moved, Stored (nodes.setIfInBounds place (Plot.entry stay)) p := by
    intro p hp
    apply (hStored p (hPerm.subset (List.mem_append_right _ hp))).write
    exact fun hMem => hApart (hPlaces.subset
      (List.mem_append_right _ (List.mem_flatMap.mpr ⟨p, hp, hMem⟩)))
  have hSize : (nodes.setIfInBounds place (Plot.entry stay)).size = nodes.size := Array.size_setIfInBounds
  refine ⟨(nodes.setIfInBounds place (Plot.entry stay)).push (Plot.entry moved), ?_, ?_⟩
  · rw [setChildren?_eq hPlace hStoredStay hNe, Option.bind_eq_bind, Option.bind_some,
      addBranch?_eq hStoredMoved hMoved, hSize]
  · have hWritten := stored_write hPlace hStoredStay
      fun hMem => hApart (hPlaces.subset (List.mem_append_left _ hMem))
    have hPushed := stored_push hStoredMoved
    rw [hSize] at hPushed
    constructor
    · rfl
    · rfl
    · simpa using ⟨hWritten.push _, hPushed⟩
    · simp only [Plot.above, Option.toList_some, List.flatMap_cons, List.flatMap_nil, List.append_nil,
        Array.size_push, hSize, Nat.add_sub_cancel_left, List.range'_one, List.cons_append]
      apply List.Perm.cons
      exact List.perm_middle.trans ((hPlaces.cons _).trans (List.perm_append_singleton _ _).symm)
    · rw [Array.size_push, hSize]
      exact Nat.le_succ _
    · intro i hi hOther
      rw [Array.getElem?_push, hSize, if_neg hi.ne, Array.getElem?_setIfInBounds, if_neg]
      exact fun hEq => hOther (hEq ▸ List.mem_cons_self)

theorem exists_rebuild? {children : List (BoxNode Nat)} {sibling : Option (BoxNode Nat)}
    (hTrees : children ++ sibling.toList = plots.map (·.node)) (hStored : ∀ p ∈ plots, Stored nodes p)
    (hNe : plots ≠ []) (hLength : plots.length ≤ capacity + 1)
    (hApart : place ∉ plots.flatMap (·.places)) : ∃ after q s,
      rebuild? nodes place (plots.map (·.place)) = some (after, s.map Plot.place) ∧
        Grown nodes after place (place :: plots.flatMap (·.places)) (BoxNode.rebuild children sibling) q s := by
  simp only [BoxNode.rebuild, hTrees, rebuild?, List.length_map]
  split
  · next hFull =>
    obtain ⟨stay, moved, hPerm, hSplit, hNodes⟩ := exists_split? hStored (le_antisymm hLength hFull)
    obtain ⟨hStay, hMoved⟩ : stay ≠ [] ∧ moved ≠ [] := by
      have hParts := @BoxNode.split_ne_nil _ (plots.map (·.node)) (by rwa [List.length_map])
      rw [hNodes] at hParts
      simpa using hParts
    obtain ⟨after, hWrite, hGrown⟩ := grown_split hPlace hPerm hStored hStay hMoved hApart
    rw [hNodes]
    refine ⟨after, _, _, ?_, hGrown⟩
    rw [hSplit]
    simp only [Option.bind_eq_bind, Option.bind_some] at hWrite ⊢
    rw [← Option.bind_assoc, hWrite]
    rfl
  · refine ⟨_, _, none, ?_, grown_write hPlace hStored hApart⟩
    rw [setChildren?_eq hPlace hStored hNe]
    rfl

end Writing

/-! ## Inserting -/

variable {q : Plot} {sibling : Option Plot} {out : BoxNode Nat × Option (BoxNode Nat)}

/-- What grew at one of several plots has left the others alone. -/
theorem Grown.among {before behind : List Plot} (h : Grown nodes after p.place p.places out q sibling)
    (hStored : ∀ r ∈ before ++ p :: behind, Stored nodes r)
    (hNodup : ((before ++ p :: behind).flatMap (·.places)).Nodup) :
    (∀ r ∈ (before ++ q :: behind) ++ sibling.toList, Stored after r) ∧
      (((before ++ q :: behind) ++ sibling.toList).flatMap (·.places)).Perm
        ((before ++ p :: behind).flatMap (·.places) ++ List.range' nodes.size (after.size - nodes.size)) := by
  constructor
  · have hOther : ∀ r ∈ before ++ behind, Stored after r := by
      intro r hr
      have hOld : r ∈ before ++ p :: behind := by
        simp only [List.mem_append, List.mem_cons] at hr ⊢
        tauto
      refine (hStored r hOld).frame fun i hi => h.frame i ((hStored r hOld).lt_size i hi) fun hMem => ?_
      -- a place of one plot is not one of another
      simp only [List.flatMap_append, List.flatMap_cons, List.nodup_append, List.mem_append] at hNodup hr
      obtain ⟨-, ⟨-, -, hBehind⟩, hBefore⟩ := hNodup
      obtain hr | hr := hr
      · exact hBefore i (List.mem_flatMap.mpr ⟨r, hr, hi⟩) i (.inl hMem) rfl
      · exact hBehind i hMem i (List.mem_flatMap.mpr ⟨r, hr, hi⟩) rfl
    have hNew := h.stored
    simp only [List.forall_mem_append, List.forall_mem_cons] at hOther hNew ⊢
    exact ⟨⟨hOther.1, hNew.1, hOther.2⟩, hNew.2⟩
  · have hTaken := h.taken
    rw [List.perm_iff_count] at hTaken ⊢
    intro i
    have hCount := hTaken i
    simp only [List.flatMap_append, List.flatMap_cons, List.count_append] at hCount ⊢
    omega

/-- What grows at one place after something else grew at places of the same plot. -/
theorem Grown.after_within {mid : Array BoxEntry} {place : Nat} {inner outer grown : List Nat}
    (h : Grown mid after place grown out q sibling) (hSize : nodes.size ≤ mid.size)
    (hFrame : ∀ i < nodes.size, i ∉ inner → mid[i]? = nodes[i]?) (hWithin : inner ⊆ outer)
    (hGrown : grown.Perm (outer ++ List.range' nodes.size (mid.size - nodes.size))) :
    Grown nodes after place outer out q sibling where
  stays := h.stays
  tree := h.tree
  stored := h.stored
  taken := by
    have hLe := h.size_le
    refine h.taken.trans ((hGrown.append_right _).trans (.of_eq ?_))
    have hMid : mid.size = nodes.size + (mid.size - nodes.size) := by omega
    have hEnd : after.size - nodes.size = (mid.size - nodes.size) + (after.size - mid.size) := by omega
    rw [List.append_assoc, hEnd, ← List.range'_append_1, ← hMid]
  size_le := hSize.trans h.size_le
  frame := by
    intro i hi hOuter
    rw [h.frame i (by omega), hFrame i hi fun hInner => hOuter (hWithin hInner)]
    intro hMem
    obtain hOld | hNew := List.mem_append.mp (hGrown.subset hMem)
    · exact hOuter hOld
    · exact absurd (List.mem_range'_1.mp hNew).1 (Nat.not_le.mpr hi)

/-- An insertion below a stored plot comes to what the tree itself comes to. -/
theorem Stored.exists_insertBelow? {least level : Nat} (h : Stored nodes p) (hFilled : Filled least level p.node)
    (hLeast : 0 < least) (hNodup : p.places.Nodup) {levels : Nat} (hLevels : p.places.length ≤ levels)
    (box : Rect) (item : Nat) : ∃ after q sibling,
      insertBelow? box item levels nodes p.place = some (after, sibling.map Plot.place) ∧
        Grown nodes after p.place p.places (p.node.insert box item) q sibling := by
  induction h generalizing least level levels with
  | @leaf place own b entry =>
    have hPushed : Stored (nodes.push (.leaf box item)) ⟨nodes.size, .leaf box item, [nodes.size]⟩ :=
      .leaf (by rw [Array.getElem?_push, if_pos rfl])
    refine ⟨nodes.push (.leaf box item), ⟨place, .leaf b own, [place]⟩,
      some ⟨nodes.size, .leaf box item, [nodes.size]⟩, ?_, ?_⟩
    · obtain ⟨levels, rfl⟩ := Nat.exists_eq_add_of_le' hLevels
      rw [List.length_singleton, insertBelow?, entry]
      rfl
    · constructor
      · rfl
      · rfl
      · simpa using ⟨(Stored.leaf entry).push _, hPushed⟩
      · simp
      · simp
      · intro i hi _
        rw [Array.getElem?_push, if_neg hi.ne]
  | @branch place plots entry below ih =>
    cases hFilled with
    | @branch _ level _ _ floor ceiling hBelow =>
    have hNe : plots.map (·.node) ≠ [] := List.ne_nil_of_length_pos (by omega)
    obtain ⟨first, c, rest, hSplit, hBest⟩ := BoxNode.exists_bestChild box hNe
    obtain ⟨before, tail, rfl, rfl, hTail⟩ := List.map_eq_append_iff.mp hSplit
    obtain ⟨p, behind, rfl, rfl, rfl⟩ := List.map_eq_cons_iff.mp hTail
    obtain ⟨hPlace, hNodup⟩ := List.nodup_cons.mp hNodup
    obtain ⟨levels, rfl, hFewer⟩ := exists_levels hLevels
    have hNodupBelow : p.places.Nodup := by
      rw [List.flatMap_append, List.flatMap_cons] at hNodup
      exact (List.nodup_append.mp (List.nodup_append.mp hNodup).2.1).1
    obtain ⟨mid, q, sibling, hInsert, hGrown⟩ :=
      ih p (by simp) (hBelow p.node (by simp)) (by decide) hNodupBelow (hFewer p (by simp))
    obtain ⟨hStored, hTaken⟩ := hGrown.among below hNodup
    have hSize := hGrown.size_le
    have hEntry := lt_size_of_entry entry
    have hApart : place ∉ ((before ++ q :: behind) ++ sibling.toList).flatMap (·.places) := by
      intro hMem
      obtain hOld | hNew := List.mem_append.mp (hTaken.subset hMem)
      · exact hPlace hOld
      · exact absurd (List.mem_range'_1.mp hNew).1 (Nat.not_le.mpr hEntry)
    have hLength : ((before ++ q :: behind) ++ sibling.toList).length ≤ capacity + 1 := by
      have hSibling : sibling.toList.length ≤ 1 := by cases sibling <;> simp
      simp only [List.length_append, List.length_cons, List.length_map] at ceiling ⊢
      omega
    have hTrees : (before ++ q :: behind).map (·.node) ++ (sibling.map (·.node)).toList =
        ((before ++ q :: behind) ++ sibling.toList).map (·.node) := by cases sibling <;> simp
    have hPlaces : (before ++ p :: behind).map (·.place) ++ (sibling.map (·.place)).toList =
        ((before ++ q :: behind) ++ sibling.toList).map (·.place) := by
      cases sibling <;> simp [hGrown.stays]
    obtain ⟨after, top, handed, hRebuild, hRebuilt⟩ :=
      exists_rebuild? (hEntry.trans_le hSize) hTrees hStored (by simp) hLength hApart
    refine ⟨after, top, handed, ?_, ?_⟩
    · have hChild : bestChild? nodes box ((before ++ p :: behind).map (·.place)) = some p.place := by
        rw [bestChild?_eq below, hBest]
        simp
      have hGuard : sibling.map Plot.place = none ∨ ((before ++ p :: behind).map (·.place)).length ≤ capacity := by
        rw [List.length_map] at ceiling ⊢
        exact .inr ceiling
      change insertBelow? box item (levels + 1) nodes place = _
      rw [insertBelow?, entry, Plot.entry]
      simp only [hChild, hInsert, Option.bind_eq_bind, Option.bind_some, guard, if_pos hGuard, hPlaces, hRebuild]
      rfl
    · have hInserted : (Plot.above place (before ++ p :: behind)).node.insert box item = BoxNode.rebuild
          ((before ++ q :: behind).map (·.node)) (sibling.map (·.node)) := by
        change (BoxNode.branch _ ((before ++ p :: behind).map (·.node))).insert box item = _
        rw [hSplit] at hBest ⊢
        rw [BoxNode.insert_branch hBest, ← hGrown.tree, List.map_append, List.map_cons]
      rw [hInserted]
      refine hRebuilt.after_within hSize hGrown.frame ?_ (hTaken.cons place)
      intro i hi
      exact List.mem_cons_of_mem _ (List.mem_flatMap.mpr ⟨p, by simp, hi⟩)

end TrackLayout.BoxArena
