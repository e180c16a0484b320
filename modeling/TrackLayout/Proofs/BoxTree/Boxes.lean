import TrackLayout.Proofs.BoxTree.Shape

/-!
# What the shape of a box tree depends on

Children are chosen, ordered and cut by their boxes alone. Whatever stands
for the same things under the same boxes goes the same way: the children
themselves, the places where they are stored, or the children with other
items below them.
-/
set_option autoImplicit false

namespace TrackLayout

variable {ι α β : Type}

theorem firstLeast?_map (cost : α → Float) (f : ι → α) (xs : List ι) :
    firstLeast? cost (xs.map f) = (firstLeast? (fun x => cost (f x)) xs).map f := by
  unfold firstLeast?
  rw [List.foldl_map]
  let carry : Option ι × Float → Option α × Float := fun s => (s.1.map f, s.2)
  change (xs.foldl _ (carry (none, Binary64.infinity))).1 = (carry _).1
  congr 1
  apply List.foldl_hom carry
  rintro ⟨best, least⟩ x
  simp only [carry]
  split <;> rfl

namespace BoxNode

variable {f : ι → BoxNode α} {g : ι → BoxNode β} (h : ∀ x, (f x).box = (g x).box)

include h

theorem union_congr (xs : List ι) : union (xs.map f) = union (xs.map g) := by
  cases xs with
  | nil => rfl
  | cons x rest => simp only [List.map_cons, union, List.foldl_map, h]

theorem bestChild_congr (box : Rect) (xs : List ι) : bestChild box (xs.map f) = bestChild box (xs.map g) := by
  unfold bestChild affinity
  simp only [List.zipIdx_map, firstLeast?_map, Prod.map_fst, h, Option.map_map, Function.comp_def, Prod.map_snd]

/-! ## Orders and cuts -/

theorem exists_sortBySide (side : Side) (xs : List ι) : ∃ ys : List ι, ys.Perm xs ∧
    sortBySide side (xs.map f) = ys.map f ∧ sortBySide side (xs.map g) = ys.map g := by
  refine ⟨xs.mergeSort fun x y => !(side.of (f y).box < side.of (f x).box), List.mergeSort_perm _ _, ?_, ?_⟩
  · exact (List.map_mergeSort fun x _ y _ => by rfl).symm
  · exact (List.map_mergeSort fun x _ y _ => by rw [h, h]).symm

theorem perimeterSum_congr (xs : List ι) : perimeterSum (xs.map f) = perimeterSum (xs.map g) := by
  simp only [perimeterSum, cuts, List.length_map, ← List.map_take, ← List.map_drop, union_congr h]

theorem cutOverlap_congr (xs : List ι) : cutOverlap (xs.map f) = cutOverlap (xs.map g) := by
  funext k
  simp only [cutOverlap, ← List.map_take, ← List.map_drop, union_congr h]

theorem bestCut_congr (xs : List ι) : bestCut (xs.map f) = bestCut (xs.map g) := by
  simp only [bestCut, cuts, List.length_map, cutOverlap_congr h]

theorem exists_orders (sides : List Side) (xs : List ι) : ∃ os : List (Side × List ι),
    (∀ o ∈ os, o.2.Perm xs) ∧ orders (xs.map f) sides = os.map (fun o => (o.1, o.2.map f)) ∧
      orders (xs.map g) sides = os.map (fun o => (o.1, o.2.map g)) := by
  induction sides generalizing xs with
  | nil => exact ⟨[], by simp, rfl, rfl⟩
  | cons side rest ih =>
    obtain ⟨ys, hPerm, hf, hg⟩ := exists_sortBySide h side xs
    obtain ⟨os, hOrders, hRestF, hRestG⟩ := ih ys
    refine ⟨(side, ys) :: os, ?_, ?_, ?_⟩
    · exact List.forall_mem_cons.mpr ⟨hPerm, fun o ho => (hOrders o ho).trans hPerm⟩
    · rw [orders, hf, hRestF, List.map_cons]
    · rw [orders, hg, hRestG, List.map_cons]

theorem bestSide_congr (os : List (Side × List ι)) : bestSide (os.map fun o => (o.1, o.2.map f)) =
    bestSide (os.map fun o => (o.1, o.2.map g)) := by
  simp only [bestSide, firstLeast?_map, perimeterSum_congr h, Option.map_map, Function.comp_def]

theorem exists_cutOrder (xs : List ι) : ∃ ys : List ι, ys.Perm xs ∧
    cutOrder (xs.map f) = ys.map f ∧ cutOrder (xs.map g) = ys.map g := by
  obtain ⟨os, hOrders, hf, hg⟩ := exists_orders h Side.all xs
  -- the order that is sorted once more
  have hLast : ∃ last : List ι, last.Perm xs ∧
      ((os.map fun o => (o.1, o.2.map f)).getLast?.map (·.2)).getD (xs.map f) = last.map f ∧
      ((os.map fun o => (o.1, o.2.map g)).getLast?.map (·.2)).getD (xs.map g) = last.map g := by
    rw [List.getLast?_map, List.getLast?_map]
    cases hOs : os.getLast? with
    | none => exact ⟨xs, .refl xs, rfl, rfl⟩
    | some o => exact ⟨o.2, hOrders o (List.mem_of_getLast? hOs), rfl, rfl⟩
  obtain ⟨last, hPerm, hLastF, hLastG⟩ := hLast
  obtain ⟨ys, hSorted, hSortF, hSortG⟩ :=
    exists_sortBySide h (bestSide (os.map fun o => (o.1, o.2.map f))) last
  refine ⟨ys, hSorted.trans hPerm, ?_, ?_⟩
  · rw [cutOrder, hf, hLastF, hSortF]
  · rw [cutOrder, hg, hLastG, ← bestSide_congr h, hSortG]

/-- Two views of the same things are split alike. -/
theorem exists_split (xs : List ι) : ∃ stay moved : List ι, (stay ++ moved).Perm xs ∧
    split (xs.map f) = (stay.map f, moved.map f) ∧ split (xs.map g) = (stay.map g, moved.map g) := by
  obtain ⟨ys, hPerm, hf, hg⟩ := exists_cutOrder h xs
  refine ⟨ys.take (bestCut (ys.map f)), ys.drop (bestCut (ys.map f)), ?_, ?_, ?_⟩
  · rwa [List.take_append_drop]
  · simp only [split, hf, List.splitAt_eq, List.map_take, List.map_drop]
  · simp only [split, hg, List.splitAt_eq, List.map_take, List.map_drop, bestCut_congr h]

omit h

/-! ## Other items -/

mutual

/-- The same boxes over other items. -/
def map (f : α → β) : BoxNode α → BoxNode β
  | .leaf box item => .leaf box (f item)
  | .branch box children => .branch box (mapAll f children)

def mapAll (f : α → β) : List (BoxNode α) → List (BoxNode β)
  | [] => []
  | c :: rest => c.map f :: mapAll f rest

end

theorem mapAll_eq (f : α → β) (children : List (BoxNode α)) : mapAll f children = children.map (map f) := by
  induction children with
  | nil => rfl
  | cons c rest ih => rw [mapAll, ih, List.map_cons]

@[simp]
theorem box_map (f : α → β) (n : BoxNode α) : (n.map f).box = n.box := by
  cases n <;> rfl

theorem depth_map (f : α → β) : ∀ n : BoxNode α, (n.map f).depth = n.depth
  | .leaf .. => rfl
  | .branch _ [] => rfl
  | .branch _ (c :: _) => by rw [map, mapAll, depth, depth, depth_map f c]

mutual

theorem query_map (f : α → β) (r : Rect) : ∀ n : BoxNode α, (n.map f).query r = (n.query r).map f
  | .leaf .. => by
    rw [map, query, query]
    split <;> rfl
  | .branch _ children => by
    rw [map, query, query]
    split
    · exact queryAll_map f r children
    · rfl

theorem queryAll_map (f : α → β) (r : Rect) : ∀ children : List (BoxNode α),
    queryAll r (mapAll f children) = (queryAll r children).map f
  | [] => rfl
  | c :: rest => by rw [mapAll, queryAll, queryAll, query_map, queryAll_map, List.map_append]

end

theorem map_ofChildren (f : α → β) (children : List (BoxNode α)) :
    (ofChildren children).map f = ofChildren (children.map (map f)) := by
  have hUnion := union_congr (f := id) (g := map f) (fun n => (box_map f n).symm) children
  rw [List.map_id] at hUnion
  rw [ofChildren, map, mapAll_eq, hUnion, ofChildren]

theorem rebuild_map (f : α → β) (children : List (BoxNode α)) (sibling : Option (BoxNode α)) :
    rebuild (children.map (map f)) (sibling.map (map f)) =
      ((rebuild children sibling).1.map f, (rebuild children sibling).2.map (map f)) := by
  have hAll : children.map (map f) ++ (sibling.map (map f)).toList =
      (children ++ sibling.toList).map (map f) := by
    cases sibling <;> simp
  simp only [rebuild, hAll, List.length_map]
  split
  · obtain ⟨stay, moved, -, hSplit, hMapped⟩ :=
      exists_split (f := id) (g := map f) (fun n => (box_map f n).symm) (children ++ sibling.toList)
    rw [List.map_id, List.map_id, List.map_id] at hSplit
    rw [hSplit, hMapped]
    simp only [map_ofChildren, Option.map_some]
  · simp only [map_ofChildren, Option.map_none]

theorem Filled.insert_map {least level : Nat} {n : BoxNode α} (h : Filled least level n) (hLeast : 0 < least)
    (box : Rect) (item : α) (f : α → β) : (n.map f).insert box (f item) =
      ((n.insert box item).1.map f, (n.insert box item).2.map (map f)) := by
  induction h with
  | leaf => rfl
  | @branch least level own children floor ceiling below ih =>
    obtain ⟨before, c, behind, rfl, hBest⟩ :=
      exists_bestChild box (List.ne_nil_of_length_pos (by omega) : children ≠ [])
    have hCongr := bestChild_congr (f := id) (g := map f) (fun n => (box_map f n).symm) box (before ++ c :: behind)
    rw [List.map_id, hBest, List.map_append, List.map_cons, ← List.length_map (map f)] at hCongr
    rw [insert_branch hBest, ← rebuild_map, map, mapAll_eq, List.map_append, List.map_cons,
      insert_branch hCongr.symm, ih c (by simp) (by decide)]
    simp only [List.map_append, List.map_cons]

end BoxNode

namespace BoxTree

/-- Where an item goes depends on its box alone. -/
theorem root_ofEntries_map (f : α → β) (entries : List (Rect × α)) :
    (ofEntries (entries.map fun e => (e.1, f e.2))).root = (ofEntries entries).root.map (BoxNode.map f) := by
  induction entries using List.reverseRecOn with
  | nil => rfl
  | append_singleton entries e ih =>
    rw [List.map_append, List.map_singleton, ofEntries_concat, ofEntries_concat]
    have hFilled := filled_ofEntries entries
    simp only [insert, ih]
    cases hRoot : (ofEntries entries).root with
    | none => rfl
    | some n =>
      obtain ⟨level, hn⟩ := hFilled n hRoot
      simp only [Option.map_some, hn.insert_map (by decide)]
      cases n.insert e.1 e.2 with
      | mk root sibling =>
        cases sibling with
        | none => rfl
        | some s => simp only [Option.map_some, BoxNode.map_ofChildren, List.map_cons, List.map_nil]

end BoxTree

end TrackLayout
