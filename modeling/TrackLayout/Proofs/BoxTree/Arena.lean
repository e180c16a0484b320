import TrackLayout.Proofs.BoxTree.Storage

/-!
# Box trees that fill their array

Every insertion keeps one tree that takes all places of the array, each once.
So whatever follows the children ends and comes to what the tree itself
says, and what is known of trees that grew from an empty one is known of the
array: it is balanced, filled and tight.
-/
set_option autoImplicit false

namespace TrackLayout

open scoped List

variable {α : Type}

namespace BoxTree

/-- The entries with their positions for items. -/
def indexed (entries : List (Rect × α)) : List (Rect × Nat) := entries.zipIdx.map fun e => (e.1.1, e.2)

theorem indexed_concat (entries : List (Rect × α)) (box : Rect) (item : α) :
    indexed (entries ++ [(box, item)]) = indexed entries ++ [(box, entries.length)] := by
  simp [indexed, List.zipIdx_append]

theorem map_fst_indexed (entries : List (Rect × α)) : (indexed entries).map (·.1) = entries.map (·.1) := by
  rw [indexed, List.map_map]
  conv_rhs => rw [← List.zipIdx_map_fst 0 entries, List.map_map]
  rfl

theorem forall_mem_indexed {entries : List (Rect × α)} {p : Rect → Prop} :
    (∀ e ∈ indexed entries, p e.1) ↔ ∀ e ∈ entries, p e.1 := by
  rw [← List.forall_mem_map (f := fun e : Rect × Nat => e.1) (P := p), map_fst_indexed, List.forall_mem_map]

/-- Looking items up at their positions makes one tree of the other. -/
theorem root_indexed (entries : List (Rect × α)) :
    (ofEntries (indexed entries)).root.map (BoxNode.map fun i => entries[i]?.map (·.2)) =
      (ofEntries entries).root.map (BoxNode.map some) := by
  rw [← root_ofEntries_map, ← root_ofEntries_map]
  congr 2
  apply List.ext_getElem
  · simp [indexed]
  · intro i hi _
    have hi : i < entries.length := by simpa [indexed] using hi
    simp [indexed, hi]

theorem depth_indexed (entries : List (Rect × α)) :
    (ofEntries (indexed entries)).depth = (ofEntries entries).depth := by
  have hDepth := congrArg (fun root => (root.map BoxNode.depth).getD 0) (root_indexed entries)
  simp only [Option.map_map, Function.comp_def, BoxNode.depth_map] at hDepth
  exact hDepth

theorem bounds?_indexed (entries : List (Rect × α)) :
    (ofEntries (indexed entries)).bounds? = (ofEntries entries).bounds? := by
  have hBox := congrArg (fun root => root.map BoxNode.box) (root_indexed entries)
  simp only [Option.map_map, Function.comp_def, BoxNode.box_map] at hBox
  exact hBox

theorem query_indexed (entries : List (Rect × α)) (r : Rect) :
    ((ofEntries (indexed entries)).query r).map (fun i => entries[i]?.map (·.2)) =
      ((ofEntries entries).query r).map some := by
  have hQuery := congrArg (fun root => (root.map (BoxNode.query r)).getD []) (root_indexed entries)
  simp only [Option.map_map, Function.comp_def, BoxNode.query_map] at hQuery
  have hMap : ∀ {β γ : Type} (g : β → γ) (root : Option (BoxNode β)),
      ((root.map (BoxNode.query r)).getD []).map g = (root.map fun n => (n.query r).map g).getD [] := by
    intro β γ g root
    cases root <;> rfl
  rw [query, query, hMap, hMap, hQuery]

end BoxTree

namespace BoxArena

open BoxNode (capacity leastFill Filled)

variable {nodes : Array BoxEntry} {p : Plot}

/-! ## Following children -/

theorem mapM_eq_some {β γ : Type} {g : β → Option γ} {xs : List β} {ys : List γ}
    (h : xs.map g = ys.map some) : xs.mapM g = some ys := by
  induction xs generalizing ys with
  | nil =>
    rw [List.map_eq_nil_iff.mp h.symm]
    rfl
  | cons x xs ih =>
    obtain ⟨y, ys, rfl, hHead, hTail⟩ := List.map_eq_cons_iff.mp h.symm
    rw [List.mapM_cons, ← hHead, ih hTail.symm]
    rfl

theorem mapM_place {β : Type} {g : Nat → Option β} {f : Plot → β} {plots : List Plot}
    (h : ∀ q ∈ plots, g q.place = some (f q)) : (plots.map (·.place)).mapM g = some (plots.map f) := by
  apply mapM_eq_some
  rw [List.map_map, List.map_map]
  exact List.map_congr_left h

section Levels

variable {levels : Nat}

theorem Stored.walkFrom?_eq (h : Stored nodes p) (hLevels : p.places.length ≤ levels) :
    walkFrom? nodes levels p.place = some p.places := by
  induction h generalizing levels with
  | leaf entry =>
    obtain ⟨levels, rfl⟩ := Nat.exists_eq_add_of_le' hLevels
    rw [List.length_singleton, walkFrom?, entry]
  | @branch place plots entry below ih =>
    obtain ⟨levels, rfl, hFewer⟩ := exists_levels hLevels
    change walkFrom? nodes (levels + 1) place = _
    rw [walkFrom?, entry, Plot.entry]
    simp only [mapM_place fun q hq => ih q hq (hFewer q hq), Option.bind_eq_bind, Option.bind_some]
    rfl

theorem Stored.depthFrom?_eq (h : Stored nodes p) (hLevels : p.places.length ≤ levels) :
    depthFrom? nodes levels p.place = some p.node.depth := by
  induction h generalizing levels with
  | leaf entry =>
    obtain ⟨levels, rfl⟩ := Nat.exists_eq_add_of_le' hLevels
    rw [List.length_singleton, depthFrom?, entry]
    rfl
  | @branch place plots entry below ih =>
    obtain ⟨levels, rfl, hFewer⟩ := exists_levels hLevels
    change depthFrom? nodes (levels + 1) place = _
    rw [depthFrom?, entry, Plot.entry]
    cases plots with
    | nil => rfl
    | cons q rest =>
      have hFirst := List.mem_cons_self (a := q) (l := rest)
      simp only [List.map_cons, ih q hFirst (hFewer q hFirst), Option.bind_eq_bind, Option.bind_some]
      rfl

theorem queryAll_eq_flatMap (r : Rect) (children : List (BoxNode α)) :
    BoxNode.queryAll r children = children.flatMap (BoxNode.query r) := by
  induction children with
  | nil => rfl
  | cons c rest ih => rw [BoxNode.queryAll, ih, List.flatMap_cons]

theorem Stored.queryFrom?_eq (h : Stored nodes p) (hLevels : p.places.length ≤ levels) (r : Rect) :
    queryFrom? nodes r levels p.place = some (p.node.query r) := by
  induction h generalizing levels with
  | leaf entry =>
    obtain ⟨levels, rfl⟩ := Nat.exists_eq_add_of_le' hLevels
    rw [List.length_singleton, queryFrom?, entry]
    rfl
  | @branch place plots entry below ih =>
    obtain ⟨levels, rfl, hFewer⟩ := exists_levels hLevels
    change queryFrom? nodes r (levels + 1) place = some (if _ then _ else _)
    rw [queryFrom?, entry, Plot.entry]
    simp only [mapM_place fun q hq => ih q hq (hFewer q hq), Option.bind_eq_bind, Option.bind_some]
    split
    · rw [queryAll_eq_flatMap, List.flatMap_map]
      rfl
    · rfl

end Levels

/-- The leaves of a plot are the entries of its tree. -/
theorem Stored.leaves_eq (h : Stored nodes p) :
    p.places.filterMap (fun i => nodes[i]?.bind BoxEntry.leaf?) = p.node.entries := by
  induction h with
  | leaf entry => simp [entry, BoxEntry.leaf?, BoxNode.entries]
  | @branch place plots entry below ih =>
    simp only [Plot.above, BoxNode.entries_ofChildren, BoxNode.entriesAll_eq_flatMap, List.flatMap_map]
    rw [List.filterMap_cons_none (by simp [entry, Plot.entry, BoxEntry.leaf?]), List.filterMap_flatMap]
    exact List.flatMap_congr fun q hq => ih q hq

/-- What stands at a place of a plot is the plot itself or one that is filled as those below others are. -/
theorem Stored.exists_at {least level : Nat} (h : Stored nodes p) (hFilled : Filled least level p.node) :
    ∀ i ∈ p.places, ∃ q, q.place = i ∧ Stored nodes q ∧ (q = p ∨ ∃ l, Filled leastFill l q.node) := by
  induction h generalizing least level with
  | @leaf place item box entry =>
    intro i hi
    exact ⟨_, (List.mem_singleton.mp hi).symm, .leaf entry, .inl rfl⟩
  | @branch place plots entry below ih =>
    intro i hi
    obtain rfl | hBelow := List.mem_cons.mp hi
    · exact ⟨_, rfl, .branch entry below, .inl rfl⟩
    · obtain ⟨q, hq, hiq⟩ := List.mem_flatMap.mp hBelow
      cases hFilled with
      | branch _ _ hChildren =>
        have hFilledChild := hChildren q.node (List.mem_map_of_mem hq)
        obtain ⟨r, hPlace, hStored, rfl | hDeep⟩ := ih q hq hFilledChild i hiq
        · exact ⟨r, hPlace, hStored, .inr ⟨_, hFilledChild⟩⟩
        · exact ⟨r, hPlace, hStored, .inr hDeep⟩

/-! ## Whole runs -/

/-- After given insertions one tree takes all places of the array, the one that grows from the same boxes. -/
structure Faithful (entries : List (Rect × α)) (a : BoxArena α) (top : Option Plot) : Prop where
  items : a.items.toList = entries.map (·.2)
  root : a.root = top.map (·.place)
  tree : (BoxTree.ofEntries (BoxTree.indexed entries)).root = top.map (·.node)
  stored : ∀ q ∈ top, Stored a.nodes q
  places : (top.toList.flatMap (·.places)).Perm (List.range a.nodes.size)

theorem Faithful.size_items {entries : List (Rect × α)} {a : BoxArena α} {top : Option Plot}
    (h : Faithful entries a top) : a.items.size = entries.length := by
  rw [← Array.length_toList, h.items, List.length_map]

/-- A tree that takes all places of the array has no more levels than the array has nodes. -/
theorem Faithful.length_places_le {entries : List (Rect × α)} {a : BoxArena α}
    (h : Faithful entries a (some p)) : p.places.length ≤ a.nodes.size := by
  have hLength := h.places.length_eq
  rw [Option.toList_some, List.flatMap_singleton, List.length_range] at hLength
  exact hLength.le

theorem Faithful.exists_insert? {entries : List (Rect × α)} {a : BoxArena α} {top : Option Plot}
    (h : Faithful entries a top) (box : Rect) (item : α) :
    ∃ b next, a.insert? box item = some b ∧ Faithful (entries ++ [(box, item)]) b next := by
  have hItems : (a.items.push item).toList = (entries ++ [(box, item)]).map (·.2) := by
    simp [h.items]
  have hFilled := BoxTree.filled_ofEntries (BoxTree.indexed entries)
  have hTree := h.tree
  obtain _ | p := top
  · have hEmpty : a.nodes.size = 0 := List.length_range.symm.trans h.places.length_eq.symm
    refine ⟨⟨a.nodes.push (.leaf box a.items.size), a.items.push item, some a.nodes.size⟩,
      some ⟨a.nodes.size, .leaf box entries.length, [a.nodes.size]⟩, ?_, hItems, rfl, ?_, ?_, ?_⟩
    · rw [insert?, h.root]
      rfl
    · rw [BoxTree.indexed_concat, BoxTree.ofEntries_concat]
      simp [BoxTree.insert, hTree]
    · intro q hq
      rw [← Option.some.inj hq]
      exact .leaf (by rw [Array.getElem?_push, if_pos rfl, h.size_items])
    · simp [hEmpty]
  · have hPlaces : p.places.Perm (List.range a.nodes.size) := by simpa using h.places
    obtain ⟨level, hLevel⟩ := hFilled p.node hTree
    obtain ⟨after, q, sibling, hInsert, hGrown⟩ := (h.stored p rfl).exists_insertBelow? hLevel (by decide)
      (hPlaces.nodup_iff.mpr List.nodup_range) h.length_places_le box a.items.size
    have hGrownPlaces : ((q :: sibling.toList).flatMap (·.places)).Perm (List.range after.size) := by
      have hSize := hGrown.size_le
      refine hGrown.taken.trans ((hPlaces.append_right _).trans (.of_eq ?_))
      have hAppend := @List.range'_append_1 0 a.nodes.size (after.size - a.nodes.size)
      rwa [Nat.zero_add, Nat.add_sub_cancel' hSize, ← List.range_eq_range', ← List.range_eq_range'] at hAppend
    have hRoot : (BoxTree.ofEntries (BoxTree.indexed (entries ++ [(box, item)]))).root =
        some (sibling.elim q.node fun s => .ofChildren [s.node, q.node]) := by
      rw [BoxTree.indexed_concat, BoxTree.ofEntries_concat, BoxTree.insert, hTree, ← h.size_items]
      simp only [Option.map_some, ← hGrown.tree]
      cases sibling <;> rfl
    obtain _ | s := sibling
    · refine ⟨⟨after, a.items.push item, some p.place⟩, some q, ?_, hItems, ?_, hRoot, ?_, ?_⟩
      · rw [insert?, h.root]
        simp only [Option.map_some, hInsert, Option.bind_eq_bind, Option.bind_some, Option.map_none]
      · rw [Option.map_some, hGrown.stays]
      · exact fun r hr => hGrown.stored r (List.mem_cons.mpr (.inl (Option.some.inj hr).symm))
      · simpa using hGrownPlaces
    · have hPair : ∀ r ∈ [s, q], Stored after r := by simpa [and_comm] using hGrown.stored
      refine ⟨⟨after.push (Plot.entry [s, q]), a.items.push item, some after.size⟩,
        some (.above after.size [s, q]), ?_, hItems, rfl, hRoot, ?_, ?_⟩
      · have hTop := addBranch?_eq hPair (by simp)
        rw [List.map_cons, List.map_singleton, hGrown.stays] at hTop
        rw [insert?, h.root]
        simp only [Option.map_some, hInsert, hTop, Option.bind_eq_bind, Option.bind_some]
      · exact fun r hr => Option.some.inj hr ▸ stored_push hPair
      · rw [Array.size_push, List.range_succ]
        simp only [Option.toList_some, List.flatMap_cons, List.flatMap_nil, List.append_nil, Plot.above]
          at hGrownPlaces ⊢
        calc after.size :: (s.places ++ q.places)
          _ ~ after.size :: (q.places ++ s.places) := List.perm_append_comm.cons _
          _ ~ after.size :: List.range after.size := hGrownPlaces.cons _
          _ ~ List.range after.size ++ [after.size] := (List.perm_append_singleton _ _).symm

theorem exists_ofEntries? (entries : List (Rect × α)) :
    ∃ a top, ofEntries? entries = some a ∧ Faithful entries a top := by
  induction entries using List.reverseRecOn with
  | nil => exact ⟨{}, none, rfl, rfl, rfl, rfl, by simp, .refl _⟩
  | append_singleton entries e ih =>
    obtain ⟨a, top, hRun, hFaithful⟩ := ih
    obtain ⟨b, next, hInsert, hNext⟩ := hFaithful.exists_insert? e.1 e.2
    refine ⟨b, next, ?_, hNext⟩
    rw [ofEntries?] at hRun ⊢
    rw [List.foldlM_append, hRun]
    simpa using hInsert

theorem Level.exists_root {a : BoxArena α} {level i : Nat} (h : a.Level level i) : ∃ place, a.root = some place := by
  induction h with
  | root top => exact ⟨_, top⟩
  | child _ _ _ ih => exact ih

/-- Levels count down to the leaves. -/
theorem Level.exists_filled {a : BoxArena α} {least depth : Nat} (hTop : a.root = some p.place)
    (hStored : Stored a.nodes p) (hFilled : Filled least depth p.node) {level i : Nat} (h : a.Level level i) :
    ∃ q least rest, q.place = i ∧ Stored a.nodes q ∧ Filled least rest q.node ∧ level + rest = depth + 1 := by
  induction h with
  | root top =>
    have hPlace := Option.some.inj (hTop.symm.trans top)
    exact ⟨p, least, depth, hPlace, hStored, hFilled, Nat.add_comm ..⟩
  | @child level place child box children above entry mem ih =>
    obtain ⟨q, least, rest, rfl, hStored, hFilled, hLevel⟩ := ih
    cases hStored with
    | leaf own => exact nomatch Option.some.inj (own.symm.trans entry)
    | @branch place plots own below =>
      cases Option.some.inj (own.symm.trans entry)
      obtain ⟨r, hr, rfl⟩ := List.mem_map.mp mem
      cases hFilled with
      | @branch _ rest _ _ _ _ hChildren =>
        refine ⟨r, leastFill, rest, rfl, below r hr, hChildren _ (List.mem_map_of_mem hr), ?_⟩
        omega

variable {entries : List (Rect × α)} {a : BoxArena α} {top : Option Plot}

theorem filterMap_range {β γ : Type} (f : β → Option γ) (xs : List β) :
    (List.range xs.length).filterMap (fun i => xs[i]?.bind f) = xs.filterMap f := by
  induction xs using List.reverseRecOn with
  | nil => rfl
  | append_singleton xs x ih =>
    rw [List.length_append, List.length_singleton, List.range_succ, List.filterMap_append, List.filterMap_append,
      ← ih]
    congr 1
    · apply List.filterMap_congr
      intro i hi
      rw [List.getElem?_append_left (List.mem_range.mp hi)]
    · simp [List.filterMap_cons]

theorem Faithful.leaves_perm (h : Faithful entries a top) (hDefined : ∀ e ∈ entries, e.1.Defined) :
    (a.nodes.toList.filterMap BoxEntry.leaf?).Perm (BoxTree.indexed entries) := by
  have hEntries := (BoxTree.ofEntries_tight (BoxTree.forall_mem_indexed.mpr hDefined)).2
  have hNodes := filterMap_range BoxEntry.leaf? a.nodes.toList
  simp only [Array.length_toList, Array.getElem?_toList] at hNodes
  have hTop : (top.toList.flatMap (·.places)).filterMap (fun i => a.nodes[i]?.bind BoxEntry.leaf?) =
      (BoxTree.ofEntries (BoxTree.indexed entries)).entries := by
    rw [BoxTree.entries, h.tree]
    cases hNode : top with
    | none => rfl
    | some p => simpa using (h.stored p hNode).leaves_eq
  rw [← hNodes]
  exact (h.places.symm.filterMap _).trans (hTop ▸ hEntries)

/-- Every place belongs to the tree, at its root or below. -/
theorem Faithful.exists_at (h : Faithful entries a top) {i : Nat} {e : BoxEntry}
    (hEntry : a.nodes[i]? = some e) : ∃ q, q.place = i ∧ Stored a.nodes q ∧
      ((a.root = some i ∧ ∃ l, Filled 2 l q.node) ∨ ∃ l, Filled leastFill l q.node) := by
  have hPlace := h.places.mem_iff.mpr (List.mem_range.mpr (lt_size_of_entry hEntry))
  obtain ⟨p, hp, hi⟩ := List.mem_flatMap.mp hPlace
  obtain rfl := Option.mem_toList.mp hp
  have hTree := h.tree
  have hRoot := h.root
  obtain ⟨level, hFilled⟩ := BoxTree.filled_ofEntries _ p.node hTree
  obtain ⟨q, rfl, hStored, rfl | hDeep⟩ := (h.stored p rfl).exists_at hFilled i hi
  · exact ⟨q, rfl, hStored, .inl ⟨hRoot, level, hFilled⟩⟩
  · exact ⟨q, rfl, hStored, .inr hDeep⟩

theorem Faithful.fill (h : Faithful entries a top) {i : Nat} {box : Rect} {children : List Nat}
    (hEntry : a.nodes[i]? = some (.branch box children)) :
    (2 ≤ children.length ∧ (a.root ≠ some i → 8 ≤ children.length) ∧ children.length ≤ 20) ∧
      union? a.nodes children = some box := by
  obtain ⟨q, rfl, hStored, hFilled⟩ := h.exists_at hEntry
  cases hStored with
  | leaf own => exact nomatch Option.some.inj (own.symm.trans hEntry)
  | @branch place plots own below =>
    cases Option.some.inj (own.symm.trans hEntry)
    have hFill : leastFill = 8 := rfl
    have hCapacity : capacity = 20 := rfl
    obtain ⟨hRoot, level, hFilled⟩ | ⟨level, hFilled⟩ := hFilled
    · cases hFilled with
      | branch floor ceiling _ =>
        rw [List.length_map] at floor ceiling
        have hNe : plots ≠ [] := List.ne_nil_of_length_pos (by omega)
        rw [List.length_map]
        exact ⟨⟨floor, fun hOther => absurd hRoot hOther, ceiling⟩, union?_eq below hNe⟩
    · cases hFilled with
      | branch floor ceiling _ =>
        rw [List.length_map] at floor ceiling
        have hNe : plots ≠ [] := List.ne_nil_of_length_pos (by omega)
        rw [List.length_map]
        exact ⟨⟨by omega, fun _ => floor, ceiling⟩, union?_eq below hNe⟩

theorem Faithful.tree_entries (h : Faithful entries a top) (hDefined : ∀ e ∈ entries, e.1.Defined) :
    (top.toList.flatMap (·.node.entries)).Perm (BoxTree.indexed entries) := by
  have hEntries := (BoxTree.ofEntries_tight (BoxTree.forall_mem_indexed.mpr hDefined)).2
  rw [BoxTree.entries, h.tree] at hEntries
  cases top with
  | none => exact hEntries
  | some p => simpa using hEntries

theorem Faithful.level (h : Faithful entries a top) (hDefined : ∀ e ∈ entries, e.1.Defined) :
    ∃ depth, a.depth? = some depth ∧ depth = (BoxTree.ofEntries entries).depth ∧
      (∀ level (i : Nat) box item, a.Level level i → a.nodes[i]? = some (.leaf box item) → level = depth) ∧
        (2 ≤ depth → 2 * 8 ^ (depth - 2) ≤ entries.length ∧ entries.length ≤ 20 ^ (depth - 1)) := by
  have hEntries := (h.tree_entries hDefined).length_eq
  rw [BoxTree.indexed, List.length_map, List.length_zipIdx] at hEntries
  rw [← BoxTree.depth_indexed, BoxTree.depth, h.tree, depth?, h.root]
  obtain _ | p := top
  · refine ⟨0, rfl, rfl, fun level i box item hLevel _ => ?_, by omega⟩
    obtain ⟨place, hTop⟩ := hLevel.exists_root
    exact nomatch h.root.symm.trans hTop
  · obtain ⟨depth, hFilled⟩ := BoxTree.filled_ofEntries _ p.node h.tree
    have hDepth := hFilled.depth_eq (by decide)
    refine ⟨depth, ?_, hDepth.symm, ?_, ?_⟩
    · rw [← hDepth]
      exact (h.stored p rfl).depthFrom?_eq h.length_places_le
    · intro level i box item hLevel hLeaf
      obtain ⟨q, least, rest, rfl, hStored, hRest, hSum⟩ := hLevel.exists_filled h.root (h.stored p rfl) hFilled
      cases hStored with
      | leaf =>
        cases hRest
        omega
      | branch own => exact nomatch Option.some.inj (own.symm.trans hLeaf)
    · intro hDeep
      obtain ⟨k, rfl⟩ := Nat.exists_eq_add_of_le' hDeep
      have hCount := hFilled.length_entries_branch
      rw [Option.toList_some, List.flatMap_singleton] at hEntries
      rwa [hEntries] at hCount

/-- Sides of the outermost box are those of inserted boxes, and no inserted box reaches beyond it. -/
theorem Faithful.sides (h : Faithful entries a top) (hDefined : ∀ e ∈ entries, e.1.Defined) (hNe : entries ≠ []) :
    ∃ r, a.bounds? = some r ∧ (∀ e ∈ entries, e.1.Within r) ∧
      ∀ side : BoxNode.Side, ∃ e ∈ entries, side.of r = side.of e.1 := by
  have hEntries := h.tree_entries hDefined
  have hTight := (BoxTree.ofEntries_tight (BoxTree.forall_mem_indexed.mpr hDefined)).1
  obtain _ | p := top
  · have hLength := hEntries.length_eq
    rw [BoxTree.indexed, List.length_map, List.length_zipIdx] at hLength
    exact absurd (List.length_eq_zero_iff.mp hLength.symm) hNe
  · rw [Option.toList_some, List.flatMap_singleton] at hEntries
    obtain ⟨e, hEntry, hBox⟩ := (h.stored p rfl).entry
    have hNode := hTight p.node h.tree
    refine ⟨p.node.box, ?_, ?_, ?_⟩
    · simp [bounds?, h.root, hEntry, hBox]
    · rw [← BoxTree.forall_mem_indexed (p := fun box => box.Within p.node.box)]
      exact fun e he => hNode.within_box e (hEntries.mem_iff.mpr he)
    · intro side
      obtain ⟨e, he, hSide⟩ := hNode.exists_side side
      have hBox := List.mem_map_of_mem (f := (·.1)) (hEntries.mem_iff.mp he)
      rw [BoxTree.map_fst_indexed] at hBox
      obtain ⟨inserted, hMem, hEq⟩ := List.mem_map.mp hBox
      exact ⟨inserted, hMem, hEq ▸ hSide⟩

theorem Faithful.bounds?_eq (h : Faithful entries a top) : a.bounds? = (BoxTree.ofEntries entries).bounds? := by
  rw [← BoxTree.bounds?_indexed, BoxTree.bounds?, h.tree, bounds?, h.root]
  obtain _ | p := top
  · rfl
  · obtain ⟨e, hEntry, hBox⟩ := (h.stored p rfl).entry
    simp [hEntry, hBox]

theorem Faithful.query?_eq (h : Faithful entries a top) (r : Rect) :
    a.query? r = some ((BoxTree.ofEntries entries).query r) := by
  have hFound : a.root.elim (some []) (queryFrom? a.nodes r a.nodes.size) =
      some ((BoxTree.ofEntries (BoxTree.indexed entries)).query r) := by
    rw [BoxTree.query, h.tree, h.root]
    obtain _ | p := top
    · rfl
    · exact (h.stored p rfl).queryFrom?_eq h.length_places_le r
  have hItems : ∀ i : Nat, a.items[i]? = entries[i]?.map (·.2) := by
    intro i
    rw [← Array.getElem?_toList, h.items, List.getElem?_map]
  rw [query?, hFound]
  simp only [Option.bind_eq_bind, Option.bind_some, hItems]
  exact mapM_eq_some (BoxTree.query_indexed entries r)

/-! ## Balance -/

/-- An array that holds one balanced tree over given entries. -/
structure Balanced (entries : List (Rect × α)) (a : BoxArena α) : Prop where
  items : a.items.toList = entries.map (·.2)
  walk : ∃ places, a.walk? = some places ∧ places.Perm (List.range a.nodes.size)
  leaves : (a.nodes.toList.filterMap BoxEntry.leaf?).Perm (entries.zipIdx.map fun e => (e.1.1, e.2))
  level : ∃ depth, a.depth? = some depth ∧ depth = (BoxTree.ofEntries entries).depth ∧
    (∀ level (i : Nat) box item, a.Level level i → a.nodes[i]? = some (.leaf box item) → level = depth) ∧
      (2 ≤ depth → 2 * 8 ^ (depth - 2) ≤ entries.length ∧ entries.length ≤ 20 ^ (depth - 1))
  branch : ∀ (i : Nat) box children, a.nodes[i]? = some (.branch box children) →
    (2 ≤ children.length ∧ (a.root ≠ some i → 8 ≤ children.length) ∧ children.length ≤ 20) ∧
      union? a.nodes children = some box
  bounds : a.bounds? = (BoxTree.ofEntries entries).bounds?
  sides : entries ≠ [] → ∃ r, a.bounds? = some r ∧ (∀ e ∈ entries, e.1.Within r) ∧
    ∀ side : BoxNode.Side, ∃ e ∈ entries, side.of r = side.of e.1
  query : ∀ r, a.query? r = some ((BoxTree.ofEntries entries).query r)

/-- Insertions never fail and keep the tree balanced, filled and tight. -/
theorem ofEntries?_balanced {entries : List (Rect × α)} (hDefined : ∀ e ∈ entries, e.1.Defined) :
    ∃ a, ofEntries? entries = some a ∧ Balanced entries a := by
  obtain ⟨a, top, hRun, hFaithful⟩ := exists_ofEntries? entries
  refine ⟨a, hRun, ?_⟩
  exact {
    items := hFaithful.items
    walk := by
      refine ⟨_, ?_, hFaithful.places⟩
      rw [walk?, hFaithful.root]
      obtain _ | p := top
      · rfl
      · simpa using (hFaithful.stored p rfl).walkFrom?_eq hFaithful.length_places_le
    leaves := hFaithful.leaves_perm hDefined
    level := hFaithful.level hDefined
    branch := fun _ _ _ => hFaithful.fill
    bounds := hFaithful.bounds?_eq
    sides := hFaithful.sides hDefined
    query := hFaithful.query?_eq }

/-- More boxes than a branch may hold. -/
theorem ofEntries?_balanced_strips :
    let strips : List (Rect × Nat) := (List.range 26).map fun k => (⟨k.toFloat, 0.0, 20.0 - k.toFloat, 1.0⟩, k)
    (∀ e ∈ strips, e.1.Defined) ∧ ∃ a, ofEntries? strips = some a ∧ Balanced strips a := by
  intro strips
  have hDefined : ∀ e ∈ strips, e.1.Defined := by decide +kernel
  exact ⟨hDefined, ofEntries?_balanced hDefined⟩

end BoxArena

end TrackLayout
