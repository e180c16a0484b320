import Mathlib.Data.List.Induction
import TrackLayout.Proofs.BoxTree.Query

/-!
# Insertion into box trees

An insertion adds one entry to a tree and keeps all others, whichever child it
goes below and wherever an overfull branch is split. Both parts of a split
have children, and every box on the way back to the root is formed anew. The
main statement is that a tree that grew from an empty one answers a query with
exactly the items inserted under boxes that meet the rectangle.
-/
set_option autoImplicit false

namespace TrackLayout

open scoped List

variable {α : Type}

theorem firstLeast?_mem {ι : Type} {cost : ι → Float} {xs : List ι} {x : ι}
    (h : firstLeast? cost xs = some x) : x ∈ xs := by
  -- what is best so far has been seen
  have hSeen : ∀ y, firstLeast? cost xs = some y → y ∈ xs := by
    refine List.foldlRecOn (motive := fun s : Option ι × Float => ∀ y, s.1 = some y → y ∈ xs) xs _ ?_ ?_
    · intro y hy
      cases hy
    · intro s hs z hz y hy
      dsimp only at hy
      split at hy
      · rw [← Option.some.inj hy]
        exact hz
      · exact hs y hy
  exact hSeen x h

namespace BoxNode

theorem entriesAll_append (xs ys : List (BoxNode α)) :
    entriesAll (xs ++ ys) = entriesAll xs ++ entriesAll ys := by
  simp [entriesAll_eq_flatMap]

theorem entriesAll_perm {xs ys : List (BoxNode α)} (h : xs.Perm ys) :
    (entriesAll xs).Perm (entriesAll ys) := by
  rw [entriesAll_eq_flatMap, entriesAll_eq_flatMap]
  exact h.flatMap_right _

theorem entries_ofChildren (children : List (BoxNode α)) :
    (ofChildren children).entries = entriesAll children := by
  rw [ofChildren, entries]

/-! ## Splits -/

theorem sortBySide_perm (side : Side) (children : List (BoxNode α)) :
    (sortBySide side children).Perm children := List.mergeSort_perm _ _

theorem orders_perm (sides : List Side) (children : List (BoxNode α)) :
    ∀ o ∈ orders children sides, o.2.Perm children := by
  induction sides generalizing children with
  | nil => simp [orders]
  | cons side rest ih =>
    rw [orders, List.forall_mem_cons]
    have hSorted := sortBySide_perm side children
    exact ⟨hSorted, fun o ho => (ih _ o ho).trans hSorted⟩

theorem cutOrder_perm (children : List (BoxNode α)) : (cutOrder children).Perm children := by
  rw [cutOrder]
  refine (sortBySide_perm _ _).trans ?_
  cases hLast : (orders children Side.all).getLast? with
  | none => exact .refl _
  | some o => exact orders_perm Side.all children o (List.mem_of_getLast? hLast)

theorem mem_cuts {children : List (BoxNode α)} {k : Nat} (h : k ∈ cuts children) :
    leastFill ≤ k ∧ k + leastFill < children.length := by
  rw [cuts, List.mem_drop_iff_getElem] at h
  obtain ⟨i, hi, rfl⟩ := h
  rw [List.length_range] at hi
  rw [List.getElem_range]
  omega

theorem parts_ne_nil {children : List (BoxNode α)} {k : Nat} (h : k ∈ cuts children) :
    children.take k ≠ [] ∧ children.drop k ≠ [] := by
  have hFill : leastFill = 8 := rfl
  obtain ⟨hLow, hHigh⟩ := mem_cuts h
  constructor
  · exact List.ne_nil_of_length_pos (by rw [List.length_take]; omega)
  · exact List.ne_nil_of_length_pos (by rw [List.length_drop]; omega)

/-- A cut of an overfull branch leaves enough on either side. -/
theorem bestCut_bounds {children : List (BoxNode α)} (h : capacity < children.length) :
    leastFill ≤ bestCut children ∧ bestCut children + leastFill ≤ children.length := by
  have hFill : leastFill = 8 := rfl
  have hCapacity : capacity = 20 := rfl
  rw [bestCut]
  cases hCut : firstLeast? (cutOverlap children) (cuts children) with
  | none => exact ⟨by decide, by simp only [Option.getD_none]; omega⟩
  | some k =>
    obtain ⟨hLow, hHigh⟩ := mem_cuts (firstLeast?_mem hCut)
    exact ⟨hLow, hHigh.le⟩

theorem split_perm (children : List (BoxNode α)) :
    ((split children).1 ++ (split children).2).Perm children := by
  simp only [split, List.splitAt_eq, List.take_append_drop]
  exact cutOrder_perm children

theorem leastFill_le_split {children : List (BoxNode α)} (h : capacity < children.length) :
    leastFill ≤ (split children).1.length ∧ leastFill ≤ (split children).2.length := by
  have hLength := (cutOrder_perm children).length_eq
  have hOver : capacity < (cutOrder children).length := by omega
  obtain ⟨hStay, hMoved⟩ := bestCut_bounds hOver
  simp only [split, List.splitAt_eq, List.length_take, List.length_drop]
  omega

theorem split_ne_nil {children : List (BoxNode α)} (h : capacity < children.length) :
    (split children).1 ≠ [] ∧ (split children).2 ≠ [] := by
  have hFill : 0 < leastFill := by decide
  obtain ⟨hStay, hMoved⟩ := leastFill_le_split h
  exact ⟨List.ne_nil_of_length_pos (by omega), List.ne_nil_of_length_pos (by omega)⟩

/-! ## Insertions -/

/-- A node with its new sibling, if there is one, holds given entries and is built as nodes are. -/
structure Holds (out : BoxNode α × Option (BoxNode α)) (entries : List (Rect × α)) : Prop where
  entries_perm : (entriesAll (out.1 :: out.2.toList)).Perm entries
  tight : ∀ n ∈ out.1 :: out.2.toList, n.Tight

theorem rebuild_holds {children : List (BoxNode α)} (sibling : Option (BoxNode α))
    (hNe : children ≠ []) (hTight : ∀ c ∈ children ++ sibling.toList, c.Tight) :
    Holds (rebuild children sibling) (entriesAll (children ++ sibling.toList)) := by
  rw [rebuild]
  split
  · next hFull =>
    obtain ⟨hStay, hMoved⟩ := split_ne_nil hFull
    have hPerm := split_perm (children ++ sibling.toList)
    constructor
    · simp only [Option.toList_some, entriesAll, entries_ofChildren, List.append_nil]
      rw [← entriesAll_append]
      exact entriesAll_perm hPerm
    · simp only [Option.toList_some, List.forall_mem_cons]
      refine ⟨.branch hStay fun c hc => ?_, .branch hMoved fun c hc => ?_, by simp⟩
      · exact hTight c (hPerm.subset (List.mem_append_left _ hc))
      · exact hTight c (hPerm.subset (List.mem_append_right _ hc))
  · constructor
    · simp [entriesAll, entries_ofChildren]
    · simp only [Option.toList_none, List.forall_mem_singleton]
      exact .branch (by simp [hNe]) hTight

theorem bestChild_lt (box : Rect) {children : List (BoxNode α)} (hNe : children ≠ []) :
    bestChild box children < children.length := by
  rw [bestChild]
  cases hBest : firstLeast? (fun c => -(affinity box c.1)) children.zipIdx with
  | none => exact List.length_pos_iff.mpr hNe
  | some c =>
    have hMem := firstLeast?_mem hBest
    simpa using (List.mem_zipIdx hMem).2.1

theorem insertAt_holds {box : Rect} {item : α} {children : List (BoxNode α)}
    (hTight : ∀ c ∈ children, c.Tight)
    (hInsert : ∀ c ∈ children, Holds (c.insert box item) ((box, item) :: c.entries))
    {position : Nat} (hPosition : position < children.length) :
    let (after, sibling) := insertAt box item position children
    (entriesAll (after ++ sibling.toList)).Perm ((box, item) :: entriesAll children) ∧
      (∀ c ∈ after ++ sibling.toList, c.Tight) ∧ after ≠ [] := by
  induction children generalizing position with
  | nil => cases hPosition
  | cons c rest ih =>
    obtain ⟨hc, hRest⟩ := List.forall_mem_cons.mp hInsert
    obtain ⟨tc, tRest⟩ := List.forall_mem_cons.mp hTight
    cases position with
    | zero =>
      simp only [insertAt, List.cons_append, entriesAll, entriesAll_append]
      refine ⟨?_, ?_, by simp⟩
      · have h := hc.entries_perm.append_right (entriesAll rest)
        rw [entriesAll, List.append_assoc, List.cons_append] at h
        exact (List.perm_append_comm.append_left _).trans h
      · have h := hc.tight
        simp only [List.forall_mem_cons, List.forall_mem_append] at h ⊢
        exact ⟨h.1, tRest, h.2⟩
    | succ position =>
      obtain ⟨hEntries, hBelow, -⟩ := ih tRest hRest (Nat.lt_of_succ_lt_succ hPosition)
      simp only [insertAt, List.cons_append, entriesAll]
      refine ⟨?_, List.forall_mem_cons.mpr ⟨tc, hBelow⟩, by simp⟩
      exact (hEntries.append_left _).trans List.perm_middle

theorem insert_holds {box : Rect} (hBox : box.Defined) (item : α) {n : BoxNode α} (h : n.Tight) :
    Holds (n.insert box item) ((box, item) :: n.entries) := by
  induction h with
  | leaf i defined =>
    constructor
    · exact List.Perm.swap ..
    · simpa [insert] using ⟨.leaf i defined, .leaf item hBox⟩
  | @branch children inhabited tight ih =>
    obtain ⟨hEntries, hTight, hNe⟩ := insertAt_holds tight ih (bestChild_lt box inhabited)
    rw [ofChildren, insert, entries]
    have h := rebuild_holds _ hNe hTight
    exact ⟨h.entries_perm.trans hEntries, h.tight⟩

end BoxNode

namespace BoxTree

def entries (t : BoxTree α) : List (Rect × α) := (t.root.map BoxNode.entries).getD []

def Tight (t : BoxTree α) : Prop := ∀ n ∈ t.root, n.Tight

/-- The tree that grows from an empty one by inserting entries in turn. -/
def ofEntries (entries : List (Rect × α)) : BoxTree α :=
  entries.foldl (fun t e => t.insert e.1 e.2) .empty

theorem ofEntries_concat (entries : List (Rect × α)) (box : Rect) (item : α) :
    ofEntries (entries ++ [(box, item)]) = (ofEntries entries).insert box item := by
  simp [ofEntries]

theorem Tight.query_eq {t : BoxTree α} (h : t.Tight) (r : Rect) :
    t.query r = BoxNode.meeting r t.entries := by
  rw [query, entries]
  cases hRoot : t.root with
  | none => rfl
  | some n => exact (h n hRoot).query_eq r

/-- An insertion adds its entry and no other change. -/
theorem Tight.insert {t : BoxTree α} (h : t.Tight) {box : Rect} (hBox : box.Defined) (item : α) :
    (t.insert box item).Tight ∧ (t.insert box item).entries.Perm ((box, item) :: t.entries) := by
  unfold Tight at h ⊢
  simp only [BoxTree.insert, entries]
  cases hRoot : t.root with
  | none => exact ⟨fun n hn => Option.some.inj hn ▸ .leaf item hBox, .refl _⟩
  | some n =>
    obtain ⟨hEntries, hTight⟩ := BoxNode.insert_holds hBox item (h n hRoot)
    cases hInsert : n.insert box item with
    | mk root sibling =>
      rw [hInsert] at hEntries hTight
      simp only [hInsert]
      cases sibling with
      | none =>
        refine ⟨fun m hm => Option.some.inj hm ▸ hTight root (by simp), ?_⟩
        simpa [BoxNode.entriesAll] using hEntries
      | some sibling =>
        refine ⟨fun m hm => Option.some.inj hm ▸ .branch (by simp) ?_, ?_⟩
        · simpa [and_comm] using hTight
        · have hSwap := BoxNode.entriesAll_perm (.swap root sibling [])
          simpa [BoxNode.entries_ofChildren] using hSwap.trans hEntries

theorem ofEntries_tight {entries : List (Rect × α)} (h : ∀ e ∈ entries, e.1.Defined) :
    (ofEntries entries).Tight ∧ (ofEntries entries).entries.Perm entries := by
  induction entries using List.reverseRecOn with
  | nil => exact ⟨(fun n hn => nomatch hn), .refl _⟩
  | append_singleton entries e ih =>
    obtain ⟨box, item⟩ := e
    simp only [List.forall_mem_append, List.forall_mem_singleton] at h
    obtain ⟨hTight, hPerm⟩ := ih h.1
    obtain ⟨hInsert, hEntries⟩ := hTight.insert h.2 item
    rw [ofEntries_concat]
    exact ⟨hInsert, hEntries.trans ((hPerm.cons _).trans (List.perm_append_singleton _ _).symm)⟩

/-- Trees over the same entries find the same items, however they were built. -/
theorem Tight.query_perm {t : BoxTree α} (h : t.Tight) {entries : List (Rect × α)}
    (hEntries : t.entries.Perm entries) (r : Rect) : (t.query r).Perm (BoxNode.meeting r entries) := by
  rw [h.query_eq]
  exact (hEntries.filter _).map _

theorem query_ofEntries_perm {entries : List (Rect × α)} (h : ∀ e ∈ entries, e.1.Defined) (r : Rect) :
    ((ofEntries entries).query r).Perm (BoxNode.meeting r entries) :=
  (ofEntries_tight h).1.query_perm (ofEntries_tight h).2 r

/-- A query finds exactly the items inserted under boxes that meet the rectangle, each as often as it
was inserted. Neither the order of insertion nor the shape of the tree has a part in it. -/
theorem query_exact {entries : List (Rect × α)} (h : ∀ e ∈ entries, e.1.Defined) (r : Rect) :
    ((ofEntries entries).query r).Perm ((entries.filter fun e => e.1.intersects r).map (·.2)) ∧
      (∀ other, other.Perm entries → ((ofEntries other).query r).Perm ((ofEntries entries).query r)) ∧
      ∀ t : BoxTree α, t.Tight → t.entries.Perm entries →
        (t.query r).Perm ((ofEntries entries).query r) := by
  have hQuery := query_ofEntries_perm h r
  refine ⟨hQuery, ?_, ?_⟩
  · intro other hOther
    have hDefined : ∀ e ∈ other, e.1.Defined := fun e he => h e (hOther.subset he)
    calc (ofEntries other).query r
      _ ~ BoxNode.meeting r other := query_ofEntries_perm hDefined r
      _ ~ BoxNode.meeting r entries := (hOther.filter _).map _
      _ ~ (ofEntries entries).query r := hQuery.symm
  · intro t hTight hEntries
    exact (hTight.query_perm hEntries r).trans hQuery.symm

/-- Enough boxes for a split, some of them the wrong way round and one without a side to the right. -/
theorem query_exact_strips :
    let strips : List (Rect × Nat) := (⟨0.0, 0.0, Binary64.infinity, 1.0⟩, 30) ::
      (List.range 25).map fun k => (⟨k.toFloat, 0.0, 20.0 - k.toFloat, 1.0⟩, k)
    (∀ e ∈ strips, e.1.Defined) ∧
      ((ofEntries strips).query ⟨12.0, 0.0, 13.0, 1.0⟩).Perm (30 :: List.range 9) := by
  intro strips
  have hDefined : ∀ e ∈ strips, e.1.Defined := by decide +kernel
  have hFound : (strips.filter fun e => e.1.intersects ⟨12.0, 0.0, 13.0, 1.0⟩).map (·.2) =
      30 :: List.range 9 := by decide +kernel
  exact ⟨hDefined, (query_exact hDefined _).1.trans (.of_eq hFound)⟩

end BoxTree

end TrackLayout
