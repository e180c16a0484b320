import Mathlib.Algebra.Order.BigOperators.Group.List
import Mathlib.Algebra.Order.Group.Nat
import TrackLayout.Proofs.BoxTree.Insertion

/-!
# Shapes of box trees

Insertion grows a tree at the root alone: a branch that took one child too many
hands half of them up, and only a root that was split gets a level above it.
So all leaves stay on one level, and a branch below the root has come out of
a split and keeps enough children.
-/
set_option autoImplicit false

namespace TrackLayout

variable {α : Type}

namespace BoxNode

/-- A node whose leaves are on one level below it, with a least number of children for the node itself. -/
inductive Filled : Nat → Nat → BoxNode α → Prop
  | leaf {least : Nat} {box : Rect} {item : α} : Filled least 1 (.leaf box item)
  | branch {least level : Nat} {box : Rect} {children : List (BoxNode α)} (floor : least ≤ children.length)
      (ceiling : children.length ≤ capacity) (below : ∀ c ∈ children, Filled leastFill level c) :
      Filled least (level + 1) (.branch box children)

variable {least level : Nat} {n : BoxNode α}

theorem Filled.mono {more : Nat} (h : Filled more level n) (hLe : least ≤ more) : Filled least level n := by
  cases h with
  | leaf => exact .leaf
  | branch floor ceiling below => exact .branch (hLe.trans floor) ceiling below

theorem Filled.level_pos (h : Filled least level n) : 0 < level := by
  cases h with
  | leaf => exact Nat.one_pos
  | branch => exact Nat.succ_pos _

theorem Filled.depth_eq (h : Filled least level n) (hLeast : 0 < least) : n.depth = level := by
  induction h with
  | leaf => rfl
  | @branch least level box children floor ceiling below ih =>
    cases children with
    | nil => exact absurd floor (Nat.not_le.mpr hLeast)
    | cons c rest => rw [depth, ih c List.mem_cons_self (by decide)]

/-! ## Numbers of items -/

/-- Numbers of items are bounded by those below each child. -/
theorem length_entriesAll {children : List (BoxNode α)} {low high : Nat}
    (h : ∀ c ∈ children, low ≤ c.entries.length ∧ c.entries.length ≤ high) :
    children.length * low ≤ (entriesAll children).length ∧
      (entriesAll children).length ≤ children.length * high := by
  rw [entriesAll_eq_flatMap, List.length_flatMap]
  constructor
  · have hSum := List.card_nsmul_le_sum (children.map (·.entries.length)) low
      (List.forall_mem_map.mpr fun c hc => (h c hc).1)
    simpa using hSum
  · have hSum := List.sum_le_card_nsmul (children.map (·.entries.length)) high
      (List.forall_mem_map.mpr fun c hc => (h c hc).2)
    simpa using hSum

theorem Filled.length_entries (h : Filled leastFill level n) :
    leastFill ^ (level - 1) ≤ n.entries.length ∧ n.entries.length ≤ capacity ^ (level - 1) := by
  generalize hLeast : leastFill = least at h
  induction h with
  | leaf => simp [entries]
  | @branch least level box children floor ceiling below ih =>
    subst hLeast
    obtain ⟨hLow, hHigh⟩ := length_entriesAll fun c hc => ih c hc rfl
    obtain _ | level := level
    · -- a branch has children, and they have levels
      obtain ⟨c, hc⟩ := List.exists_mem_of_length_pos ((by decide : 0 < leastFill).trans_le floor)
      exact absurd (below c hc).level_pos (Nat.lt_irrefl 0)
    · simp only [entries, Nat.add_sub_cancel] at hLow hHigh ⊢
      constructor
      · calc leastFill ^ (level + 1) = leastFill * leastFill ^ level := Nat.pow_succ'
          _ ≤ children.length * leastFill ^ level := Nat.mul_le_mul_right _ floor
          _ ≤ _ := hLow
      · calc (entriesAll children).length ≤ children.length * capacity ^ level := hHigh
          _ ≤ capacity * capacity ^ level := Nat.mul_le_mul_right _ ceiling
          _ = capacity ^ (level + 1) := Nat.pow_succ'.symm

/-- The node itself may have fewer children than those below it. -/
theorem Filled.length_entries_branch (h : Filled least (level + 2) n) :
    least * leastFill ^ level ≤ n.entries.length ∧ n.entries.length ≤ capacity ^ (level + 1) := by
  cases h with
  | @branch _ _ _ children floor ceiling below =>
    obtain ⟨hLow, hHigh⟩ := length_entriesAll fun c hc => (below c hc).length_entries
    rw [entries]
    constructor
    · exact (Nat.mul_le_mul_right _ floor).trans hLow
    · rw [Nat.pow_succ']
      exact hHigh.trans (Nat.mul_le_mul_right _ ceiling)

/-! ## Sides -/

theorem exists_side_union (side : Side) {children : List (BoxNode α)} (hNe : children ≠ []) :
    ∃ c ∈ children, side.of (union children) = side.of c.box := by
  have hUnion : ∀ r s : Rect, side.of (r.union s) = side.of r ∨ side.of (r.union s) = side.of s := by
    intro r s
    cases side <;> simp only [Side.of, Rect.union, Binary64.minimum, Binary64.maximum] <;> split <;> simp
  obtain ⟨first, rest, rfl⟩ := List.exists_cons_of_ne_nil hNe
  -- along the fold, a side is one that was seen
  have hSeen : ∀ (rest : List (BoxNode α)) (r : Rect), side.of (rest.foldl (fun r c => r.union c.box) r) = side.of r ∨
      ∃ c ∈ rest, side.of (rest.foldl (fun r c => r.union c.box) r) = side.of c.box := by
    intro rest
    induction rest with
    | nil => exact fun r => .inl rfl
    | cons c rest ih =>
      intro r
      rw [List.foldl_cons]
      obtain hSame | ⟨d, hd, hSide⟩ := ih (r.union c.box)
      · rw [hSame]
        exact (hUnion r c.box).imp_right fun h => ⟨c, List.mem_cons_self, h⟩
      · exact .inr ⟨d, List.mem_cons_of_mem _ hd, hSide⟩
  obtain hFirst | ⟨c, hc, hSide⟩ := hSeen rest first.box
  · exact ⟨first, List.mem_cons_self, hFirst⟩
  · exact ⟨c, List.mem_cons_of_mem _ hc, hSide⟩

/-- Every side of a node's box is that of some item below it. -/
theorem Tight.exists_side (h : n.Tight) (side : Side) : ∃ e ∈ n.entries, side.of n.box = side.of e.1 := by
  induction h with
  | @leaf box item defined => exact ⟨(box, item), List.mem_singleton_self _, rfl⟩
  | @branch children inhabited tight ih =>
    obtain ⟨c, hc, hSide⟩ := exists_side_union side inhabited
    obtain ⟨e, he, hEntry⟩ := ih c hc
    refine ⟨e, ?_, hSide.trans hEntry⟩
    rw [entries_ofChildren, entriesAll_eq_flatMap]
    exact List.mem_flatMap.mpr ⟨c, hc, he⟩

/-! ## Insertions -/

/-- What comes out of an insertion: the node as it was filled before, or two halves that may stand below
another node. -/
structure Grows (least level : Nat) (out : BoxNode α × Option (BoxNode α)) : Prop where
  alone : out.2 = none → Filled least level out.1
  parted : ∀ s ∈ out.2, Filled leastFill level out.1 ∧ Filled leastFill level s

theorem rebuild_filled {children : List (BoxNode α)} {sibling : Option (BoxNode α)}
    (hFloor : least ≤ children.length) (hCeiling : children.length ≤ capacity)
    (hBelow : ∀ c ∈ children ++ sibling.toList, Filled leastFill level c) :
    Grows least (level + 1) (rebuild children sibling) := by
  rw [rebuild]
  split
  · next hFull =>
    have hLength : (children ++ sibling.toList).length ≤ capacity + 1 := by
      rw [List.length_append]
      cases sibling <;> simp <;> omega
    obtain ⟨hStay, hMoved⟩ := leastFill_le_split hFull
    have hPerm := split_perm (children ++ sibling.toList)
    have hParts := hPerm.length_eq
    have hFill : 0 < leastFill := by decide
    rw [List.length_append] at hParts
    refine ⟨fun hNone => absurd hNone (Option.some_ne_none _), fun s hs => ?_⟩
    rw [← Option.some.inj hs]
    constructor
    · exact .branch hStay (by omega) fun c hc => hBelow c (hPerm.subset (List.mem_append_left _ hc))
    · exact .branch hMoved (by omega) fun c hc => hBelow c (hPerm.subset (List.mem_append_right _ hc))
  · next hFits =>
    refine ⟨fun _ => .branch ?_ (Nat.le_of_not_lt hFits) hBelow, fun s hs => absurd hs (Option.not_mem_none s)⟩
    rw [List.length_append]
    omega

/-- The child that an insertion goes to, with those before and behind it. -/
theorem exists_bestChild (box : Rect) {children : List (BoxNode α)} (hNe : children ≠ []) :
    ∃ before c behind, children = before ++ c :: behind ∧ bestChild box children = before.length := by
  have hk := bestChild_lt box hNe
  refine ⟨children.take (bestChild box children), children[bestChild box children],
    children.drop (bestChild box children + 1), ?_, ?_⟩
  · rw [List.getElem_cons_drop, List.take_append_drop]
  · rw [List.length_take, Nat.min_eq_left hk.le]

theorem insertAt_append (box : Rect) (item : α) (before behind : List (BoxNode α)) (c : BoxNode α) :
    insertAt box item before.length (before ++ c :: behind) =
      (before ++ (c.insert box item).1 :: behind, (c.insert box item).2) := by
  induction before with
  | nil => rfl
  | cons b before ih =>
    simp only [List.cons_append, List.length_cons, insertAt]
    rw [ih]

theorem insert_branch {box own : Rect} {item : α} {before behind : List (BoxNode α)} {c : BoxNode α}
    (hBest : bestChild box (before ++ c :: behind) = before.length) :
    (BoxNode.branch own (before ++ c :: behind)).insert box item =
      rebuild (before ++ (c.insert box item).1 :: behind) (c.insert box item).2 := by
  rw [insert, hBest, insertAt_append]

theorem insert_filled (box : Rect) (item : α) (h : Filled least level n) (hLeast : 0 < least) :
    Grows least level (n.insert box item) := by
  induction h with
  | leaf =>
    rw [insert]
    refine ⟨fun hNone => absurd hNone (Option.some_ne_none _), fun s hs => ?_⟩
    rw [← Option.some.inj hs]
    exact ⟨.leaf, .leaf⟩
  | @branch least level own children floor ceiling below ih =>
    have hNe : children ≠ [] := List.ne_nil_of_length_pos (by omega)
    obtain ⟨before, c, behind, rfl, hBest⟩ := exists_bestChild box hNe
    have hGrown := ih c (by simp) (by decide)
    have hFirst : Filled leastFill level (c.insert box item).1 := by
      cases hOut : (c.insert box item).2 with
      | none => exact hGrown.alone hOut
      | some s => exact (hGrown.parted s hOut).1
    simp only [List.length_append, List.length_cons, List.forall_mem_append, List.forall_mem_cons]
      at floor ceiling below
    rw [insert_branch hBest]
    apply rebuild_filled
    · simpa using floor
    · simpa using ceiling
    · simp only [List.forall_mem_append, List.forall_mem_cons, Option.mem_toList]
      exact ⟨⟨below.1, hFirst, below.2.2⟩, fun s hs => (hGrown.parted s hs).2⟩

end BoxNode

namespace BoxTree

open BoxNode (Filled leastFill)

/-- All leaves are on one level. Only the root may have fewer children than a split leaves. -/
def Filled (t : BoxTree α) : Prop := ∀ n ∈ t.root, ∃ level, BoxNode.Filled 2 level n

theorem Filled.insert {t : BoxTree α} (h : t.Filled) (box : Rect) (item : α) : (t.insert box item).Filled := by
  unfold Filled at h ⊢
  simp only [BoxTree.insert]
  cases hRoot : t.root with
  | none => exact fun n hn => Option.some.inj hn ▸ ⟨1, .leaf⟩
  | some n =>
    obtain ⟨level, hn⟩ := h n hRoot
    have hGrown := BoxNode.insert_filled box item hn (by decide)
    cases hInsert : n.insert box item with
    | mk root sibling =>
      rw [hInsert] at hGrown
      simp only [hInsert]
      cases sibling with
      | none => exact fun m hm => Option.some.inj hm ▸ ⟨level, hGrown.alone rfl⟩
      | some s =>
        obtain ⟨hOld, hNew⟩ := hGrown.parted s rfl
        refine fun m hm => Option.some.inj hm ▸ ⟨level + 1, .branch (by simp) (by simp [BoxNode.capacity]) ?_⟩
        simpa using ⟨hNew, hOld⟩

theorem filled_ofEntries (entries : List (Rect × α)) : (ofEntries entries).Filled := by
  induction entries using List.reverseRecOn with
  | nil => exact fun n hn => nomatch hn
  | append_singleton entries e ih =>
    rw [ofEntries_concat]
    exact ih.insert e.1 e.2

end BoxTree

end TrackLayout
