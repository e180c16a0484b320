import TrackLayout.Proofs.Binary64.Identity
import TrackLayout.Proofs.Binary64.Magnitude
import TrackLayout.Proofs.BoxTree.Storage

/-!
# Where overfull branches are cut

Of the sides and of the cuts, the first that costs least is taken. Each order
is sorted from the one that was measured before, and the order that is cut from
the last of them. So children that are level on the side that was taken need
not stand as they stood when that side was measured. Where there are none, the
order that is cut is the order that was measured.
-/
set_option autoImplicit false

namespace TrackLayout

open Binary64

/-! ## The first of the least -/

section FirstLeast

variable {ι : Type} {cost : ι → Float} {xs seen : List ι} {x y : ι} {s : Option ι × Float}

/-- No element costs less, and none before it costs as little. What cannot be compared is neither. -/
def FirstLeast (cost : ι → Float) (xs : List ι) (x : ι) : Prop :=
  ∃ before after, xs = before ++ x :: after ∧ (∀ y ∈ before, ¬cost y ≤ cost x) ∧
    ∀ y ∈ after, ¬cost y < cost x

theorem FirstLeast.mem (h : FirstLeast cost xs x) : x ∈ xs := by
  obtain ⟨before, after, rfl, -, -⟩ := h
  simp

theorem FirstLeast.not_lt (h : FirstLeast cost xs x) : ∀ y ∈ xs, ¬cost y < cost x := by
  obtain ⟨before, after, rfl, hBefore, hAfter⟩ := h
  rw [List.forall_mem_append, List.forall_mem_cons]
  refine ⟨?_, ?_, hAfter⟩
  · intro y hy hlt
    exact hBefore y hy (Binary64.le_of_lt hlt)
  · intro hlt
    exact (lt_iff.mp hlt).2.false

theorem FirstLeast.concat (h : FirstLeast cost xs x) (hy : ¬cost y < cost x) : FirstLeast cost (xs ++ [y]) x := by
  obtain ⟨before, after, rfl, hBefore, hAfter⟩ := h
  refine ⟨before, after ++ [y], by simp, hBefore, ?_⟩
  rw [List.forall_mem_append, List.forall_mem_singleton]
  exact ⟨hAfter, hy⟩

/-- The best so far with its cost, after a look at one more element. -/
def look (cost : ι → Float) (s : Option ι × Float) (x : ι) : Option ι × Float :=
  if cost x < s.2 then (some x, cost x) else s

theorem firstLeast?_eq (cost : ι → Float) (xs : List ι) :
    firstLeast? cost xs = (xs.foldl (look cost) (none, infinity)).1 := rfl

/-- What is known of the best so far and its cost. -/
structure Scanned (cost : ι → Float) (seen : List ι) (s : Option ι × Float) : Prop where
  least : ∀ y ∈ seen, ¬cost y < s.2
  absent : s.1 = none → s.2 = infinity
  present : ∀ x ∈ s.1, s.2 = cost x ∧ FirstLeast cost seen x

theorem Scanned.look (h : Scanned cost seen s) (x : ι) :
    Scanned cost (seen ++ [x]) (TrackLayout.look cost s x) := by
  rw [TrackLayout.look]
  split
  case isTrue hLess =>
    have hBefore : ∀ y ∈ seen, ¬cost y ≤ cost x := by
      intro y hy hLe
      exact h.least y hy (Binary64.lt_of_le_of_lt hLe hLess)
    have hFirst : FirstLeast cost (seen ++ [x]) x := ⟨seen, [], rfl, hBefore, by simp⟩
    constructor
    · exact hFirst.not_lt
    · rintro ⟨⟩
    · rintro y ⟨⟩
      exact ⟨rfl, hFirst⟩
  case isFalse hNotLess =>
    constructor
    · rw [List.forall_mem_append, List.forall_mem_singleton]
      exact ⟨h.least, hNotLess⟩
    · exact h.absent
    · intro y hy
      obtain ⟨hCost, hFirst⟩ := h.present y hy
      exact ⟨hCost, hFirst.concat (hCost ▸ hNotLess)⟩

theorem Scanned.foldl (h : Scanned cost seen s) (xs : List ι) :
    Scanned cost (seen ++ xs) (xs.foldl (TrackLayout.look cost) s) := by
  induction xs generalizing seen s with
  | nil => rwa [List.append_nil]
  | cons x rest ih =>
    rw [List.append_cons, List.foldl_cons]
    exact ih (h.look x)

/-- With the first element in place of none, the search finds the first of the least. -/
theorem firstLeast_getD (cost : ι → Float) (x : ι) (rest : List ι) :
    FirstLeast cost (x :: rest) ((firstLeast? cost (x :: rest)).getD x) := by
  have hStart : Scanned cost [] ((none : Option ι), infinity) := ⟨by simp, fun _ => rfl, by simp⟩
  have hScan := hStart.foldl (x :: rest)
  rw [List.nil_append] at hScan
  rw [firstLeast?_eq]
  cases hFound : ((x :: rest).foldl (look cost) (none, infinity)).1 with
  | some y => exact (hScan.present y hFound).2
  | none =>
    -- nothing is below infinity, so nothing is below anything
    have hInfinite := hScan.absent hFound
    refine ⟨[], rest, rfl, by simp, fun y hy hLess => ?_⟩
    have hUnbounded : Unbounded infinity := .inr rfl
    have hNumber : infinity.isNaN = false := rfl
    have hLe := Binary64.le_of_not_lt hNumber (lt_iff.mp hLess).1.2 (hUnbounded.not_lt (cost x))
    apply hScan.least y (List.mem_cons_of_mem x hy)
    rw [hInfinite]
    exact Binary64.lt_of_lt_of_le hLess hLe

end FirstLeast

/-! ## Proper boxes -/

/-- A rectangle with finite sides, none beyond the opposite one. -/
structure Rect.Proper (r : Rect) : Prop where
  finite : r.minX.isFinite = true ∧ r.minY.isFinite = true ∧ r.maxX.isFinite = true ∧ r.maxY.isFinite = true
  minX_le : r.minX ≤ r.maxX
  minY_le : r.minY ≤ r.maxY

instance (r : Rect) : Decidable r.Proper :=
  decidable_of_iff ((r.minX.isFinite = true ∧ r.minY.isFinite = true ∧ r.maxX.isFinite = true ∧
      r.maxY.isFinite = true) ∧ r.minX ≤ r.maxX ∧ r.minY ≤ r.maxY)
    ⟨fun ⟨a, b, c⟩ => ⟨a, b, c⟩, fun ⟨a, b, c⟩ => ⟨a, b, c⟩⟩

/-- What lies between two finite values in order is an amount. -/
theorem amount_sub {x y : Float} (hx : x.isFinite = true) (hy : y.isFinite = true) (hLe : x ≤ y) :
    Amount (y - x) := by
  obtain ⟨a, ha⟩ := exists_denotes hx
  obtain ⟨b, hb⟩ := exists_denotes hy
  apply (hb.sub ha).amount
  rw [sub_nonneg]
  exact (ha.le_iff hb).mp hLe

namespace Rect.Proper

variable {r : Rect}

theorem side (h : r.Proper) (side : BoxNode.Side) : (side.of r).isFinite = true := by
  obtain ⟨hMinX, hMinY, hMaxX, hMaxY⟩ := h.finite
  cases side <;> assumption

theorem side_isNaN (h : r.Proper) (side : BoxNode.Side) : (side.of r).isNaN = false := by
  obtain ⟨v, hv⟩ := exists_denotes (h.side side)
  exact hv.isNaN

theorem defined (h : r.Proper) : r.Defined where
  minX := h.side_isNaN .minX
  minY := h.side_isNaN .minY
  maxX := h.side_isNaN .maxX
  maxY := h.side_isNaN .maxY

theorem amount_perimeter (h : r.Proper) : Amount r.perimeter := by
  have hTwo : Denotes (2.0 : Float) ((2 : ℚ) : ℝ) := denotes_rational (by decide +kernel)
  obtain ⟨hMinX, hMinY, hMaxX, hMaxY⟩ := h.finite
  apply Amount.add
  · exact (amount_sub hMinX hMaxX h.minX_le).mul_left hTwo (by norm_num)
  · exact (amount_sub hMinY hMaxY h.minY_le).mul_left hTwo (by norm_num)

end Rect.Proper

namespace BoxNode

variable {α : Type} {children xs ys : List (BoxNode α)} {side : Side}

theorem proper_union (hNe : children ≠ []) (h : ∀ c ∈ children, c.box.Proper) : (union children).Proper := by
  have hSide (side : Side) : (side.of (union children)).isFinite = true := by
    obtain ⟨c, hc, hSide⟩ := exists_side_union side hNe
    rw [hSide]
    exact (h c hc).side side
  obtain ⟨c, hc⟩ := List.exists_mem_of_ne_nil children hNe
  have hWithin := within_union (fun c hc => (h c hc).defined) c hc
  constructor
  · exact ⟨hSide .minX, hSide .minY, hSide .maxX, hSide .maxY⟩
  · exact Binary64.le_trans hWithin.minX (Binary64.le_trans (h c hc).minX_le hWithin.maxX)
  · exact Binary64.le_trans hWithin.minY (Binary64.le_trans (h c hc).minY_le hWithin.maxY)

theorem amount_perimeterSum (h : ∀ c ∈ children, c.box.Proper) : Amount (perimeterSum children) := by
  apply Amount.sum
  rw [List.forall_mem_map]
  intro k hk
  obtain ⟨hStay, hMoved⟩ := parts_ne_nil hk
  apply Amount.add
  · exact (proper_union hStay fun c hc => h c (List.mem_of_mem_take hc)).amount_perimeter
  · exact (proper_union hMoved fun c hc => h c (List.mem_of_mem_drop hc)).amount_perimeter

/-! ## Orders along a side -/

theorem sortBySide_pairwise (side : Side) (h : ∀ c ∈ children, c.box.Proper) :
    (sortBySide side children).Pairwise fun a b => side.of a.box ≤ side.of b.box := by
  have hPlaces : (sortBySide side children).map (fun c => place (side.of c.box).toModel.unpack) =
      (children.map fun c => place (side.of c.box).toModel.unpack).mergeSort (fun a b => decide (a ≤ b)) := by
    apply List.map_mergeSort
    intro a ha b hb
    have haNumber := (h a ha).side_isNaN side
    have hbNumber := (h b hb).side_isNaN side
    rw [← decide_not, decide_eq_decide, lt_iff, ← not_lt]
    simp only [haNumber, hbNumber, true_and]
  have hSorted : ((sortBySide side children).map fun c => place (side.of c.box).toModel.unpack).Pairwise (· ≤ ·) := by
    rw [hPlaces]
    exact List.pairwise_mergeSort' (· ≤ ·) _
  rw [List.pairwise_map] at hSorted
  apply hSorted.imp_of_mem
  intro a b ha hb hLe
  have hPerm := sortBySide_perm side children
  have haNumber := (h a (hPerm.subset ha)).side_isNaN side
  have hbNumber := (h b (hPerm.subset hb)).side_isNaN side
  exact le_iff.mpr ⟨⟨haNumber, hbNumber⟩, hLe⟩

/-- Sorting what is sorted changes nothing. -/
theorem sortBySide_of_pairwise (h : children.Pairwise fun a b => side.of a.box ≤ side.of b.box) :
    sortBySide side children = children := by
  apply List.mergeSort_of_pairwise
  apply h.imp
  intro a b hLe
  rw [Bool.not_eq_true', decide_eq_false_iff_not]
  intro hLess
  exact (lt_iff.mp (Binary64.lt_of_le_of_lt hLe hLess)).2.false

/-- Whole numbers can be sorted in place of the sides that they stand for. -/
theorem sortBySide_map {ι : Type} {f : ι → BoxNode α} {is : List ι} (key : ι → Nat)
    (h : ∀ i ∈ is, ∀ j ∈ is, key i ≤ key j ↔ ¬side.of (f j).box < side.of (f i).box) :
    sortBySide side (is.map f) = (is.mergeSort fun i j => key i ≤ key j).map f := by
  refine (List.map_mergeSort ?_).symm
  intro i hi j hj
  rw [← decide_not, decide_eq_decide]
  exact h i hi j hj

/-- Children with different boxes are at different heights of a side. -/
def Apart (side : Side) (children : List (BoxNode α)) : Prop :=
  ∀ a ∈ children, ∀ b ∈ children, side.of a.box ≤ side.of b.box → side.of b.box ≤ side.of a.box → a.box = b.box

/-- Where children are apart, it does not matter in which order they are sorted. -/
theorem Apart.sortBySide_boxes (hApart : Apart side children) (h : ∀ c ∈ children, c.box.Proper)
    (hxs : xs.Perm children) (hys : ys.Perm children) :
    (sortBySide side xs).map box = (sortBySide side ys).map box := by
  have hSorted {zs : List (BoxNode α)} (hzs : zs.Perm children) :
      ((sortBySide side zs).map box).Pairwise fun r s => side.of r ≤ side.of s := by
    rw [List.pairwise_map]
    exact sortBySide_pairwise side fun c hc => h c (hzs.subset hc)
  have hMem {zs : List (BoxNode α)} (hzs : zs.Perm children) {r : Rect} (hr : r ∈ (sortBySide side zs).map box) :
      ∃ c ∈ children, c.box = r := by
    obtain ⟨c, hc, rfl⟩ := List.mem_map.mp hr
    exact ⟨c, hzs.subset ((sortBySide_perm side zs).subset hc), rfl⟩
  apply List.Perm.eq_of_pairwise ?_ (hSorted hxs) (hSorted hys)
  · apply List.Perm.map
    exact ((sortBySide_perm side xs).trans hxs).trans ((sortBySide_perm side ys).trans hys).symm
  · intro r s hr hs hLe hGe
    obtain ⟨a, ha, rfl⟩ := hMem hxs hr
    obtain ⟨b, hb, rfl⟩ := hMem hys hs
    exact hApart a ha b hb hLe hGe

/-- Only boxes are measured. -/
theorem perimeterSum_eq_of_boxes (h : xs.map box = ys.map box) : perimeterSum xs = perimeterSum ys := by
  have hBare (zs : List (BoxNode α)) :
      perimeterSum zs = perimeterSum ((zs.map box).map fun r => BoxNode.leaf r ()) := by
    have hSame := perimeterSum_congr (f := id) (g := fun n : BoxNode α => .leaf n.box ()) (fun _ => rfl) zs
    rw [List.map_id] at hSame
    rw [hSame, List.map_map]
    rfl
  rw [hBare xs, hBare ys, h]

theorem exists_sorted_of_mem_orders {sides : List Side} {o : Side × List (BoxNode α)}
    (ho : o ∈ orders children sides) : ∃ xs, xs.Perm children ∧ o.2 = sortBySide o.1 xs := by
  induction sides generalizing children with
  | nil => cases ho
  | cons side rest ih =>
    rw [orders, List.mem_cons] at ho
    obtain rfl | ho := ho
    · exact ⟨children, .refl _, rfl⟩
    · obtain ⟨xs, hxs, hSorted⟩ := ih ho
      exact ⟨xs, hxs.trans (sortBySide_perm side children), hSorted⟩

/-! ## Splits -/

/-- What a split of a branch comes to, with the order that was the best one when it was measured and the
last one that was. -/
structure LeastCut (children stay moved : List (BoxNode α)) (best : Side × List (BoxNode α))
    (last : List (BoxNode α)) : Prop where
  perm : (stay ++ moved).Perm children
  /-- The side is the first one whose sum of perimeters was least. -/
  first : FirstLeast (fun o => perimeterSum o.2) (orders children Side.all) best
  least : ∀ o ∈ orders children Side.all, perimeterSum best.2 ≤ perimeterSum o.2
  /-- The last order is sorted once more, and the result is cut. -/
  getLast? : (orders children Side.all).getLast? = some (.maxY, last)
  order : stay ++ moved = sortBySide best.1 last
  /-- The order that is cut has the same sum as the best one that was measured, provided that this was the
  last one or that no different boxes are level. -/
  sum : best.1 = .maxY ∨ Apart best.1 children → perimeterSum (stay ++ moved) = perimeterSum best.2
  /-- The cut is the first one whose overlap is least. -/
  cut : FirstLeast (cutOverlap (stay ++ moved)) [8, 9, 10, 11, 12] stay.length

theorem exists_orders_all (children : List (BoxNode α)) : ∃ a b c : List (BoxNode α), c.Perm children ∧
    orders children Side.all = [(.minX, sortBySide .minX children), (.maxX, a), (.minY, b),
      (.maxY, sortBySide .maxY c)] := by
  refine ⟨_, _, _, ?_, rfl⟩
  have hMaxX := (sortBySide_perm .maxX (sortBySide .minX children)).trans (sortBySide_perm .minX children)
  exact (sortBySide_perm .minY _).trans hMaxX

theorem exists_firstLeast_bestSide {ordered : List (Side × List (BoxNode α))} {o : Side × List (BoxNode α)}
    (ho : o.1 = .minX) : ∃ best, FirstLeast (fun o => perimeterSum o.2) (o :: ordered) best ∧
      bestSide (o :: ordered) = best.1 := by
  have hBest := firstLeast_getD (fun o => perimeterSum o.2) o ordered
  rw [bestSide]
  generalize firstLeast? (fun o => perimeterSum o.2) (o :: ordered) = found at hBest ⊢
  cases found with
  | none => exact ⟨o, hBest, ho.symm⟩
  | some best => exact ⟨best, hBest, rfl⟩

theorem cuts_eq (h : children.length = capacity + 1) : cuts children = [8, 9, 10, 11, 12] := by
  rw [cuts, h]
  rfl

theorem firstLeast_bestCut (h : children.length = capacity + 1) :
    FirstLeast (cutOverlap children) [8, 9, 10, 11, 12] (bestCut children) := by
  rw [bestCut, cuts_eq h]
  exact firstLeast_getD (cutOverlap children) 8 [9, 10, 11, 12]

theorem leastCut_split (hLength : children.length = capacity + 1) (h : ∀ c ∈ children, c.box.Proper) :
    ∃ best last, LeastCut children (split children).1 (split children).2 best last := by
  obtain ⟨a, b, c, hc, hOrders⟩ := exists_orders_all children
  obtain ⟨best, hBest, hSide⟩ := exists_firstLeast_bestSide (o := (.minX, sortBySide .minX children)) rfl
  rw [← hOrders] at hBest hSide
  have hProper {xs : List (BoxNode α)} (hxs : xs.Perm children) : ∀ c ∈ xs, c.box.Proper :=
    fun c hc => h c (hxs.subset hc)
  have hOrder : cutOrder children = sortBySide best.1 (sortBySide .maxY c) := by
    rw [cutOrder, hSide, hOrders]
    rfl
  have hParts : (split children).1 ++ (split children).2 = cutOrder children := by
    rw [split, List.splitAt_eq, List.take_append_drop]
  refine ⟨best, sortBySide .maxY c, ?_⟩
  constructor
  case perm => exact split_perm children
  case first => exact hBest
  case least =>
    have hPerm := orders_perm Side.all children
    intro o ho
    apply Binary64.le_of_not_lt
    · exact (amount_perimeterSum (hProper (hPerm o ho))).isNaN
    · exact (amount_perimeterSum (hProper (hPerm best hBest.mem))).isNaN
    · exact hBest.not_lt o ho
  case getLast? =>
    rw [hOrders]
    rfl
  case order => rw [hParts, hOrder]
  case sum =>
    rw [hParts, hOrder]
    rintro (hLast | hApart)
    · have hMem := hBest.mem
      rw [hOrders] at hMem
      obtain rfl : best = (.maxY, sortBySide .maxY c) := by
        simp only [List.mem_cons, List.not_mem_nil, or_false] at hMem
        rcases hMem with rfl | rfl | rfl | rfl <;> first
          | rfl
          | cases hLast
      rw [sortBySide_of_pairwise (sortBySide_pairwise .maxY (hProper hc))]
    · obtain ⟨xs, hxs, hMeasured⟩ := exists_sorted_of_mem_orders hBest.mem
      rw [hMeasured]
      exact perimeterSum_eq_of_boxes (hApart.sortBySide_boxes h ((sortBySide_perm .maxY c).trans hc) hxs)
  case cut =>
    have hLength : (cutOrder children).length = capacity + 1 := by
      rw [(cutOrder_perm children).length_eq, hLength]
    have hCut := firstLeast_bestCut hLength
    have hBounds := mem_cuts (cuts_eq hLength ▸ hCut.mem)
    have hStay : (split children).1.length = bestCut (cutOrder children) := by
      rw [split, List.splitAt_eq, List.length_take]
      omega
    rw [hParts, hStay]
    exact hCut

end BoxNode

/-! ## Splits in an array -/

namespace BoxArena

open BoxNode (capacity LeastCut Side orders perimeterSum cutOrder sortBySide bestSide
  sortBySide_of_pairwise sortBySide_map)

variable {nodes : Array BoxEntry} {places : List Nat}

theorem exists_marked? (h : ∀ i ∈ places, ∃ e ∈ nodes[i]?, e.box.Proper) :
    ∃ leaves, marked? nodes places = some leaves ∧ leaves.length = places.length ∧ unmarked leaves = places ∧
      ∀ n ∈ leaves, n.box.Proper := by
  induction places with
  | nil => exact ⟨[], rfl, rfl, rfl, by simp⟩
  | cons i rest ih =>
    rw [List.forall_mem_cons] at h
    obtain ⟨⟨e, hEntry, hProper⟩, hRest⟩ := h
    obtain ⟨leaves, hMarked, hLength, hUnmarked, hLeaves⟩ := ih hRest
    refine ⟨.leaf e.box i :: leaves, ?_, ?_, ?_, ?_⟩
    · unfold marked? at hMarked ⊢
      rw [List.mapM_cons, hMarked, Option.mem_def.mp hEntry]
      rfl
    · rw [List.length_cons, List.length_cons, hLength]
    · change i :: unmarked leaves = i :: rest
      rw [hUnmarked]
    · exact List.forall_mem_cons.mpr ⟨hProper, hLeaves⟩

/-- A branch with one child too many is split into two parts that have all its children. They are the
least cut of the order along the side that was measured least, sorted from the last order measured. -/
theorem split?_leastCut (hLength : places.length = capacity + 1)
    (hBoxes : ∀ i ∈ places, ∃ e ∈ nodes[i]?, e.box.Proper) :
    ∃ leaves stay moved best last, marked? nodes places = some leaves ∧
      LeastCut leaves stay moved best last ∧
      split? nodes places = some (unmarked stay, unmarked moved) ∧
      (unmarked stay ++ unmarked moved).Perm places := by
  obtain ⟨leaves, hMarked, hLeaves, hUnmarked, hProper⟩ := exists_marked? hBoxes
  obtain ⟨best, last, hCut⟩ := BoxNode.leastCut_split (hLeaves.trans hLength) hProper
  refine ⟨leaves, _, _, best, last, hMarked, hCut, ?_, ?_⟩
  · have hCuts := @BoxNode.parts_ne_nil _ leaves
    simp only [split?, hMarked, guard, if_pos hLength, Option.pure_def, Option.bind_eq_bind,
      Option.bind_some, if_pos fun k hk => hCuts hk]
  · rw [unmarked, unmarked, ← List.filterMap_append, ← hUnmarked]
    exact hCut.perm.filterMap _

/-- Ten squares in a column, the topmost first, and a row of others to the right of it. -/
def terrace (k : Nat) : Rect :=
  let x := (100 * (k / 10)).toFloat
  let y := (10 * (9 - k)).toFloat
  ⟨x, y, x + 1.0, y + 1.0⟩

def terraceNodes : Array BoxEntry := ((List.range 21).map fun k => .leaf (terrace k) k).toArray

theorem split?_leastCut_terrace :
    (List.range 21).length = capacity + 1 ∧ (∀ i ∈ List.range 21, ∃ e ∈ terraceNodes[i]?, e.box.Proper) ∧
    ∃ leaves stay moved best last, marked? terraceNodes (List.range 21) = some leaves ∧
      LeastCut leaves stay moved best last ∧
      split? terraceNodes (List.range 21) = some (unmarked stay, unmarked moved) ∧
      (unmarked stay ++ unmarked moved).Perm (List.range 21) := by
  have hLength : (List.range 21).length = capacity + 1 := rfl
  have hBoxes : ∀ i ∈ List.range 21, ∃ e ∈ terraceNodes[i]?, e.box.Proper := by decide +kernel
  exact ⟨hLength, hBoxes, split?_leastCut hLength hBoxes⟩

/-- The places of the terrace, sorted by the lower edges of the squares. -/
def terraceByMinY : List Nat := [9, 10, 11, 12, 13, 14, 15, 16, 17, 18, 19, 20, 8, 7, 6, 5, 4, 3, 2, 1, 0]

def terraceCutOrder : List Nat := [9, 8, 7, 6, 5, 4, 3, 2, 1, 0, 10, 11, 12, 13, 14, 15, 16, 17, 18, 19, 20]

def terraceLeaf (k : Nat) : BoxNode Nat := .leaf (terrace k) k

theorem sortBySide_minY_terrace :
    sortBySide .minY ((List.range 21).map terraceLeaf) = terraceByMinY.map terraceLeaf := by
  have hHeights : ∀ a < 10, ∀ b < 10, a ≤ b ↔ ¬(10 * b).toFloat < (10 * a).toFloat := by decide +kernel
  rw [sortBySide_map fun k => 9 - k]
  · congr 1
    cbv
  · intro i _ j _
    exact hHeights (9 - i) (by omega) (9 - j) (by omega)

theorem sortBySide_minX_terrace :
    sortBySide .minX (terraceByMinY.map terraceLeaf) = terraceCutOrder.map terraceLeaf := by
  have hColumns : ∀ a < 3, ∀ b < 3, a ≤ b ↔ ¬(100 * b).toFloat < (100 * a).toFloat := by decide +kernel
  have hBound : ∀ i ∈ terraceByMinY, i / 10 < 3 := by decide
  rw [sortBySide_map fun k => k / 10]
  · congr 1
    cbv
  · intro i hi j hj
    exact hColumns (i / 10) (hBound i hi) (j / 10) (hBound j hj)

theorem orders_terrace : orders ((List.range 21).map terraceLeaf) Side.all =
    [(.minX, (List.range 21).map terraceLeaf), (.maxX, (List.range 21).map terraceLeaf),
      (.minY, terraceByMinY.map terraceLeaf), (.maxY, terraceByMinY.map terraceLeaf)] := by
  have hMinX : sortBySide .minX ((List.range 21).map terraceLeaf) = (List.range 21).map terraceLeaf :=
    sortBySide_of_pairwise (by decide +kernel)
  have hMaxX : sortBySide .maxX ((List.range 21).map terraceLeaf) = (List.range 21).map terraceLeaf :=
    sortBySide_of_pairwise (by decide +kernel)
  have hMaxY : sortBySide .maxY (terraceByMinY.map terraceLeaf) = terraceByMinY.map terraceLeaf :=
    sortBySide_of_pairwise (by decide +kernel)
  simp only [Side.all, orders, hMinX, hMaxX, sortBySide_minY_terrace, hMaxY]

theorem cutOrder_terrace :
    cutOrder ((List.range 21).map terraceLeaf) = terraceCutOrder.map terraceLeaf := by
  have hSide : bestSide (orders ((List.range 21).map terraceLeaf) Side.all) = .minX := by
    rw [orders_terrace]
    decide +kernel
  rw [cutOrder, hSide, orders_terrace]
  exact sortBySide_minX_terrace

/-- The order that is cut need not have the least sum of perimeters that was measured. The squares of the
column are level on the side that was taken; they were measured from the top down and are cut from the
bottom up. -/
theorem exists_perimeterSum_lt_cutOrder :
    ∃ leaves, marked? terraceNodes (List.range 21) = some leaves ∧ leaves.length = capacity + 1 ∧
      (∀ n ∈ leaves, n.box.Proper) ∧
      ∃ o ∈ orders leaves Side.all, perimeterSum o.2 < perimeterSum (cutOrder leaves) := by
  refine ⟨(List.range 21).map terraceLeaf, rfl, rfl, by decide +kernel, ?_⟩
  rw [orders_terrace, cutOrder_terrace]
  refine ⟨_, List.mem_cons_self, ?_⟩
  decide +kernel

end BoxArena

end TrackLayout
