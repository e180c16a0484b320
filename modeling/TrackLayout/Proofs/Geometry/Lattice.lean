import TrackLayout.Proofs.Geometry.Containment

/-!
# Rectangles as sets of points

Rectangles whose corners are in order are told by their points, but for the
sign of a zero. What two of them have in common is their intersection, and
they have a point in common whenever no side of one lies beyond the opposite
side of the other, be it only an edge or a corner. Their union is the least
rectangle around both, and the bounds of a list of points are the least one
around all of them. Sides may be infinite throughout.
-/
set_option autoImplicit false

namespace TrackLayout.Rect

open Binary64 (minimum maximum)

variable {a b c r s : Rect} {p : Point}

/-- No side is undefined or lies beyond the opposite one. -/
structure Upright (r : Rect) : Prop where
  x : r.minX ≤ r.maxX
  y : r.minY ≤ r.maxY

theorem Upright.defined (h : r.Upright) : r.Defined := by
  obtain ⟨⟨hMinX, hMaxX⟩, -⟩ := Binary64.le_iff.mp h.x
  obtain ⟨⟨hMinY, hMaxY⟩, -⟩ := Binary64.le_iff.mp h.y
  exact ⟨hMinX, hMinY, hMaxX, hMaxY⟩

/-- Every point of one rectangle is a point of the other. -/
def Subset (r s : Rect) : Prop := ∀ p, r.contains p = true → s.contains p = true

/-- The same rectangle, whichever zero a side is. -/
structure Equals (r s : Rect) : Prop where
  minX : (r.minX == s.minX) = true
  minY : (r.minY == s.minY) = true
  maxX : (r.maxX == s.maxX) = true
  maxY : (r.maxY == s.maxY) = true

theorem contains_iff : r.contains p = true ↔ (r.minX ≤ p.x ∧ p.x ≤ r.maxX) ∧ r.minY ≤ p.y ∧ p.y ≤ r.maxY := by
  simp only [contains, Bool.and_eq_true, decide_eq_true_eq, and_assoc]

theorem upright_of_contains (h : r.contains p = true) : r.Upright := by
  obtain ⟨⟨hLeft, hRight⟩, hBelow, hAbove⟩ := contains_iff.mp h
  exact ⟨Binary64.le_trans hLeft hRight, Binary64.le_trans hBelow hAbove⟩

theorem Upright.contains_least (h : r.Upright) : r.contains ⟨r.minX, r.minY⟩ = true :=
  contains_iff.mpr ⟨⟨Binary64.le_refl h.defined.minX, h.x⟩, Binary64.le_refl h.defined.minY, h.y⟩

theorem Upright.contains_greatest (h : r.Upright) : r.contains ⟨r.maxX, r.maxY⟩ = true :=
  contains_iff.mpr ⟨⟨h.x, Binary64.le_refl h.defined.maxX⟩, h.y, Binary64.le_refl h.defined.maxY⟩

/-! ## Rectangles within rectangles -/

theorem Within.contains (h : r.Within s) (hp : r.contains p = true) : s.contains p = true := by
  obtain ⟨⟨hLeft, hRight⟩, hBelow, hAbove⟩ := contains_iff.mp hp
  exact contains_iff.mpr ⟨⟨Binary64.le_trans h.minX hLeft, Binary64.le_trans hRight h.maxX⟩,
    Binary64.le_trans h.minY hBelow, Binary64.le_trans hAbove h.maxY⟩

theorem Within.equals (h : r.Within s) (h' : s.Within r) : r.Equals s where
  minX := Binary64.beq_iff.mpr ⟨h'.minX, h.minX⟩
  minY := Binary64.beq_iff.mpr ⟨h'.minY, h.minY⟩
  maxX := Binary64.beq_iff.mpr ⟨h.maxX, h'.maxX⟩
  maxY := Binary64.beq_iff.mpr ⟨h.maxY, h'.maxY⟩

/-- Two opposite corners tell a rectangle. -/
theorem Upright.subset_iff (h : r.Upright) : r.Subset s ↔ r.Within s := by
  constructor
  · intro hSubset
    obtain ⟨⟨hMinX, -⟩, hMinY, -⟩ := contains_iff.mp (hSubset _ h.contains_least)
    obtain ⟨⟨-, hMaxX⟩, -, hMaxY⟩ := contains_iff.mp (hSubset _ h.contains_greatest)
    exact ⟨hMinX, hMinY, hMaxX, hMaxY⟩
  · intro hWithin p hp
    exact hWithin.contains hp

/-! ## Intersections -/

theorem intersects_iff (ha : a.Defined) (hb : b.Defined) : a.intersects b = true ↔
    (b.minX ≤ a.maxX ∧ a.minX ≤ b.maxX) ∧ b.minY ≤ a.maxY ∧ a.minY ≤ b.maxY := by
  simp only [intersects, Bool.not_eq_true', Bool.or_eq_false_iff, decide_eq_false_iff_not,
    Binary64.not_lt_iff ha.maxX hb.minX, Binary64.not_lt_iff hb.maxX ha.minX, Binary64.not_lt_iff ha.maxY hb.minY,
    Binary64.not_lt_iff hb.maxY ha.minY, and_assoc]

/-- The greater of the least sides and the lesser of the greatest ones. -/
def overlap (a b : Rect) : Rect :=
  ⟨maximum a.minX b.minX, maximum a.minY b.minY, minimum a.maxX b.maxX, minimum a.maxY b.maxY⟩

theorem intersection?_eq (a b : Rect) : a.intersection? b = if a.intersects b then some (a.overlap b) else none :=
  rfl

theorem contains_overlap_iff (ha : a.Defined) (hb : b.Defined) :
    (a.overlap b).contains p = true ↔ a.contains p = true ∧ b.contains p = true := by
  rw [contains_iff, contains_iff, contains_iff, overlap, Binary64.maximum_le_iff ha.minX hb.minX,
    Binary64.maximum_le_iff ha.minY hb.minY, Binary64.le_minimum_iff ha.maxX hb.maxX,
    Binary64.le_minimum_iff ha.maxY hb.maxY]
  constructor
  · rintro ⟨⟨⟨hLeft, hLeft'⟩, hRight, hRight'⟩, ⟨hBelow, hBelow'⟩, hAbove, hAbove'⟩
    exact ⟨⟨⟨hLeft, hRight⟩, hBelow, hAbove⟩, ⟨hLeft', hRight'⟩, hBelow', hAbove'⟩
  · rintro ⟨⟨⟨hLeft, hRight⟩, hBelow, hAbove⟩, ⟨hLeft', hRight'⟩, hBelow', hAbove'⟩
    exact ⟨⟨⟨hLeft, hLeft'⟩, hRight, hRight'⟩, ⟨hBelow, hBelow'⟩, hAbove, hAbove'⟩

theorem upright_overlap (ha : a.Upright) (hb : b.Upright) (h : a.intersects b = true) : (a.overlap b).Upright := by
  have ha' := ha.defined
  have hb' := hb.defined
  obtain ⟨⟨hLeft, hRight⟩, hBelow, hAbove⟩ := (intersects_iff ha' hb').mp h
  constructor
  · apply (Binary64.maximum_le_minimum_iff ha'.minX hb'.minX ha'.maxX hb'.maxX).mpr
    exact ⟨⟨ha.x, hRight⟩, hLeft, hb.x⟩
  · apply (Binary64.maximum_le_minimum_iff ha'.minY hb'.minY ha'.maxY hb'.maxY).mpr
    exact ⟨⟨ha.y, hAbove⟩, hBelow, hb.y⟩

theorem intersects_iff_common_point (ha : a.Upright) (hb : b.Upright) :
    a.intersects b = true ↔ ∃ p, a.contains p = true ∧ b.contains p = true := by
  constructor
  · intro h
    exact ⟨_, (contains_overlap_iff ha.defined hb.defined).mp (upright_overlap ha hb h).contains_least⟩
  · rintro ⟨p, ha', hb'⟩
    obtain ⟨⟨hLeft, hRight⟩, hBelow, hAbove⟩ := contains_iff.mp ha'
    obtain ⟨⟨hLeft', hRight'⟩, hBelow', hAbove'⟩ := contains_iff.mp hb'
    apply (intersects_iff ha.defined hb.defined).mpr
    exact ⟨⟨Binary64.le_trans hLeft' hRight, Binary64.le_trans hLeft hRight'⟩, Binary64.le_trans hBelow' hAbove,
      Binary64.le_trans hBelow hAbove'⟩

/-! ## Unions and bounds -/

theorem union_within_iff (ha : a.Defined) (hb : b.Defined) : (a.union b).Within c ↔ a.Within c ∧ b.Within c := by
  constructor
  · intro h
    exact ⟨(within_union_left ha hb).trans h, (within_union_right ha hb).trans h⟩
  · rintro ⟨h, h'⟩
    exact ⟨(Binary64.le_minimum_iff ha.minX hb.minX).mpr ⟨h.minX, h'.minX⟩,
      (Binary64.le_minimum_iff ha.minY hb.minY).mpr ⟨h.minY, h'.minY⟩,
      (Binary64.maximum_le_iff ha.maxX hb.maxX).mpr ⟨h.maxX, h'.maxX⟩,
      (Binary64.maximum_le_iff ha.maxY hb.maxY).mpr ⟨h.maxY, h'.maxY⟩⟩

theorem upright_union (ha : a.Upright) (hb : b.Defined) : (a.union b).Upright :=
  upright_of_contains ((within_union_left ha.defined hb).contains ha.contains_least)

theorem spanning_within_iff (hp : p.x.isNaN = false ∧ p.y.isNaN = false) :
    (spanning p p).Within c ↔ c.contains p = true := by
  have hX := Binary64.le_minimum_iff (c := c.minX) hp.1 hp.1
  have hY := Binary64.le_minimum_iff (c := c.minY) hp.2 hp.2
  have hX' := Binary64.maximum_le_iff (c := c.maxX) hp.1 hp.1
  have hY' := Binary64.maximum_le_iff (c := c.maxY) hp.2 hp.2
  rw [and_self_iff] at hX hY hX' hY'
  rw [contains_iff]
  constructor
  · intro h
    exact ⟨⟨hX.mp h.minX, hX'.mp h.maxX⟩, hY.mp h.minY, hY'.mp h.maxY⟩
  · rintro ⟨⟨hLeft, hRight⟩, hBelow, hAbove⟩
    exact ⟨hX.mpr hLeft, hY.mpr hBelow, hX'.mpr hRight, hY'.mpr hAbove⟩

variable {points : List Point}

/-- Each point makes the rectangle no larger than it has to be. -/
theorem foldl_within_iff (hr : r.Defined) (hPoints : ∀ p ∈ points, p.x.isNaN = false ∧ p.y.isNaN = false) :
    (points.foldl (fun r q => r.union (spanning q q)) r).Defined ∧
    ∀ c : Rect, (points.foldl (fun r q => r.union (spanning q q)) r).Within c ↔
      r.Within c ∧ ∀ p ∈ points, c.contains p = true := by
  induction points generalizing r with
  | nil => exact ⟨hr, fun c => by simp⟩
  | cons p rest ih =>
    obtain ⟨hp, hRest⟩ := List.forall_mem_cons.mp hPoints
    have hSpan := Defined.spanning hp hp
    obtain ⟨hDefined, hIff⟩ := ih (hr.union hSpan) hRest
    refine ⟨hDefined, fun c => ?_⟩
    rw [List.foldl_cons, hIff, union_within_iff hr hSpan, spanning_within_iff hp, List.forall_mem_cons, and_assoc]

/-- The bounds lie within a rectangle exactly if all points do. -/
theorem exists_bounds? (hNe : points ≠ []) (hPoints : ∀ p ∈ points, p.x.isNaN = false ∧ p.y.isNaN = false) :
    ∃ r, bounds? points = .ok r ∧ r.Upright ∧ ∀ c : Rect, r.Within c ↔ ∀ p ∈ points, c.contains p = true := by
  obtain ⟨p, rest, rfl⟩ := List.exists_cons_of_ne_nil hNe
  obtain ⟨hp, hRest⟩ := List.forall_mem_cons.mp hPoints
  obtain ⟨hDefined, hIff⟩ := foldl_within_iff (Defined.spanning hp hp) hRest
  have hLeast (c : Rect) : (rest.foldl (fun r q => r.union (spanning q q)) (spanning p p)).Within c ↔
      ∀ q ∈ p :: rest, c.contains q = true := by
    rw [hIff, spanning_within_iff hp, List.forall_mem_cons]
  have hFirst := (hLeast _).mp (.refl hDefined) p List.mem_cons_self
  exact ⟨_, rfl, upright_of_contains hFirst, hLeast⟩

/-- Upright rectangles meet exactly if their intersection exists, which is if they have a point in common, and the
intersection then has just these points. The union is the least rectangle around both, and the bounds of points
are the least one around all of them in whatever order they come. -/
theorem lattice_of_upright (ha : a.Upright) (hb : b.Upright) (hNe : points ≠ [])
    (hPoints : ∀ p ∈ points, p.x.isNaN = false ∧ p.y.isNaN = false) :
    (a.intersects b = true ↔ (a.intersection? b).isSome = true) ∧
    (a.intersects b = true ↔ ∃ p, a.contains p = true ∧ b.contains p = true) ∧
    (∀ r, a.intersection? b = some r →
      r.Upright ∧ ∀ p, r.contains p = true ↔ a.contains p = true ∧ b.contains p = true) ∧
    (a.union b).Upright ∧ a.Subset (a.union b) ∧ b.Subset (a.union b) ∧
    (∀ c : Rect, a.Subset c → b.Subset c → (a.union b).Subset c) ∧
    ∃ r, bounds? points = .ok r ∧ r.Upright ∧ (∀ p ∈ points, r.contains p = true) ∧
      (∀ c : Rect, (∀ p ∈ points, c.contains p = true) → r.Subset c) ∧
      ∀ others, others.Perm points → ∃ s, bounds? others = .ok s ∧ r.Equals s := by
  have hUnion := upright_union ha hb.defined
  refine ⟨?_, intersects_iff_common_point ha hb, fun r hr => ?_, hUnion, ?_, ?_, fun c hac hbc => ?_, ?_⟩
  · rw [intersection?_eq]
    split
    · next h => simp [h]
    · next h => simp [h]
  · rw [intersection?_eq, Option.ite_none_right_eq_some] at hr
    obtain ⟨hMeets, hOverlap⟩ := hr
    cases hOverlap
    exact ⟨upright_overlap ha hb hMeets, fun p => contains_overlap_iff ha.defined hb.defined⟩
  · exact ha.subset_iff.mpr (within_union_left ha.defined hb.defined)
  · exact hb.subset_iff.mpr (within_union_right ha.defined hb.defined)
  · rw [hUnion.subset_iff, union_within_iff ha.defined hb.defined]
    exact ⟨ha.subset_iff.mp hac, hb.subset_iff.mp hbc⟩
  · obtain ⟨r, hBounds, hUpright, hLeast⟩ := exists_bounds? hNe hPoints
    have hAll := (hLeast r).mp (.refl hUpright.defined)
    refine ⟨r, hBounds, hUpright, hAll, fun c hc => hUpright.subset_iff.mpr ((hLeast c).mpr hc), ?_⟩
    intro others hPerm
    have hNe' : others ≠ [] := fun hNil => hNe (hNil ▸ hPerm).symm.eq_nil
    obtain ⟨s, hBounds', hUpright', hLeast'⟩ := exists_bounds? hNe' fun p hp => hPoints p (hPerm.mem_iff.mp hp)
    have hAll' := (hLeast' s).mp (.refl hUpright'.defined)
    refine ⟨s, hBounds', Within.equals ?_ ?_⟩
    · exact (hLeast s).mpr fun p hp => hAll' p (hPerm.mem_iff.mpr hp)
    · exact (hLeast' r).mpr fun p hp => hAll p (hPerm.mem_iff.mp hp)

/-- Everything left of the axis. -/
def leftHalf : Rect := ⟨-Binary64.infinity, -Binary64.infinity, 0.0, Binary64.infinity⟩

/-- Everything right of the axis and not below one, which has the edge of the left half in common with it. -/
def upperRight : Rect := ⟨-0.0, 1.0, Binary64.infinity, Binary64.infinity⟩

/-- Which zero is a side of the bounds depends on the order of the points. -/
theorem lattice_of_upright_edge : leftHalf.Upright ∧ upperRight.Upright ∧
    (∃ p, leftHalf.contains p = true ∧ upperRight.contains p = true) ∧
    leftHalf.Subset (leftHalf.union upperRight) ∧
    ∃ r s, bounds? [⟨0.0, 1.0⟩, ⟨-0.0, Binary64.infinity⟩] = .ok r ∧
      bounds? [⟨-0.0, Binary64.infinity⟩, ⟨0.0, 1.0⟩] = .ok s ∧ r.Equals s ∧ r ≠ s := by
  have ha : leftHalf.Upright := by constructor <;> rfl
  have hb : upperRight.Upright := by constructor <;> rfl
  have hPoints : ∀ p ∈ [(⟨0.0, 1.0⟩ : Point), ⟨-0.0, Binary64.infinity⟩], p.x.isNaN = false ∧ p.y.isNaN = false := by
    decide +kernel
  obtain ⟨-, hCommon, -, -, hLeft, -, -, r, hr, -, -, -, hOthers⟩ :=
    lattice_of_upright ha hb (List.cons_ne_nil _ _) hPoints
  obtain ⟨s, hs, hEquals⟩ := hOthers [⟨-0.0, Binary64.infinity⟩, ⟨0.0, 1.0⟩] (.swap ..)
  refine ⟨ha, hb, hCommon.mp rfl, hLeft, r, s, hr, hs, hEquals, ?_⟩
  rintro rfl
  exact absurd (hr.trans hs.symm) (by decide +kernel)

end TrackLayout.Rect
