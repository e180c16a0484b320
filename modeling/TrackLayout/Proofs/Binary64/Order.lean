import Mathlib.Data.Prod.Lex
import Mathlib.Order.Compare
import TrackLayout.Binary64

/-!
# The order of values

Apart from the value that is not a number, every `Float` has a place on a line:
the sides of zero first, then exponents, then mantissas. `<` and `≤` compare
places and fail beside a value that is not a number, so they chain as in any
linear order. Zeros of different sign share a place.
-/
set_option autoImplicit false

namespace TrackLayout.Binary64

open Float.Model

def place : UnpackedFloat → Int ×ₗ Int ×ₗ Int
  | .infinity .negative => toLex (-2, toLex (0, 0))
  | .finite .negative m e _ => toLex (-1, toLex (-e, -m))
  | .zero _ | .notANumber => toLex (0, toLex (0, 0))
  | .finite .positive m e _ => toLex (1, toLex (e, m))
  | .infinity .positive => toLex (2, toLex (0, 0))

theorem compare_natCast (m n : Nat) : compare (m : Int) n = compare m n := by
  simp only [compare, compareOfLessAndEq, Int.ofNat_lt, Int.ofNat_inj]

theorem compare_neg (a b : Int) : compare (-a) (-b) = (compare a b).swap := by
  rw [← Std.OrientedOrd.eq_swap]
  simp only [compare, compareOfLessAndEq, Int.neg_lt_neg_iff, Int.neg_inj, eq_comm]

theorem compare_eq_place {a b : UnpackedFloat} (ha : a.isNaN = false) (hb : b.isNaN = false) :
    a.compare b = some (compare (place a) (place b)) := by
  rcases a with ⟨_ | _⟩ | _ | _ | ⟨_ | _, m, e, _⟩ <;>
    rcases b with ⟨_ | _⟩ | _ | _ | ⟨_ | _, n, f, _⟩ <;>
    first
      | cases ha; done
      | cases hb; done
      | rfl
      | skip
  -- only two finite values of one sign are left
  · change some _ = some ((compare (-e) (-f)).then (compare (-(m : Int)) (-n)))
    rw [compare_neg, compare_neg, compare_natCast, Ordering.swap_then]
  · change some _ = some ((compare e f).then (compare (m : Int) n))
    rw [compare_natCast]

theorem compare_eq_none {a b : UnpackedFloat} (h : ¬(a.isNaN = false ∧ b.isNaN = false)) :
    a.compare b = none := by
  cases a with
  | notANumber => rfl
  | _ =>
    cases b with
    | notANumber => rfl
    | _ => exact absurd ⟨rfl, rfl⟩ h

theorem lt_iff {x y : Float} : x < y ↔ (x.isNaN = false ∧ y.isNaN = false) ∧
    place x.toModel.unpack < place y.toModel.unpack := by
  change decide (UnpackedFloat.lt _ _ = true) = true ↔
    (UnpackedFloat.isNaN _ = false ∧ UnpackedFloat.isNaN _ = false) ∧ _
  rw [decide_eq_true_iff, UnpackedFloat.lt]
  by_cases h : x.toModel.unpack.isNaN = false ∧ y.toModel.unpack.isNaN = false
  · rw [compare_eq_place h.1 h.2, ← compare_lt_iff_lt]
    simp [h]
  · simp [compare_eq_none h, h]

theorem le_iff {x y : Float} : x ≤ y ↔ (x.isNaN = false ∧ y.isNaN = false) ∧
    place x.toModel.unpack ≤ place y.toModel.unpack := by
  change decide (UnpackedFloat.le _ _ = true) = true ↔
    (UnpackedFloat.isNaN _ = false ∧ UnpackedFloat.isNaN _ = false) ∧ _
  rw [decide_eq_true_iff, UnpackedFloat.le]
  by_cases h : x.toModel.unpack.isNaN = false ∧ y.toModel.unpack.isNaN = false
  · rw [compare_eq_place h.1 h.2, ← compare_le_iff_le]
    simp [h, Ordering.isLE_iff_ne_gt]
  · simp [compare_eq_none h, h]

theorem beq_iff {x y : Float} : (x == y) = true ↔ x ≤ y ∧ y ≤ x := by
  rw [le_iff, le_iff]
  change (x.toModel.unpack.compare y.toModel.unpack == some .eq) = true ↔
    ((UnpackedFloat.isNaN _ = false ∧ UnpackedFloat.isNaN _ = false) ∧ _) ∧ _ ∧ _
  rw [beq_iff_eq]
  by_cases h : x.toModel.unpack.isNaN = false ∧ y.toModel.unpack.isNaN = false
  · rw [compare_eq_place h.1 h.2, Option.some.injEq, compare_eq_iff_eq, le_antisymm_iff]
    exact ⟨fun hPlace => ⟨⟨h, hPlace.1⟩, h.symm, hPlace.2⟩, fun hPlace => ⟨hPlace.1.2, hPlace.2.2⟩⟩
  · simp [compare_eq_none h, h]

variable {a b c d : Float}

protected theorem le_refl (h : a.isNaN = false) : a ≤ a := le_iff.mpr ⟨⟨h, h⟩, le_rfl⟩

protected theorem le_trans (h₁ : a ≤ b) (h₂ : b ≤ c) : a ≤ c := by
  obtain ⟨⟨ha, -⟩, hab⟩ := le_iff.mp h₁
  obtain ⟨⟨-, hc⟩, hbc⟩ := le_iff.mp h₂
  exact le_iff.mpr ⟨⟨ha, hc⟩, hab.trans hbc⟩

protected theorem lt_of_le_of_lt (h₁ : a ≤ b) (h₂ : b < c) : a < c := by
  obtain ⟨⟨ha, -⟩, hab⟩ := le_iff.mp h₁
  obtain ⟨⟨-, hc⟩, hbc⟩ := lt_iff.mp h₂
  exact lt_iff.mpr ⟨⟨ha, hc⟩, hab.trans_lt hbc⟩

protected theorem lt_of_lt_of_le (h₁ : a < b) (h₂ : b ≤ c) : a < c := by
  obtain ⟨⟨ha, -⟩, hab⟩ := lt_iff.mp h₁
  obtain ⟨⟨-, hc⟩, hbc⟩ := le_iff.mp h₂
  exact lt_iff.mpr ⟨⟨ha, hc⟩, hab.trans_le hbc⟩

protected theorem le_of_lt (h : a < b) : a ≤ b := by
  obtain ⟨hab, hlt⟩ := lt_iff.mp h
  exact le_iff.mpr ⟨hab, hlt.le⟩

protected theorem le_of_not_lt (ha : a.isNaN = false) (hb : b.isNaN = false) (h : ¬a < b) : b ≤ a := by
  have hPlace : ¬place a.toModel.unpack < place b.toModel.unpack := fun hlt =>
    h (lt_iff.mpr ⟨⟨ha, hb⟩, hlt⟩)
  exact le_iff.mpr ⟨⟨hb, ha⟩, not_lt.mp hPlace⟩

theorem not_lt_iff (ha : a.isNaN = false) (hb : b.isNaN = false) : ¬a < b ↔ b ≤ a := by
  refine ⟨Binary64.le_of_not_lt ha hb, fun hLe hLess => ?_⟩
  exact lt_irrefl _ (lt_iff.mp (Binary64.lt_of_le_of_lt hLe hLess)).2

/-! ## The lesser and the greater of two numbers -/

theorem minimum_eq (hb : b.isNaN = false) : minimum a b = if a < b then a else b := by
  simp only [minimum, hb, Bool.false_or, decide_eq_true_eq]

theorem maximum_eq (hb : b.isNaN = false) : maximum a b = if b < a then a else b := by
  simp only [maximum, hb, Bool.false_or, decide_eq_true_eq]

theorem minimum_le (ha : a.isNaN = false) (hb : b.isNaN = false) :
    minimum a b ≤ a ∧ minimum a b ≤ b := by
  rw [minimum_eq hb]
  split
  · next h => exact ⟨Binary64.le_refl ha, Binary64.le_of_lt h⟩
  · next h => exact ⟨Binary64.le_of_not_lt ha hb h, Binary64.le_refl hb⟩

theorem le_maximum (ha : a.isNaN = false) (hb : b.isNaN = false) :
    a ≤ maximum a b ∧ b ≤ maximum a b := by
  rw [maximum_eq hb]
  split
  · next h => exact ⟨Binary64.le_refl ha, Binary64.le_of_lt h⟩
  · next h => exact ⟨Binary64.le_of_not_lt hb ha h, Binary64.le_refl hb⟩

theorem le_minimum_iff (ha : a.isNaN = false) (hb : b.isNaN = false) : c ≤ minimum a b ↔ c ≤ a ∧ c ≤ b := by
  constructor
  · intro h
    obtain ⟨hLeft, hRight⟩ := minimum_le ha hb
    exact ⟨Binary64.le_trans h hLeft, Binary64.le_trans h hRight⟩
  · rintro ⟨hLeft, hRight⟩
    rw [minimum_eq hb]
    split <;> assumption

theorem maximum_le_iff (ha : a.isNaN = false) (hb : b.isNaN = false) : maximum a b ≤ c ↔ a ≤ c ∧ b ≤ c := by
  constructor
  · intro h
    obtain ⟨hLeft, hRight⟩ := le_maximum ha hb
    exact ⟨Binary64.le_trans hLeft h, Binary64.le_trans hRight h⟩
  · rintro ⟨hLeft, hRight⟩
    rw [maximum_eq hb]
    split <;> assumption

theorem maximum_le_minimum_iff (ha : a.isNaN = false) (hb : b.isNaN = false) (hc : c.isNaN = false)
    (hd : d.isNaN = false) : maximum a b ≤ minimum c d ↔ (a ≤ c ∧ a ≤ d) ∧ b ≤ c ∧ b ≤ d := by
  rw [maximum_le_iff ha hb, le_minimum_iff hc hd, le_minimum_iff hc hd]

theorem isNaN_minimum (ha : a.isNaN = false) (hb : b.isNaN = false) : (minimum a b).isNaN = false := by
  rw [minimum_eq hb]
  split <;> assumption

theorem isNaN_maximum (ha : a.isNaN = false) (hb : b.isNaN = false) : (maximum a b).isNaN = false := by
  rw [maximum_eq hb]
  split <;> assumption

end TrackLayout.Binary64
