import TrackLayout.Geometry.Point
import TrackLayout.Proofs.Binary64.Identity
import TrackLayout.Proofs.Binary64.Remainder
import TrackLayout.Proofs.Binary64.Whole

/-!
# Ranges of angles

The angle between two directions lies between zero and a half turn, that
between a direction and an axis between zero and a quarter turn. The ends of
both ranges are values themselves, so no rounding leads beyond them, not even
where a tiny negative difference is moved up to a whole turn.
-/
set_option autoImplicit false

namespace TrackLayout.Angle

open Binary64

variable {a b : Float} {c : ℝ}

/-- What the value `pi` stands for. -/
def halfTurn : ℚ := 884279719003555 / 281474976710656

theorem rational_turns : rational? pi = some halfTurn ∧ rational? (2.0 * pi) = some (2 * halfTurn) ∧
    rational? (pi / 2.0) = some (halfTurn / 2) := by
  decide +kernel

theorem denotes_pi : Denotes pi halfTurn := denotes_rational rational_turns.1

theorem denotes_two_pi : Denotes (2.0 * pi) ((2 * halfTurn : ℚ) : ℝ) := denotes_rational rational_turns.2.1

theorem denotes_pi_div_two : Denotes (pi / 2.0) ((halfTurn / 2 : ℚ) : ℝ) := denotes_rational rational_turns.2.2

theorem halfTurn_pos : (0 : ℝ) < halfTurn := by
  rw [Rat.cast_pos, halfTurn]
  norm_num

theorem inside_difference (h : Denotes (a - b) c) : Inside (difference a b) 0 halfTurn := by
  have hPos := halfTurn_pos
  have hWhole : ((2 * halfTurn : ℚ) : ℝ) = 2 * halfTurn := by push_cast; rfl
  obtain ⟨turn, hTurn, hLow, hHigh⟩ := inside_floorRemainder h denotes_two_pi (by rw [hWhole]; linarith)
  rw [hWhole, abs_of_pos (by linarith)] at hHigh
  rw [difference]
  split
  · next hFar =>
    have hBeyond := (denotes_pi.lt_iff hTurn).mp hFar
    apply (denotes_two_pi.sub hTurn).inside_of_denotes denotes_zero denotes_pi
    · linarith
    · linarith
  · next hNear =>
    have hWithin := not_lt.mp fun hBeyond => hNear ((denotes_pi.lt_iff hTurn).mpr hBeyond)
    exact ⟨turn, hTurn, hLow, hWithin⟩

theorem inside_fromAxis (h : Denotes (a - b) c) : Inside (fromAxis a b) 0 ((halfTurn / 2 : ℚ) : ℝ) := by
  have hPos := halfTurn_pos
  have hHalf : ((halfTurn / 2 : ℚ) : ℝ) = halfTurn / 2 := by push_cast; rfl
  obtain ⟨turn, hTurn, hLow, hHigh⟩ := inside_floorRemainder h denotes_pi hPos.ne'
  rw [abs_of_pos hPos] at hHigh
  obtain ⟨rest, hRest, hRestLow, hRestHigh⟩ :=
    (denotes_pi.sub hTurn).inside_of_denotes denotes_zero denotes_pi (by linarith) (by linarith)
  refine ⟨min turn rest, denotes_minimum hTurn hRest, le_min hLow hRestLow, ?_⟩
  -- the one or the other is no more than a quarter turn
  rcases le_total turn ((halfTurn / 2 : ℚ) : ℝ) with hSmall | hLarge
  · exact (min_le_left _ _).trans hSmall
  · have hRounds := (denotes_pi.sub hTurn).rounds hRest
    refine (min_le_right _ _).trans (hRounds.le_of_le denotes_pi_div_two.representable ?_)
    rw [hHalf] at hLarge ⊢
    linarith

/-- Directions that are no infinity apart, however far and however near. -/
theorem range_of_isFinite (h : (a - b).isFinite = true) :
    (0.0 ≤ difference a b ∧ difference a b ≤ pi) ∧ 0.0 ≤ fromAxis a b ∧ fromAxis a b ≤ pi / 2.0 := by
  obtain ⟨c, hc⟩ := exists_denotes h
  obtain ⟨d, hd, hLow, hHigh⟩ := inside_difference hc
  obtain ⟨f, hf, hLow', hHigh'⟩ := inside_fromAxis hc
  refine ⟨⟨?_, ?_⟩, ?_, ?_⟩
  · exact (denotes_zero.le_iff hd).mpr hLow
  · exact (hd.le_iff denotes_pi).mpr hHigh
  · exact (denotes_zero.le_iff hf).mpr hLow'
  · exact (hf.le_iff denotes_pi_div_two).mpr hHigh'

/-- A tiny turn backwards is rounded to a whole turn, and to a half one along an axis. -/
theorem range_of_isFinite_tiny : ((-1e-20 : Float) - 0.0).isFinite = true ∧
    floorRemainder (-1e-20 - 0.0) (2.0 * pi) = 2.0 * pi ∧ floorRemainder (-1e-20 - 0.0) pi = pi ∧
    (0.0 ≤ difference (-1e-20) 0.0 ∧ difference (-1e-20) 0.0 ≤ pi) ∧
    0.0 ≤ fromAxis (-1e-20) 0.0 ∧ fromAxis (-1e-20) 0.0 ≤ pi / 2.0 := by
  have hFinite : ((-1e-20 : Float) - 0.0).isFinite = true := rfl
  obtain ⟨hTurn, hHalf⟩ : floorRemainder (-1e-20 - 0.0) (2.0 * pi) = 2.0 * pi ∧
      floorRemainder (-1e-20 - 0.0) pi = pi := by decide +kernel
  exact ⟨hFinite, hTurn, hHalf, range_of_isFinite hFinite⟩

end TrackLayout.Angle
