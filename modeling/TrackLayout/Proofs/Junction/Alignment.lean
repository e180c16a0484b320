import TrackLayout.Proofs.Binary64.Magnitude
import TrackLayout.Proofs.Junction.Sides

/-!
# The sides of a junction in closed form

Which side a track is on depends on the first track, on whether it is aligned
with that one, and on whether all others are. A direction that is not a number
is aligned with none, so a track that has one counts as pointing away.
-/
set_option autoImplicit false

namespace TrackLayout

open Binary64

theorem floorRemainder_of_isNaN {a : Float} (h : a.isNaN = true) (b : Float) :
    floorRemainder a b = nan := by
  have hDyadic : dyadic? a = none := by
    change a.toModel.unpack.isNaN = true at h
    rw [dyadic?]
    cases hUnpack : a.toModel.unpack with
    | notANumber | infinity => rfl
    | _ =>
      rw [hUnpack] at h
      cases h
  have hRemainder : remainder a b = nan := by rw [remainder, hDyadic]
  rw [floorRemainder, hRemainder]
  exact if_neg (not_lt_of_isNaN (.inl (by decide)))

theorem Angle.difference_of_isNaN {a b : Float} (h : a.isNaN = true ∨ b.isNaN = true) :
    Angle.difference a b = nan := by
  rw [Angle.difference, floorRemainder_of_isNaN (isNaN_sub_of_isNaN h)]
  exact if_neg (not_lt_of_isNaN (.inr (by decide)))

namespace Sides

theorem aligned_eq_false_of_isNaN {first t : Attachment}
    (h : first.direction.isNaN = true ∨ t.direction.isNaN = true) : aligned first t = false := by
  rw [aligned, Angle.difference_of_isNaN h.symm, decide_eq_false_iff_not]
  exact Binary64.not_lt_of_isNaN (.inl (by decide))

theorem backward_ofTracks_eq_nil_iff (tracks : List Attachment) :
    (ofTracks tracks).backward = [] ↔ tracks.length < 2 := by
  match tracks with
  | [] => simp [ofTracks]
  | [t] => simp [ofTracks, add]
  | first :: second :: rest =>
    rw [ofTracks_cons]
    refine iff_of_false ?_ (by simp)
    by_cases hAll : (second :: rest).all (aligned first)
    · rw [spread, List.getLast?_cons]
      simp only [if_pos hAll]
      exact List.cons_ne_nil _ _
    · rw [spread_of_opposed hAll]
      intro hNone
      rw [List.map_eq_nil_iff, List.filter_eq_nil_iff] at hNone
      apply hAll
      rw [List.all_eq_true]
      intro t ht
      simpa using hNone t ht

/-- Where the tracks of a junction go: a first track alone is in front; with tracks that point away from it,
every track is on the side it points to; without any, the last one stands in on the backward side. All
tracks are on one side or the other, and a track of undefined direction is aligned with none. -/
theorem ofTracks_closed_form :
    ofTracks [] = {} ∧
    (∀ t, ofTracks [t] = { forward := [t.connection], forwardDirection := t.direction }) ∧
    (∀ first rest, (∃ t ∈ rest, aligned first t = false) → ofTracks (first :: rest) =
      { forward := first.connection :: (rest.filter (aligned first)).map (·.connection)
        backward := (rest.filter (!aligned first ·)).map (·.connection)
        forwardDirection := first.direction
        backwardDesiresForward := false }) ∧
    (∀ first middle last, (∀ t ∈ middle ++ [last], aligned first t = true) →
      ofTracks (first :: (middle ++ [last])) =
        { forward := (first :: middle).map (·.connection)
          backward := [last.connection]
          forwardDirection := first.direction
          backwardDesiresForward := true }) ∧
    (∀ tracks, ((ofTracks tracks).forward ++ (ofTracks tracks).backward).Perm (tracks.map (·.connection)) ∧
      ((ofTracks tracks).backward = [] ↔ tracks.length < 2)) ∧
    ∀ first t, first.direction.isNaN = true ∨ t.direction.isNaN = true → aligned first t = false := by
  refine ⟨rfl, fun _ => rfl, ?_, ?_, ?_, ?_⟩
  · rintro first rest ⟨t, ht, hAway⟩
    have hOpposed : ¬rest.all (aligned first) = true := by
      intro hAll
      rw [List.all_eq_true.mp hAll t ht] at hAway
      cases hAway
    rw [ofTracks_cons, spread_of_opposed hOpposed]
  · intro first middle last hAligned
    rw [ofTracks_cons, spread, List.getLast?_concat]
    simp only [if_pos (List.all_eq_true.mpr hAligned), List.dropLast_concat]
  · intro tracks
    exact ⟨ofTracks_perm tracks, backward_ofTracks_eq_nil_iff tracks⟩
  · intro first t
    exact aligned_eq_false_of_isNaN

/-- A fork with a track that leaves backwards, and one of three tracks that are all aligned. -/
theorem ofTracks_closed_form_forks :
    aligned ⟨⟨4⟩, 0.0⟩ ⟨⟨7⟩, 3.0⟩ = false ∧
    ofTracks [⟨⟨4⟩, 0.0⟩, ⟨⟨5⟩, 0.5⟩, ⟨⟨7⟩, 3.0⟩, ⟨⟨6⟩, -0.5⟩] =
      { forward := [⟨4⟩, ⟨5⟩, ⟨6⟩], backward := [⟨7⟩], forwardDirection := 0.0, backwardDesiresForward := false } ∧
    (∀ t ∈ ([⟨⟨5⟩, 0.5⟩, ⟨⟨6⟩, -0.5⟩] : List Attachment), aligned ⟨⟨4⟩, 0.0⟩ t = true) ∧
    ofTracks [⟨⟨4⟩, 0.0⟩, ⟨⟨5⟩, 0.5⟩, ⟨⟨6⟩, -0.5⟩] =
      { forward := [⟨4⟩, ⟨5⟩], backward := [⟨6⟩], forwardDirection := 0.0, backwardDesiresForward := true } := by
  obtain ⟨-, -, hOpposed, hAligned, -⟩ := ofTracks_closed_form
  obtain ⟨hAway, hAhead, hAll⟩ : aligned ⟨⟨4⟩, 0.0⟩ ⟨⟨7⟩, 3.0⟩ = false ∧
      [⟨⟨5⟩, 0.5⟩, ⟨⟨7⟩, 3.0⟩, ⟨⟨6⟩, -0.5⟩].map (aligned ⟨⟨4⟩, 0.0⟩) = [true, false, true] ∧
        ∀ t ∈ ([⟨⟨5⟩, 0.5⟩, ⟨⟨6⟩, -0.5⟩] : List Attachment), aligned ⟨⟨4⟩, 0.0⟩ t = true := by decide +kernel
  have hFork := hOpposed ⟨⟨4⟩, 0.0⟩ [⟨⟨5⟩, 0.5⟩, ⟨⟨7⟩, 3.0⟩, ⟨⟨6⟩, -0.5⟩] ⟨⟨⟨7⟩, 3.0⟩, by simp, hAway⟩
  simp only [List.map_cons, List.map_nil, List.cons.injEq] at hAhead
  obtain ⟨hFive, hSeven, hSix, -⟩ := hAhead
  refine ⟨hAway, hFork.trans ?_, hAll, hAligned ⟨⟨4⟩, 0.0⟩ [⟨⟨5⟩, 0.5⟩] ⟨⟨6⟩, -0.5⟩ hAll⟩
  simp [hFive, hSeven, hSix]

end Sides

end TrackLayout
