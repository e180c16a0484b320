import Mathlib.Data.List.Induction
import TrackLayout.Junction

/-!
# How tracks are spread over the sides

The sides of a junction in closed form. If a track after the first one points
away from it, every track is on the side it points to. Otherwise the last track
has to stand in on the backward side, and desires the forward one. Either way
the two sides hold the tracks of the junction between them.
-/
set_option autoImplicit false

namespace TrackLayout

namespace Sides

/-- A later track is less than a quarter turn from the first one. -/
def aligned (first track : Attachment) : Bool :=
  Angle.difference track.direction first.direction < 1.5707963267948966

/-- The sides of a first track and the tracks after it, in closed form. -/
def spread (first : Attachment) (rest : List Attachment) : Sides :=
  let sides : Sides := { forwardDirection := first.direction }
  match rest.getLast? with
  | none => { sides with forward := [first.connection] }
  | some last =>
    if rest.all (aligned first) then
      { sides with
        forward := ((first :: rest.dropLast).map (·.connection)), backward := [last.connection]
        backwardDesiresForward := true }
    else
      { sides with
        forward := first.connection :: (rest.filter (aligned first)).map (·.connection)
        backward := (rest.filter (!aligned first ·)).map (·.connection) }

theorem pointsForward_eq (first track : Attachment) :
    pointsForward first.direction track.direction = aligned first track := rfl

theorem ofTracks_concat (tracks : List Attachment) (t : Attachment) :
    ofTracks (tracks ++ [t]) = (ofTracks tracks).add t := by simp [ofTracks]

theorem spread_of_opposed {first : Attachment} {rest : List Attachment}
    (h : ¬rest.all (aligned first) = true) : spread first rest =
      { forwardDirection := first.direction
        forward := first.connection :: (rest.filter (aligned first)).map (·.connection)
        backward := (rest.filter (!aligned first ·)).map (·.connection) } := by
  rw [spread]
  cases hLast : rest.getLast? with
  | none => simp [List.getLast?_eq_none_iff.mp hLast] at h
  | some last => simp only [if_neg h]

/-- Releasing the stand-in puts every track in front when all are aligned. -/
theorem release_spread (first : Attachment) (rest : List Attachment) :
    (spread first rest).release =
      if rest.all (aligned first) then
        { forward := (first :: rest).map (·.connection), forwardDirection := first.direction }
      else spread first rest := by
  split
  · next hAll =>
    rw [spread]
    cases hLast : rest.getLast? with
    | none => simp [release, List.getLast?_eq_none_iff.mp hLast]
    | some last =>
      obtain ⟨init, rfl⟩ := List.getLast?_eq_some_iff.mp hLast
      simp [release, hAll]
  · next hOpposed =>
    rw [spread_of_opposed hOpposed]
    rfl

theorem spread_concat (first : Attachment) (rest : List Attachment) (t : Attachment) :
    spread first (rest ++ [t]) = (spread first rest).add t := by
  have hForward : (spread first rest).forward.isEmpty = false := by
    rw [spread]
    split
    · rfl
    · split <;> rfl
  rw [add, hForward, release_spread]
  by_cases hAll : rest.all (aligned first)
  · have hRest : rest.filter (aligned first) = rest := List.filter_eq_self.mpr (by simpa using hAll)
    have hNone : rest.filter (!aligned first ·) = [] := by simpa using hAll
    cases hTrack : aligned first t <;> simp [spread, hAll, hRest, hNone, hTrack, pointsForward_eq]
  · have hSome : rest.filter (!aligned first ·) ≠ [] := by simpa using hAll
    have hMore : ¬(rest ++ [t]).all (aligned first) = true := by
      rw [List.all_append, Bool.and_eq_true]
      exact fun h => hAll h.1
    rw [if_neg hAll, spread_of_opposed hAll, spread_of_opposed hMore]
    cases hTrack : aligned first t <;> simp [hSome, hTrack, pointsForward_eq]

theorem ofTracks_cons (first : Attachment) (rest : List Attachment) :
    ofTracks (first :: rest) = spread first rest := by
  induction rest using List.reverseRecOn with
  | nil => rfl
  | append_singleton rest t ih => rw [← List.cons_append, ofTracks_concat, ih, spread_concat]

/-! ## What the sides hold -/

theorem spread_perm (first : Attachment) (rest : List Attachment) :
    ((spread first rest).forward ++ (spread first rest).backward).Perm
      ((first :: rest).map (·.connection)) := by
  by_cases hAll : rest.all (aligned first)
  · rw [spread]
    cases hLast : rest.getLast? with
    | none => simp [List.getLast?_eq_none_iff.mp hLast]
    | some last =>
      obtain ⟨init, rfl⟩ := List.getLast?_eq_some_iff.mp hLast
      simp [hAll]
  · rw [spread_of_opposed hAll]
    simp only [List.cons_append, List.map_cons, ← List.map_append]
    exact ((List.filter_append_perm (aligned first) rest).map _).cons _

theorem ofTracks_perm (tracks : List Attachment) :
    ((ofTracks tracks).forward ++ (ofTracks tracks).backward).Perm (tracks.map (·.connection)) := by
  cases tracks with
  | nil => exact .nil
  | cons first rest =>
    rw [ofTracks_cons]
    exact spread_perm first rest

/-- A stand-in is the last track, and alone on the backward side. -/
theorem backward_spread_of_desires {first : Attachment} {rest : List Attachment}
    (h : (spread first rest).backwardDesiresForward = true) :
    ∃ last, rest.getLast? = some last ∧ (spread first rest).backward = [last.connection] := by
  by_cases hAll : rest.all (aligned first)
  · rw [spread] at h ⊢
    cases hLast : rest.getLast? with
    | none => simp [hLast] at h
    | some last => exact ⟨last, rfl, by simp [hAll]⟩
  · simp [spread_of_opposed hAll] at h

end Sides

end TrackLayout
