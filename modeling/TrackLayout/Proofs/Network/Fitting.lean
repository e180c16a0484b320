import TrackLayout.Proofs.Junction.Sides
import TrackLayout.Proofs.Network.Growth

/-!
# What fits at a junction

A junction keeps the tracks of one subnetwork along one axis, as many as there
is room for, and none that stands in on the wrong side. What does not fit comes
after the first track, which sets the subnetwork and the axis, so taking it
away leaves a junction with a track.
-/
set_option autoImplicit false

namespace TrackLayout

open Float.Model in
/-- A value taken from itself leaves zero or nothing that is a number. -/
theorem Binary64.sub_self_cases (x : Float) : x - x = 0.0 ∨ x - x = .ofModel (.pack .notANumber) := by
  change Float.ofModel (.pack (UnpackedFloat.sub .binary64 x.toModel.unpack x.toModel.unpack)) = _ ∨
    Float.ofModel (.pack (UnpackedFloat.sub .binary64 x.toModel.unpack x.toModel.unpack)) = _
  have hZero : Float.ofModel (.pack (.zero .positive)) = 0.0 := by decide +kernel
  cases x.toModel.unpack with
  | notANumber => exact .inr rfl
  | infinity s => cases s <;> exact .inr rfl
  | zero s => cases s <;> exact .inl hZero
  | finite s m e h =>
    left
    dsimp only [UnpackedFloat.sub]
    rw [Int.sub_self]
    exact hZero

namespace Network

variable {net other : Network} {n : NodeId} {j : Junction}

/-- A track lies along its own axis. -/
theorem along_own_axis (direction : Float) : ¬axisTolerance < Angle.fromAxis direction direction := by
  rw [Angle.fromAxis]
  rcases Binary64.sub_self_cases direction with h | h
  · rw [h]
    decide +kernel
  · rw [h]
    decide +kernel

/-- Only tracks and sides of a junction and the subnetworks of its connections decide what fits. -/
theorem misfits_congr {i : Junction} (hTracks : i.tracks = j.tracks) (hSides : i.sides = j.sides)
    (hSubnetwork : ∀ id, net.subnetwork? id = other.subnetwork? id) :
    net.misfits i = other.misfits j := by
  have hForeign : net.foreign i = other.foreign j := by
    funext subnetwork
    simp only [foreign, Junction.connections, hTracks, hSubnetwork]
  have hOffAxis : offAxis i = offAxis j := by
    funext axis
    simp only [offAxis, hTracks]
  have hSurplus : surplus i = surplus j := by
    simp only [surplus, Junction.connections, hTracks, hSides]
  rw [misfits, misfits, hTracks, hForeign, hOffAxis, hSurplus, funext hSubnetwork]

theorem extract_of_absent (hn : net.node? n = none) : net.extract n = .ok none := by
  simp [extract, hn, pure, Except.pure]

theorem extract_of_fitting (hj : net.node? n = some j) (hFits : net.misfits j = []) :
    net.extract n = .ok none := by
  simp [extract, hj, hFits, pure, Except.pure]

/-- Misfits move to a new node, which is linked to the old one. -/
theorem extract_of_misfits (hj : net.node? n = some j) (hMisfits : net.misfits j ≠ []) :
    net.extract n = (net.addNode j.position).map fun added =>
      some (added.1, ((net.misfits j).foldl (moveTrack n added.1 j.point) added.2).link n added.1) := by
  cases hAdd : net.addNode j.position <;>
    simp [extract, hj, hMisfits, hAdd, bind, Except.bind, pure, Except.pure, Except.map]

theorem extract_eq_none_iff :
    net.extract n = .ok none ↔ ∀ j, net.node? n = some j → net.misfits j = [] := by
  constructor
  · intro h j hj
    by_contra hMisfits
    rw [extract_of_misfits hj hMisfits] at h
    cases hAdd : net.addNode j.position <;> simp [hAdd, Except.map] at h
  · intro h
    cases hj : net.node? n with
    | none => exact extract_of_absent hj
    | some j => exact extract_of_fitting hj (h j hj)

/-! ## At well-formed networks -/

theorem WellFormed.exists_connection (hNet : net.WellFormed) (hj : net.node? n = some j)
    {t : Attachment} (ht : t ∈ j.tracks) :
    ∃ c, net.connection? t.connection = some c ∧ c.touches n = true := by
  have hMem : t.connection ∈ j.connections := List.mem_map_of_mem ht
  rw [hNet.mem_connections hj, Option.any_eq_true] at hMem
  obtain ⟨c, hc, hTouches⟩ := hMem
  exact ⟨c, hc, hTouches⟩

theorem WellFormed.surplus_eq (hNet : net.WellFormed) (hj : net.node? n = some j) :
    ∃ ts : List Attachment, ts.Sublist j.tracks.tail ∧ surplus j = ts.map (·.connection) := by
  rw [surplus]
  split
  · next hDesires =>
    rw [hNet.sides hj] at hDesires ⊢
    cases hTracks : j.tracks with
    | nil => exact ⟨[], List.Sublist.refl _, rfl⟩
    | cons first rest =>
      rw [hTracks, Sides.ofTracks_cons] at hDesires
      rw [Sides.ofTracks_cons]
      obtain ⟨last, hLast, hBackward⟩ := Sides.backward_spread_of_desires hDesires
      exact ⟨[last], List.singleton_sublist.mpr (List.mem_of_getLast? hLast), hBackward⟩
  · refine ⟨j.tracks.tail.drop 3, List.drop_sublist .., ?_⟩
    rw [Junction.connections, List.map_drop, List.map_tail, List.drop_tail]
    rfl

/-- What does not fit is attached after the first track. -/
theorem WellFormed.misfits_eq (hNet : net.WellFormed) (hj : net.node? n = some j) :
    ∃ ts : List Attachment, ts.Sublist j.tracks.tail ∧ net.misfits j = ts.map (·.connection) := by
  rw [misfits]
  cases hTracks : j.tracks with
  | nil => exact ⟨[], List.Sublist.refl _, rfl⟩
  | cons first rest =>
    cases hFirst : net.subnetwork? first.connection with
    | none =>
      simp only [List.head?_cons, hFirst]
      exact ⟨[], List.nil_sublist _, rfl⟩
    | some subnetwork =>
      have hForeign : net.foreign j subnetwork =
          (rest.filter fun t => (net.subnetwork? t.connection).any (· != subnetwork)).map (·.connection) := by
        simp [foreign, Junction.connections, hTracks, hFirst, List.filter_map, Function.comp_def]
      have hOffAxis : offAxis j first.direction =
          (rest.filter fun t => axisTolerance < Angle.fromAxis t.direction first.direction).map
            (·.connection) := by
        simp [offAxis, hTracks, along_own_axis]
      simp only [List.head?_cons, hFirst]
      split
      · exact ⟨_, List.filter_sublist, hForeign⟩
      · split
        · exact ⟨_, List.filter_sublist, hOffAxis⟩
        · rw [← hTracks]
          exact hNet.surplus_eq hj

/-- Every track of a junction belongs with its first one, on its side and in its number. -/
structure Fits (net : Network) (j : Junction) (first : Attachment) : Prop where
  subnetwork : ∀ t ∈ j.tracks, net.subnetwork? t.connection = net.subnetwork? first.connection
  axis : ∀ t ∈ j.tracks, ¬axisTolerance < Angle.fromAxis t.direction first.direction
  sides : j.sides.backwardDesiresForward = false
  room : j.tracks.length ≤ maxAligned

theorem WellFormed.surplus_eq_nil_iff (hNet : net.WellFormed) (hj : net.node? n = some j) :
    surplus j = [] ↔ j.sides.backwardDesiresForward = false ∧ j.tracks.length ≤ maxAligned := by
  rw [surplus]
  split
  · next hDesires =>
    rw [hDesires]
    cases hTracks : j.tracks with
    | nil => simp [hNet.sides hj, hTracks, Sides.ofTracks] at hDesires
    | cons first rest =>
      rw [hNet.sides hj, hTracks, Sides.ofTracks_cons] at hDesires ⊢
      obtain ⟨last, -, hBackward⟩ := Sides.backward_spread_of_desires hDesires
      simp [hBackward]
  · next hDesires => simp [hDesires, Junction.connections]

theorem WellFormed.misfits_eq_nil_iff (hNet : net.WellFormed) (hj : net.node? n = some j)
    {first : Attachment} (hFirst : j.tracks.head? = some first) :
    net.misfits j = [] ↔ net.Fits j first := by
  obtain ⟨c, hc, -⟩ := hNet.exists_connection hj (List.mem_of_head? hFirst)
  have hOwn : net.subnetwork? first.connection = some c.trackType.subnetwork := by simp [subnetwork?, hc]
  have hForeign : net.foreign j c.trackType.subnetwork = [] ↔
      ∀ t ∈ j.tracks, net.subnetwork? t.connection = net.subnetwork? first.connection := by
    rw [foreign, Junction.connections, List.filter_eq_nil_iff, List.forall_mem_map, hOwn]
    refine forall₂_congr fun t ht => ?_
    obtain ⟨d, hd, -⟩ := hNet.exists_connection hj ht
    simp [subnetwork?, hd]
  have hOffAxis : offAxis j first.direction = [] ↔
      ∀ t ∈ j.tracks, ¬axisTolerance < Angle.fromAxis t.direction first.direction := by
    simp [offAxis, List.filter_eq_nil_iff]
  have hSurplus := hNet.surplus_eq_nil_iff hj
  rw [misfits, hFirst]
  simp only [hOwn]
  constructor
  · intro hNil
    obtain hSubnetwork | hSubnetwork := eq_or_ne (net.foreign j c.trackType.subnetwork) []
    · obtain hAxis | hAxis := eq_or_ne (offAxis j first.direction) []
      · have hRest := hSurplus.mp (by simpa [hSubnetwork, hAxis] using hNil)
        exact ⟨hForeign.mp hSubnetwork, hOffAxis.mp hAxis, hRest.1, hRest.2⟩
      · simp [hSubnetwork, hAxis] at hNil
    · simp [hSubnetwork] at hNil
  · intro hFits
    rw [hForeign.mpr hFits.subnetwork, hOffAxis.mpr hFits.axis, hSurplus.mpr ⟨hFits.sides, hFits.room⟩]
    rfl

end Network

end TrackLayout
