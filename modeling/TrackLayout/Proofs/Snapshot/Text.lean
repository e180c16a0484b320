import TrackLayout.Document.Snapshot
import TrackLayout.Proofs.Document.Values
import TrackLayout.Proofs.Json.Text
import TrackLayout.Proofs.Snapshot.Binary

/-!
# Snapshots read back from texts

A snapshot whose numbers are finite is read back from its text with everything
but its numbers as it was. A number comes back but for its last places, and as
it was if it has few digits.
-/
set_option autoImplicit false

namespace TrackLayout

open Document (toJson ofJson?)
open Json (reread FewDigits Near)

/-! ## Numbers of a snapshot -/

def NodeEntry.numbers (n : NodeEntry) : List Float := [n.x, n.y] ++ n.elevation.toList

def NodeEntry.mapNumbers (f : Float → Float) (n : NodeEntry) : NodeEntry :=
  { n with x := f n.x, y := f n.y, elevation := n.elevation.map f }

theorem NodeEntry.mapNumbers_eq_self {f : Float → Float} (n : NodeEntry) (h : ∀ x ∈ n.numbers, f x = x) :
    n.mapNumbers f = n := by
  have hElevation : n.elevation.map f = n.elevation := by
    cases hSome : n.elevation with
    | none => rfl
    | some z => exact congrArg some (h z (by simp [numbers, hSome]))
  rw [mapNumbers, h n.x (by simp [numbers]), h n.y (by simp [numbers]), hElevation]

namespace Snapshot

def numbers (s : Snapshot) : List Float := s.nodes.flatMap (·.numbers)

def mapNumbers (f : Float → Float) (s : Snapshot) : Snapshot := { s with nodes := s.nodes.map (·.mapNumbers f) }

end Snapshot

/-! ## Entries -/

theorem ofJson?_node {n : NodeEntry} (h : ∀ x ∈ n.numbers, x.isFinite = true) :
    ofJson? (toJson n) = some (n.mapNumbers reread) := by
  have hX := ofJson?_float (h n.x (by simp [NodeEntry.numbers]))
  have hY := ofJson?_float (h n.y (by simp [NodeEntry.numbers]))
  have hElevation := ofJson?_optional (x := n.elevation) fun z hz =>
    h z (by simp [NodeEntry.numbers, Option.mem_def.mp hz])
  obtain ⟨f, hFields, hSlots⟩ := Json.exists_fields? ["id", "x", "y", "elevation", "forward", "backward"] rfl
    (by decide) (.refl [("id", toJson n.id), ("x", toJson n.x), ("y", toJson n.y),
      ("elevation", toJson n.elevation), ("forward", toJson n.forward), ("backward", toJson n.backward)])
  refine (congrArg (Option.bind · _) hFields).trans ?_
  simp only [List.forall_mem_cons] at hSlots
  simp [Fields.get, Fields.getOptional, Fields.required, Fields.optional, hSlots, Exact.ofJson?_toJson, hX, hY,
    hElevation, NodeEntry.mapNumbers]

instance : Exact ConnectionEntry where
  ofJson?_toJson c := by
    obtain ⟨f, hFields, hSlots⟩ := Json.exists_fields?
      ["id", "start", "end", "straight", "height_fixed", "track_type"] rfl (by decide)
      (.refl [("id", toJson c.id), ("start", toJson c.start), ("end", toJson c.stop),
        ("straight", toJson c.straight), ("height_fixed", toJson c.heightFixed), ("track_type", toJson c.trackType)])
    refine (congrArg (Option.bind · _) hFields).trans ?_
    simp only [List.forall_mem_cons] at hSlots
    simp [Fields.get, Fields.required, hSlots, Exact.ofJson?_toJson]

/-! ## The whole snapshot -/

namespace Snapshot

variable {s : Snapshot}

theorem ofJson?_toJson (h : ∀ x ∈ s.numbers, x.isFinite = true) :
    ofJson? (toJson s) = some (s.mapNumbers reread) := by
  have hNodes : ofJson? (toJson s.nodes) = some (s.nodes.map (·.mapNumbers reread)) :=
    Json.list?_ofList fun n hn => ofJson?_node fun x hx => h x (List.mem_flatMap.mpr ⟨n, hn, hx⟩)
  obtain ⟨f, hFields, hSlots⟩ := Json.exists_fields? ["nodes", "connections"] rfl (by decide)
    (.refl [("nodes", toJson s.nodes), ("connections", toJson s.connections)])
  refine (congrArg (Option.bind · _) hFields).trans ?_
  simp only [List.forall_mem_cons] at hSlots
  simp [Fields.get, Fields.required, hSlots, hNodes, Exact.ofJson?_toJson, mapNumbers]

theorem mapNumbers_eq_self {f : Float → Float} (h : ∀ x ∈ s.numbers, f x = x) : s.mapNumbers f = s := by
  have hNodes : s.nodes.map (·.mapNumbers f) = s.nodes := by
    refine (List.map_congr_left fun n hn => ?_).trans (List.map_id _)
    exact n.mapNumbers_eq_self fun x hx => h x (List.mem_flatMap.mpr ⟨n, hn, hx⟩)
  rw [mapNumbers, hNodes]

theorem ofText_toText_eq (h : ∀ x ∈ s.numbers, x.isFinite = true) :
    ofText s.toText = .ok (s.mapNumbers reread) := by
  rw [ofText, toText, Document.parse?, Json.parse?_pretty, Option.bind_some, ofJson?_toJson h]

/-- Snapshots of finite numbers are read back from their text with everything but their numbers as it was.
A number comes back but for its last places; numbers of few digits come back as they were. -/
theorem ofText_toText (s : Snapshot) (h : ∀ x ∈ s.numbers, x.isFinite = true) :
    ofText s.toText = .ok (s.mapNumbers reread) ∧ (∀ x ∈ s.numbers, Near x (reread x)) ∧
      ((∀ x ∈ s.numbers, FewDigits x) → ofText s.toText = .ok s) := by
  have hRead := ofText_toText_eq h
  refine ⟨hRead, fun x hx => Json.near_reread (h x hx), fun hFew => ?_⟩
  rw [hRead, mapNumbers_eq_self fun x hx => (hFew x hx).reread_eq]

/-- Two junctions, one of them an eleventh of a metre off the axis. -/
def pier : Snapshot where
  nodes := [⟨⟨0⟩, 0.09090909090909091, -0.0, some 12.5, [⟨0⟩], []⟩, ⟨⟨1⟩, 3, 1e23, none, [], [⟨0⟩]⟩]
  connections := [⟨⟨0⟩, ⟨0⟩, ⟨1⟩, true, true, -1⟩]

theorem ofText_toText_pier : (∀ x ∈ pier.numbers, x.isFinite = true) ∧
    ofText pier.toText = .ok (pier.mapNumbers reread) ∧
    pier.numbers.map reread = [0.09090909090909093, -0.0, 12.5, 3, 1e23] ∧
    (∀ x ∈ stretch.numbers, x.isFinite = true) ∧ ofText stretch.toText = .ok stretch := by
  have hFinite : ∀ x ∈ pier.numbers, x.isFinite = true := by decide +kernel
  have hStretch : ∀ x ∈ stretch.numbers, x.isFinite = true := by decide +kernel
  exact ⟨hFinite, (ofText_toText pier hFinite).1, by decide +kernel, hStretch,
    (ofText_toText stretch hStretch).2.2 (by decide +kernel)⟩

/-- An eleventh has more digits than are read in one piece. -/
theorem ofText_toText_ne : (∀ x ∈ pier.numbers, x.isFinite = true) ∧ ofText pier.toText ≠ .ok pier := by
  have hFinite : ∀ x ∈ pier.numbers, x.isFinite = true := by decide +kernel
  refine ⟨hFinite, ?_⟩
  rw [ofText_toText_eq hFinite]
  exact fun hSame => absurd (Except.ok.inj hSame) (by decide +kernel)

end Snapshot

end TrackLayout
