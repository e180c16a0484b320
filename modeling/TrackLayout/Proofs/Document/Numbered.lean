import TrackLayout.Document.Junction
import TrackLayout.Document.Way
import TrackLayout.Proofs.Document.Values

/-!
# Documents of values with numbers

A value comes back from its document with all that is no number as it was and
with its numbers as these come back. Records do so because their fields do:
each record says which numbers it has and how they are replaced, and is then
read field by field.
-/
set_option autoImplicit false

namespace TrackLayout

open Document (toJson ofJson?)
open Json (reread)

/-! ## Values with numbers -/

/-- Types whose values have numbers in some places. -/
class Numbered (α : Type) where
  numbers : α → List Float
  mapNumbers : (Float → Float) → α → α
  mapNumbers_eq_self : ∀ {f : Float → Float} {a : α}, (∀ x ∈ numbers a, f x = x) → mapNumbers f a = a

open Numbered (numbers mapNumbers mapNumbers_eq_self)

def AllFinite {α : Type} [Numbered α] (a : α) : Prop := ∀ x ∈ numbers a, x.isFinite = true

instance {α : Type} [Numbered α] (a : α) : Decidable (AllFinite a) := inferInstanceAs (Decidable (∀ x ∈ _, _))

/-- Types whose values come back from their documents with their numbers as these come back. -/
class Returns (α : Type) [Document α] [Numbered α] : Prop where
  ofJson?_toJson : ∀ {a : α}, AllFinite a → ofJson? (toJson a) = some (mapNumbers reread a)

instance : Numbered Float where
  numbers x := [x]
  mapNumbers f := f
  mapNumbers_eq_self h := h _ List.mem_cons_self

instance : Returns Float := ⟨fun h => ofJson?_float (h _ List.mem_cons_self)⟩

section Lists

variable {α : Type} [Numbered α]

instance : Numbered (List α) where
  numbers items := items.flatMap numbers
  mapNumbers f items := items.map (mapNumbers f)
  mapNumbers_eq_self {f items} h := by
    refine (List.map_congr_left fun a ha => ?_).trans (List.map_id items)
    apply mapNumbers_eq_self
    intro x hx
    exact h x (List.mem_flatMap.mpr ⟨a, ha, hx⟩)

theorem AllFinite.of_mem {items : List α} (h : AllFinite items) {a : α} (ha : a ∈ items) : AllFinite a :=
  fun x hx => h x (List.mem_flatMap.mpr ⟨a, ha, hx⟩)

instance [Document α] [Returns α] : Returns (List α) :=
  ⟨fun h => Json.list?_ofList fun _ ha => Returns.ofJson?_toJson (h.of_mem ha)⟩

end Lists

instance : Numbered (Option Float) where
  numbers x := x.toList
  mapNumbers f := Option.map f
  mapNumbers_eq_self {f x} h := by
    cases x with
    | none => rfl
    | some x => exact congrArg some (h x List.mem_cons_self)

instance : Returns (Option Float) := ⟨fun h => ofJson?_optional fun x hx => h x (Option.mem_toList.mpr hx)⟩

theorem ofJson?_plane (p : Option HeightPlane) : ofJson? (toJson p) = some p := by
  cases p with
  | none => rfl
  | some p => exact congrArg (Option.map some) (Exact.ofJson?_toJson p)

/-! ## Records -/

instance : Numbered Point where
  numbers p := [p.x, p.y]
  mapNumbers f p := ⟨f p.x, f p.y⟩
  mapNumbers_eq_self {f p} h := by
    rw [h p.x (by simp), h p.y (by simp)]

instance : Returns Point where
  ofJson?_toJson {p} h := by
    have hX := ofJson?_float (h p.x (by simp [numbers]))
    have hY := ofJson?_float (h p.y (by simp [numbers]))
    obtain ⟨f, hFields, hSlots⟩ := Json.exists_fields? ["x", "y"] rfl (by decide)
      (.refl [("x", toJson p.x), ("y", toJson p.y)])
    refine (congrArg (Option.bind · _) hFields).trans ?_
    simp only [List.forall_mem_cons] at hSlots
    simp [Fields.get, Fields.required, hSlots, hX, hY, mapNumbers]

instance : Numbered Position where
  numbers p := numbers p.point ++ numbers p.elevation
  mapNumbers f p := ⟨mapNumbers f p.point, mapNumbers f p.elevation⟩
  mapNumbers_eq_self {f p} h := by
    rw [List.forall_mem_append] at h
    rw [mapNumbers_eq_self h.1, mapNumbers_eq_self h.2]

instance : Returns Position where
  ofJson?_toJson {p} h := by
    obtain ⟨hPoint, hElevation⟩ := List.forall_mem_append.mp h
    have hPoint := Returns.ofJson?_toJson hPoint
    have hElevation := Returns.ofJson?_toJson hElevation
    obtain ⟨f, hFields, hSlots, hLast⟩ := Json.exists_fields?_present ["point", "elevation"] "elevation"
      [("point", toJson p.point)] [] rfl (by decide) (List.append_nil _).symm hElevation
      fun hNone => by rw [hNone]; rfl
    refine (congrArg (Option.bind · _) hFields).trans ?_
    simp only [List.append_nil, List.forall_mem_cons] at hSlots
    simp [Fields.get, Fields.required, hSlots, hLast, hPoint, mapNumbers]

instance : Numbered Rect where
  numbers r := [r.minX, r.minY, r.maxX, r.maxY]
  mapNumbers f r := ⟨f r.minX, f r.minY, f r.maxX, f r.maxY⟩
  mapNumbers_eq_self {f r} h := by
    rw [h r.minX (by simp), h r.minY (by simp), h r.maxX (by simp), h r.maxY (by simp)]

instance : Returns Rect where
  ofJson?_toJson {r} h := by
    have hMinX := ofJson?_float (h r.minX (by simp [numbers]))
    have hMinY := ofJson?_float (h r.minY (by simp [numbers]))
    have hMaxX := ofJson?_float (h r.maxX (by simp [numbers]))
    have hMaxY := ofJson?_float (h r.maxY (by simp [numbers]))
    obtain ⟨f, hFields, hSlots⟩ := Json.exists_fields? ["min_x", "min_y", "max_x", "max_y"] rfl (by decide)
      (.refl [("min_x", toJson r.minX), ("min_y", toJson r.minY), ("max_x", toJson r.maxX),
        ("max_y", toJson r.maxY)])
    refine (congrArg (Option.bind · _) hFields).trans ?_
    simp only [List.forall_mem_cons] at hSlots
    simp [Fields.get, Fields.required, hSlots, hMinX, hMinY, hMaxX, hMaxY, mapNumbers]

instance : Numbered TrackType where
  numbers t := [t.inclines.least, t.inclines.greatest]
  mapNumbers f t := { t with inclines := ⟨f t.inclines.least, f t.inclines.greatest⟩ }
  mapNumbers_eq_self {f t} h := by
    rw [h t.inclines.least (by simp), h t.inclines.greatest (by simp)]

instance : Returns TrackType where
  ofJson?_toJson {t} h := by
    have hLeast := ofJson?_float (h t.inclines.least (by simp [numbers]))
    have hGreatest := ofJson?_float (h t.inclines.greatest (by simp [numbers]))
    obtain ⟨f, hFields, hSlots⟩ := Json.exists_fields? ["id", "subnetwork", "min_incline", "max_incline"] rfl (by decide)
      (.refl [("id", toJson t.id), ("subnetwork", toJson t.subnetwork),
        ("min_incline", toJson t.inclines.least), ("max_incline", toJson t.inclines.greatest)])
    refine (congrArg (Option.bind · _) hFields).trans ?_
    simp only [List.forall_mem_cons] at hSlots
    simp [Fields.get, Fields.required, hSlots, Exact.ofJson?_toJson, hLeast, hGreatest, mapNumbers]

instance : Numbered Connection where
  numbers c := numbers c.startPoint ++ numbers c.stopPoint ++ numbers c.bounds ++ numbers c.trackType
  mapNumbers f c := { c with
    startPoint := mapNumbers f c.startPoint
    stopPoint := mapNumbers f c.stopPoint
    bounds := mapNumbers f c.bounds
    trackType := mapNumbers f c.trackType }
  mapNumbers_eq_self {f c} h := by
    simp only [List.forall_mem_append] at h
    obtain ⟨⟨⟨hStart, hStop⟩, hBounds⟩, hTrack⟩ := h
    rw [mapNumbers_eq_self hStart, mapNumbers_eq_self hStop, mapNumbers_eq_self hBounds, mapNumbers_eq_self hTrack]

instance : Returns Connection where
  ofJson?_toJson {c} h := by
    obtain ⟨h, hTrack⟩ := List.forall_mem_append.mp h
    obtain ⟨h, hBounds⟩ := List.forall_mem_append.mp h
    obtain ⟨hStart, hStop⟩ := List.forall_mem_append.mp h
    have hStart := Returns.ofJson?_toJson (a := c.startPoint) hStart
    have hStop := Returns.ofJson?_toJson (a := c.stopPoint) hStop
    have hBounds := Returns.ofJson?_toJson (a := c.bounds) hBounds
    have hTrack := Returns.ofJson?_toJson (a := c.trackType) hTrack
    obtain ⟨f, hFields, hSlots, hPlane⟩ := Json.exists_fields?_present
      ["id", "start", "end", "start_point", "end_point", "bounds", "track_type", "height_type", "straight",
        "height_plane"] "height_plane"
      [("id", toJson c.id), ("start", toJson c.start), ("end", toJson c.stop),
        ("start_point", toJson c.startPoint), ("end_point", toJson c.stopPoint), ("bounds", toJson c.bounds),
        ("track_type", toJson c.trackType), ("height_type", toJson c.heightType),
        ("straight", toJson c.straight)] [] rfl (by decide) (List.append_nil _).symm (ofJson?_plane c.plane) id
    refine (congrArg (Option.bind · _) hFields).trans ?_
    simp only [List.append_nil, List.forall_mem_cons] at hSlots
    simp [Fields.get, Fields.required, hSlots, hPlane, Exact.ofJson?_toJson, hStart, hStop, hBounds, hTrack,
      mapNumbers]

instance : Numbered Attachment where
  numbers t := [t.direction]
  mapNumbers f t := { t with direction := f t.direction }
  mapNumbers_eq_self {f t} h := by
    rw [h t.direction (by simp)]

instance : Returns Attachment where
  ofJson?_toJson {t} h := by
    have hDirection := ofJson?_float (h t.direction (by simp [numbers]))
    obtain ⟨f, hFields, hSlots⟩ := Json.exists_fields? ["connection", "direction"] rfl (by decide)
      (.refl [("connection", toJson t.connection), ("direction", toJson t.direction)])
    refine (congrArg (Option.bind · _) hFields).trans ?_
    simp only [List.forall_mem_cons] at hSlots
    simp [Fields.get, Fields.required, hSlots, Exact.ofJson?_toJson, hDirection, mapNumbers]

instance : Numbered Sides where
  numbers g := [g.forwardDirection]
  mapNumbers f g := { g with forwardDirection := f g.forwardDirection }
  mapNumbers_eq_self {f g} h := by
    rw [h g.forwardDirection (by simp)]

instance : Returns Sides where
  ofJson?_toJson {g} h := by
    have hDirection := ofJson?_float (h g.forwardDirection (by simp [numbers]))
    obtain ⟨f, hFields, hSlots⟩ := Json.exists_fields?
      ["forward", "backward", "forward_direction", "backward_desires_forward"] rfl (by decide)
      (.refl [("forward", toJson g.forward), ("backward", toJson g.backward),
        ("forward_direction", toJson g.forwardDirection),
        ("backward_desires_forward", toJson g.backwardDesiresForward)])
    refine (congrArg (Option.bind · _) hFields).trans ?_
    simp only [List.forall_mem_cons] at hSlots
    simp [Fields.get, Fields.required, hSlots, Exact.ofJson?_toJson, hDirection, mapNumbers]

instance : Numbered WayNode where
  numbers n := numbers n.position
  mapNumbers f n := { n with position := mapNumbers f n.position }
  mapNumbers_eq_self h := by
    rw [mapNumbers_eq_self h]

instance : Returns WayNode where
  ofJson?_toJson {n} h := by
    have hPosition := Returns.ofJson?_toJson (a := n.position) h
    obtain ⟨f, hFields, hSlots⟩ := Json.exists_fields? ["key", "position"] rfl (by decide)
      (.refl [("key", toJson n.key), ("position", toJson n.position)])
    refine (congrArg (Option.bind · _) hFields).trans ?_
    simp only [List.forall_mem_cons] at hSlots
    simp [Fields.get, Fields.required, hSlots, Exact.ofJson?_toJson, hPosition, mapNumbers]

/-! ## Tags and ways -/

theorem insertTag_of_lt {key value : String} {entries : List (String × String)} (h : ∀ e ∈ entries, e.1 < key) :
    insertTag key value entries = entries ++ [(key, value)] := by
  induction entries with
  | nil => rfl
  | cons e rest ih =>
    obtain ⟨hFirst, hRest⟩ := List.forall_mem_cons.mp h
    rw [insertTag, if_neg (String.lt_asymm hFirst), if_pos hFirst, ih hRest, List.cons_append]

namespace Tags

/-- Pairs in the order of their keys are the tags that they make. -/
theorem entries_ofList {pairs : List (String × String)} (h : pairs.Pairwise (·.1 < ·.1)) :
    (ofList pairs).entries = pairs := by
  induction pairs using List.reverseRecOn with
  | nil => rfl
  | append_singleton pairs p ih =>
    obtain ⟨hPairs, -, hLast⟩ := List.pairwise_append.mp h
    have hInsert : (ofList (pairs ++ [p])).entries = insertTag p.1 p.2 (ofList pairs).entries := by
      rw [ofList, List.foldl_append]
      rfl
    rw [hInsert, ih hPairs]
    apply insertTag_of_lt
    intro e he
    exact hLast e he p List.mem_cons_self

theorem ofList_entries (t : Tags) : ofList t.entries = t := by
  have hEntries := entries_ofList t.ordered
  cases t
  cases hOf : ofList _
  rw [hOf] at hEntries
  cases hEntries
  rfl

end Tags

instance : Exact Tags where
  ofJson?_toJson t := by
    have hMembers := Json.members?_record (t.entries.map fun e => (e.1, Json.text e.2))
    have hPairs : (t.entries.map fun e => (e.1, Json.text e.2)).mapM (fun m => m.2.string?.map (m.1, ·)) =
        some t.entries := by
      generalize t.entries = entries
      induction entries with
      | nil => rfl
      | cons e rest ih =>
        rw [List.map_cons, List.mapM_cons, ih]
        rfl
    refine (congrArg (Option.bind · _) hMembers).trans ?_
    refine (congrArg (Option.bind · _) hPairs).trans ?_
    exact congrArg some t.ofList_entries

instance : Numbered Way where
  numbers w := numbers w.nodes
  mapNumbers f w := { w with nodes := mapNumbers f w.nodes }
  mapNumbers_eq_self h := by
    rw [mapNumbers_eq_self h]

instance : Returns Way where
  ofJson?_toJson {w} h := by
    have hNodes := Returns.ofJson?_toJson (a := w.nodes) h
    obtain ⟨f, hFields, hSlots, hPlane⟩ := Json.exists_fields?_present ["id", "nodes", "height_plane", "tags"]
      "height_plane" [("id", toJson w.id), ("nodes", toJson w.nodes)] [("tags", toJson w.tags)] rfl (by decide) rfl
      (ofJson?_plane w.plane) id
    refine (congrArg (Option.bind · _) hFields).trans ?_
    simp only [List.forall_mem_cons, List.cons_append, List.nil_append] at hSlots
    have hTags : f.getD "tags" Tags.empty = some w.tags := by
      simp [Fields.getD, Fields.defaulted, hSlots, Exact.ofJson?_toJson]
    simp [Fields.get, Fields.required, hSlots, hPlane, hTags, Exact.ofJson?_toJson, hNodes, mapNumbers]

end TrackLayout
