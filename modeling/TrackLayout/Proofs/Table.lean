import Mathlib.Data.List.Basic
import TrackLayout.Table

/-!
# Laws of tables

Two tables are equal if they have handed out as many ids and hold the same
entries under them. Going through a table in order commutes with every
operation that works entry by entry, and the ids met on the way increase and
have all been handed out.
-/
set_option autoImplicit false

namespace TrackLayout.Table

variable {kind : IdKind} {α : Type}

/-- The counter of the table has passed the number. -/
def HasIssued (t : Table kind α) (id : Id kind) : Prop := id.val < t.counter.next

theorem hasIssued_iff {t : Table kind α} {id : Id kind} :
    t.HasIssued id ↔ id.val.toNat < t.slots.size := by
  rw [HasIssued, UInt32.lt_iff_toNat_lt, counter, toNat_size]

theorem get?_place {t : Table kind α} {place : Nat} (h : place < t.slots.size) :
    t.get? ⟨place.toUInt32⟩ = t.slots[place] := by
  rw [get?, toNat_place h, Array.getElem?_eq_getElem h, Option.join_some]

theorem get?_eq_none {t : Table kind α} {id : Id kind} (h : ¬t.HasIssued id) : t.get? id = none := by
  rw [hasIssued_iff, Nat.not_lt] at h
  rw [get?, Array.getElem?_eq_none h, Option.join_none]

theorem hasIssued_of_get? {t : Table kind α} {id : Id kind} {a : α} (h : t.get? id = some a) :
    t.HasIssued id := by
  by_contra hFresh
  rw [get?_eq_none hFresh] at h
  cases h

theorem ext_get? {t u : Table kind α} (hSize : t.slots.size = u.slots.size)
    (h : ∀ id, t.get? id = u.get? id) : t = u := by
  have hSlots : t.slots = u.slots := by
    refine Array.ext hSize fun place ht hu => ?_
    rw [← get?_place ht, ← get?_place hu, h]
  cases t
  cases u
  simpa using hSlots

/-! ## Sizes -/

@[simp] theorem slots_size_modify (t : Table kind α) (id : Id kind) (f : α → α) :
    (t.modify id f).slots.size = t.slots.size := Array.size_modify

@[simp] theorem slots_size_map (t : Table kind α) (f : α → α) :
    (t.map f).slots.size = t.slots.size := Array.size_map

@[simp] theorem slots_size_filter (t : Table kind α) (keep : α → Bool) :
    (t.filter keep).slots.size = t.slots.size := Array.size_map

theorem slots_size_add? {t u : Table kind α} {entry : Id kind → α} {id : Id kind}
    (h : t.add? entry = some (id, u)) : u.slots.size = t.slots.size + 1 := by
  unfold add? at h
  split at h
  · cases h
    exact Array.size_push _
  · cases h

theorem le_of_add?_eq_none {t : Table kind α} {entry : Id kind → α} (h : t.add? entry = none) :
    UInt32.size ≤ t.slots.size + 1 := by
  unfold add? at h
  split at h
  · cases h
  · next hFull => exact Nat.le_of_not_lt hFull

/-- A new entry gets the first number that was not handed out. -/
theorem id_add? {t u : Table kind α} {entry : Id kind → α} {id : Id kind}
    (h : t.add? entry = some (id, u)) : id.val.toNat = t.slots.size := by
  unfold add? at h
  split at h
  · cases h
    exact t.toNat_size
  · cases h

theorem get?_fresh {t u : Table kind α} {entry : Id kind → α} {id : Id kind}
    (h : t.add? entry = some (id, u)) : t.get? id = none :=
  get?_eq_none (by rw [hasIssued_iff, id_add? h]; exact Nat.lt_irrefl _)

/-! ## Entry by entry -/

theorem map_eq_of_get? {t u : Table kind α} {g : α → α} (hSize : t.slots.size = u.slots.size)
    (h : ∀ id, (t.get? id).map g = (u.get? id).map g) : t.map g = u.map g :=
  ext_get? (by simpa using hSize) fun id => by rw [get?_map, get?_map, h]

theorem get?_of_map_eq {t u : Table kind α} {g : α → α} (h : t.map g = u.map g) (id : Id kind) :
    (t.get? id).map g = (u.get? id).map g := by rw [← get?_map, ← get?_map, h]

theorem slots_size_of_map_eq {t u : Table kind α} {g : α → α} (h : t.map g = u.map g) :
    t.slots.size = u.slots.size := by
  simpa using congrArg (fun t => t.slots.size) h

/-- A change that a view does not show. -/
theorem map_modify {f g : α → α} (h : ∀ a, g (f a) = g a) (t : Table kind α) (id : Id kind) :
    (t.modify id f).map g = t.map g := by
  refine map_eq_of_get? (slots_size_modify ..) fun other => ?_
  rw [get?_modify]
  split
  · cases t.get? other <;> simp [h]
  · rfl

theorem map_map {f g : α → α} (h : ∀ a, g (f a) = g a) (t : Table kind α) :
    (t.map f).map g = t.map g := by
  refine map_eq_of_get? (slots_size_map ..) fun other => ?_
  rw [get?_map]
  cases t.get? other <;> simp [h]

theorem map_comp (t : Table kind α) (f g : α → α) : (t.map f).map g = t.map (g ∘ f) := by
  refine ext_get? (by simp) fun place => ?_
  rw [get?_map, get?_map, get?_map, Option.map_map]

theorem filter_eq_self {t : Table kind α} {keep : α → Bool}
    (h : ∀ id a, t.get? id = some a → keep a = true) : t.filter keep = t := by
  refine ext_get? (slots_size_filter ..) fun id => ?_
  rw [get?_filter]
  cases hGet : t.get? id with
  | none => rfl
  | some a => rw [Option.filter_some, if_pos (h id a hGet)]

theorem modify_of_absent {t : Table kind α} {id : Id kind} (h : t.get? id = none) (f : α → α) :
    t.modify id f = t := by
  refine ext_get? (slots_size_modify ..) fun other => ?_
  rw [get?_modify]
  split
  · next hOther => rw [hOther, h, Option.map_none]
  · rfl

/-! ## In order -/

theorem toList_map (t : Table kind α) (f : α → α) :
    (t.map f).toList = t.toList.map fun e => (e.1, f e.2) := by
  simp only [toList, map, Array.toList_map, List.zipIdx_map, List.filterMap_map, List.map_filterMap]
  congr
  funext e
  obtain ⟨slot, place⟩ := e
  cases slot <;> rfl

theorem values_map (t : Table kind α) (f : α → α) : (t.map f).values = t.values.map f := by
  rw [← map_snd_toList, ← map_snd_toList, toList_map, List.map_map, List.map_map]
  rfl

theorem toList_filter (t : Table kind α) (keep : α → Bool) :
    (t.filter keep).toList = t.toList.filter fun e => keep e.2 := by
  simp only [toList, filter, Array.toList_map, List.zipIdx_map, List.filterMap_map, List.filter_filterMap]
  congr
  funext e
  obtain ⟨slot, place⟩ := e
  cases slot with
  | none => rfl
  | some a => cases hKeep : keep a <;> simp [Option.filter_some, hKeep]

theorem toList_add? {t u : Table kind α} {entry : Id kind → α} {id : Id kind}
    (h : t.add? entry = some (id, u)) : u.toList = t.toList ++ [(id, entry id)] := by
  unfold add? at h
  split at h
  · cases h
    simp [toList, List.zipIdx_append]
  · cases h

theorem ids_map (t : Table kind α) (f : α → α) : (t.map f).ids = t.ids := by
  simp [ids, toList_map]

theorem ids_of_map_eq {t u : Table kind α} {g : α → α} (h : t.map g = u.map g) : t.ids = u.ids := by
  rw [← ids_map t g, h, ids_map]

theorem mem_ids {t : Table kind α} {id : Id kind} : id ∈ t.ids ↔ ∃ a, t.get? id = some a := by
  simp [ids, mem_toList]

theorem mem_values {t : Table kind α} {a : α} : a ∈ t.values ↔ ∃ id, t.get? id = some a := by
  simp [← map_snd_toList, mem_toList]

theorem size_eq_length (t : Table kind α) : t.size = t.ids.length := by
  simp [size, ids, ← map_snd_toList]

theorem size_of_map_eq {t u : Table kind α} {g : α → α} (h : t.map g = u.map g) : t.size = u.size := by
  rw [size_eq_length, size_eq_length, ids_of_map_eq h]

theorem ids_modify (t : Table kind α) (id : Id kind) (f : α → α) : (t.modify id f).ids = t.ids := by
  cases hGet : t.get? id with
  | none => rw [modify_of_absent hGet]
  | some a => exact ids_of_map_eq (map_modify (g := fun _ => a) (fun _ => rfl) t id)

theorem size_modify (t : Table kind α) (id : Id kind) (f : α → α) : (t.modify id f).size = t.size := by
  rw [size_eq_length, ids_modify, size_eq_length]

theorem size_add? {t u : Table kind α} {entry : Id kind → α} {id : Id kind}
    (h : t.add? entry = some (id, u)) : u.size = t.size + 1 := by
  rw [size_eq_length, size_eq_length, ids, ids, toList_add? h]
  simp

/-- A change of one entry leaves the entries before it and behind it as they are. -/
theorem exists_values_modify {t : Table kind α} {id : Id kind} {a : α} (h : t.get? id = some a) (f : α → α) :
    ∃ before behind, t.values = before ++ a :: behind ∧ (t.modify id f).values = before ++ f a :: behind := by
  rw [get?, Option.join_eq_some_iff, ← Array.getElem?_toList] at h
  obtain ⟨hPlace, -⟩ := List.getElem?_eq_some_iff.mp h
  obtain ⟨before, slot, behind, hSlots, hLength, hModify⟩ := List.exists_of_modify (Option.map f) hPlace
  obtain rfl : slot = some a := by simpa [hSlots, ← hLength] using h
  refine ⟨before.filterMap fun slot => slot, behind.filterMap fun slot => slot, ?_, ?_⟩
  · rw [values, hSlots]
    simp
  · rw [values, modify, Array.toList_modify, hModify]
    simp

/-- Ids increase along a table. -/
theorem ids_pairwise (t : Table kind α) : t.ids.Pairwise (·.val < ·.val) := by
  have hPlaces : t.slots.toList.zipIdx.Pairwise (·.2 < ·.2) := by
    rw [← List.pairwise_map (f := Prod.snd), List.zipIdx_map_snd]
    exact List.pairwise_lt_range' ..
  rw [ids, List.pairwise_map, toList, List.pairwise_filterMap]
  refine hPlaces.imp_of_mem fun {x y} hx hy hlt a ha b hb => ?_
  obtain ⟨x, m⟩ := x
  obtain ⟨y, n⟩ := y
  obtain ⟨_, rfl, rfl⟩ := Option.map_eq_some_iff.mp ha
  obtain ⟨_, rfl, rfl⟩ := Option.map_eq_some_iff.mp hb
  have hm := (List.mem_zipIdx hx).2.1
  have hn := (List.mem_zipIdx hy).2.1
  simp only [Nat.zero_add, Array.length_toList] at hm hn
  rw [UInt32.lt_iff_toNat_lt, toNat_place hm, toNat_place hn]
  exact hlt

theorem ids_nodup (t : Table kind α) : t.ids.Nodup := by
  refine t.ids_pairwise.imp fun {a b} hlt => ?_
  rintro rfl
  exact UInt32.lt_irrefl _ hlt

end TrackLayout.Table
