import TrackLayout.Id

/-!
# Tables

The entries of a network under the ids they were created with. The id of an
entry is its place among all entries ever created, so walking a table from its
first place to its last goes through the entries in the order of their ids.
What each operation does is stated as what it does to `get?`.
-/
set_option autoImplicit false

namespace TrackLayout

structure Table (kind : IdKind) (α : Type) where
  /-- One place for each id handed out so far, empty once its entry is removed. -/
  slots : Array (Option α)
  slots_lt : slots.size < UInt32.size

namespace Table

variable {kind : IdKind} {α : Type}

def empty : Table kind α := ⟨#[], (by decide : 0 < UInt32.size)⟩

instance : Inhabited (Table kind α) := ⟨empty⟩

/-- The counter the ids of the table come from. -/
def counter (t : Table kind α) : IdCounter := ⟨t.slots.size.toUInt32⟩

/-- A new entry, made from its id; none when the ids have run out. -/
def add? (t : Table kind α) (entry : Id kind → α) : Option (Id kind × Table kind α) :=
  if h : t.slots.size + 1 < UInt32.size then
    let id := ⟨t.slots.size.toUInt32⟩
    some (id, ⟨t.slots.push (some (entry id)), by simpa using h⟩)
  else none

def get? (t : Table kind α) (id : Id kind) : Option α := t.slots[id.val.toNat]?.join

def contains (t : Table kind α) (id : Id kind) : Bool := (t.get? id).isSome

def modify (t : Table kind α) (id : Id kind) (f : α → α) : Table kind α :=
  ⟨t.slots.modify id.val.toNat (Option.map f), by simpa using t.slots_lt⟩

def map (t : Table kind α) (f : α → α) : Table kind α :=
  ⟨t.slots.map (Option.map f), by simpa using t.slots_lt⟩

/-- Removes the entries that fail the test; their ids stay handed out. -/
def filter (t : Table kind α) (keep : α → Bool) : Table kind α :=
  ⟨t.slots.map (Option.filter keep), by simpa using t.slots_lt⟩

/-- The entries with their ids, in order. -/
def toList (t : Table kind α) : List (Id kind × α) :=
  t.slots.toList.zipIdx.filterMap fun (slot, place) => slot.map fun a => (⟨place.toUInt32⟩, a)

def ids (t : Table kind α) : List (Id kind) := t.toList.map (·.1)

def values (t : Table kind α) : List α := t.slots.toList.filterMap id

def size (t : Table kind α) : Nat := t.values.length

def isEmpty (t : Table kind α) : Bool := t.values.isEmpty

/-! ## Ids and places -/

theorem toNat_place {t : Table kind α} {place : Nat} (h : place < t.slots.size) :
    place.toUInt32.toNat = place := Nat.mod_eq_of_lt (Nat.lt_trans h t.slots_lt)

theorem toNat_size (t : Table kind α) : t.slots.size.toUInt32.toNat = t.slots.size :=
  Nat.mod_eq_of_lt t.slots_lt

/-! ## Entries by id -/

theorem get?_empty (id : Id kind) : (empty : Table kind α).get? id = none := by
  simp [get?, empty]

theorem get?_add? {t new : Table kind α} {entry : Id kind → α} {fresh : Id kind}
    (h : t.add? entry = some (fresh, new)) (id : Id kind) :
    new.get? id = if id = fresh then some (entry fresh) else t.get? id := by
  unfold add? at h
  split at h
  · cases h
    rw [get?, get?, Array.getElem?_push]
    by_cases same : id = ⟨t.slots.size.toUInt32⟩
    · rw [if_pos same, if_pos (by rw [same]; exact t.toNat_size)]
      rfl
    · have other : id.val.toNat ≠ t.slots.size := fun place => same <| by
        cases id
        exact congrArg Id.mk (UInt32.toNat.inj (place.trans t.toNat_size.symm))
      rw [if_neg same, if_neg other]
  · cases h

theorem get?_modify (t : Table kind α) (target : Id kind) (f : α → α) (id : Id kind) :
    (t.modify target f).get? id = if id = target then (t.get? id).map f else t.get? id := by
  have places : (target.val.toNat = id.val.toNat) = (id = target) := propext
    ⟨fun place => by cases id; cases target; exact congrArg Id.mk (UInt32.toNat.inj place.symm),
      fun same => same ▸ rfl⟩
  simp only [get?, modify, Array.getElem?_modify, places]
  split
  · cases t.slots[id.val.toNat]? <;> rfl
  · rfl

theorem get?_map (t : Table kind α) (f : α → α) (id : Id kind) :
    (t.map f).get? id = (t.get? id).map f := by
  rw [get?, get?, map, Array.getElem?_map]
  cases t.slots[id.val.toNat]? <;> rfl

theorem get?_filter (t : Table kind α) (keep : α → Bool) (id : Id kind) :
    (t.filter keep).get? id = (t.get? id).filter keep := by
  rw [get?, get?, filter, Array.getElem?_map]
  cases t.slots[id.val.toNat]? <;> rfl

/-! ## Entries in order -/

theorem map_snd_toList (t : Table kind α) : t.toList.map (·.2) = t.values := by
  rw [toList, values, List.map_filterMap]
  conv => rhs; rw [← List.zipIdx_map_fst 0 t.slots.toList, List.filterMap_map]
  congr
  funext ⟨slot, place⟩
  cases slot <;> rfl

theorem mem_toList {t : Table kind α} {id : Id kind} {a : α} :
    (id, a) ∈ t.toList ↔ t.get? id = some a := by
  simp only [toList, get?, List.mem_filterMap, Prod.exists, List.mk_mem_zipIdx_iff_getElem?,
    Array.getElem?_toList, Option.map_eq_some_iff, Prod.mk.injEq, Option.join_eq_some_iff]
  constructor
  · rintro ⟨_, place, present, b, rfl, rfl, rfl⟩
    rw [toNat_place (Array.getElem?_eq_some_iff.mp present).1]
    exact present
  · intro present
    exact ⟨_, _, present, a, rfl, congrArg Id.mk (UInt32.toNat.inj <|
      toNat_place (Array.getElem?_eq_some_iff.mp present).1), rfl⟩

end Table

end TrackLayout
