import TrackLayout.Proofs.Table

/-!
# Selected entries of a table

A table may hold a selection of the entries of another one, in the same order
but under ids of its own. The id of a selected entry is the number of selected
ids below its old one, whether or not those still have entries. The relation
says nothing about entries that were not selected, and operations on those do
not disturb it.
-/
set_option autoImplicit false

namespace TrackLayout

variable {kind : IdKind} {α : Type}

/-- How many ids below a place are selected. -/
def rank (keep : Id kind → Bool) (place : Nat) : Nat :=
  (List.range place).countP fun k => keep ⟨k.toUInt32⟩

/-- The number a selected id gets when only selected ids are numbered. -/
def Id.renumber (keep : Id kind → Bool) (id : Id kind) : Id kind :=
  ⟨(rank keep id.val.toNat).toUInt32⟩

section Rank

variable (keep : Id kind → Bool)

theorem rank_succ (place : Nat) :
    rank keep (place + 1) = rank keep place + if keep ⟨place.toUInt32⟩ then 1 else 0 := by
  rw [rank, List.range_succ, List.countP_append, List.countP_singleton, rank]

theorem rank_le (place : Nat) : rank keep place ≤ place := by
  have hLe := List.countP_le_length (p := fun k : Nat => keep ⟨k.toUInt32⟩) (l := List.range place)
  rwa [List.length_range] at hLe

theorem rank_mono {m n : Nat} (h : m ≤ n) : rank keep m ≤ rank keep n := by
  induction h with
  | refl => exact Nat.le_refl _
  | step _ ih =>
    rw [rank_succ]
    omega

variable {keep}

/-- Only ids below a place count there. -/
theorem rank_congr {other : Id kind → Bool} {place : Nat} (hPlace : place ≤ UInt32.size)
    (h : ∀ id : Id kind, id.val.toNat < place → keep id = other id) : rank keep place = rank other place := by
  rw [rank, rank]
  refine List.countP_congr fun k hk => ?_
  have hLt := List.mem_range.mp hk
  rw [h ⟨k.toUInt32⟩]
  rw [Nat.toUInt32, UInt32.toNat_ofNat_of_lt' (by omega)]
  exact hLt

theorem toUInt32_toNat (id : Id kind) : (⟨id.val.toNat.toUInt32⟩ : Id kind) = id :=
  congrArg Id.mk (UInt32.toNat.inj (UInt32.toNat_ofNat_of_lt' id.val.toNat_lt))

theorem rank_lt {id : Id kind} (hKeep : keep id = true) {n : Nat} (h : id.val.toNat < n) :
    rank keep id.val.toNat < rank keep n := by
  have hSucc := rank_succ keep id.val.toNat
  have hMono : rank keep (id.val.toNat + 1) ≤ rank keep n := rank_mono keep h
  rw [toUInt32_toNat, if_pos hKeep] at hSucc
  omega

theorem toNat_renumber (id : Id kind) : (id.renumber keep).val.toNat = rank keep id.val.toNat :=
  UInt32.toNat_ofNat_of_lt' (Nat.lt_of_le_of_lt (rank_le keep _) id.val.toNat_lt)

/-- Renumbering keeps the order of selected ids. -/
theorem renumber_lt {m n : Id kind} (hm : keep m = true) (h : m.val < n.val) :
    (m.renumber keep).val < (n.renumber keep).val := by
  rw [UInt32.lt_iff_toNat_lt] at h ⊢
  rw [toNat_renumber, toNat_renumber]
  exact rank_lt hm h

theorem renumber_inj {m n : Id kind} (hm : keep m = true) (hn : keep n = true) :
    m.renumber keep = n.renumber keep ↔ m = n := by
  constructor
  · intro hSame
    have hRank : rank keep m.val.toNat = rank keep n.val.toNat := by
      rw [← toNat_renumber, hSame, toNat_renumber]
    rcases Nat.lt_trichotomy m.val.toNat n.val.toNat with hLt | hEq | hGt
    · have hLess := rank_lt hm hLt
      omega
    · rw [← toUInt32_toNat m, hEq, toUInt32_toNat]
    · have hLess := rank_lt hn hGt
      omega
  · rintro rfl
    rfl

theorem contains_map_renumber {ids : List (Id kind)} (hIds : ∀ m ∈ ids, keep m = true) {id : Id kind}
    (hId : keep id = true) : (ids.map (Id.renumber keep)).contains (id.renumber keep) = ids.contains id := by
  rw [Bool.eq_iff_iff, List.contains_iff_mem, List.contains_iff_mem, List.mem_map]
  constructor
  · rintro ⟨other, hOther, hSame⟩
    exact (renumber_inj (hIds other hOther) hId).mp hSame ▸ hOther
  · intro hMem
    exact ⟨id, hMem, rfl⟩

/-- The numbers below the rank of a place are those of the selected ids below it. -/
theorem exists_renumber {place k : Nat} (hPlace : place ≤ UInt32.size) (hk : k < rank keep place) :
    ∃ id : Id kind, keep id = true ∧ id.val.toNat < place ∧ (id.renumber keep).val.toNat = k := by
  induction place with
  | zero => exact absurd hk (Nat.not_lt_zero _)
  | succ place ih =>
    rw [rank_succ] at hk
    rcases Nat.lt_or_ge k (rank keep place) with hBelow | hAbove
    · obtain ⟨id, hKeep, hLt, hId⟩ := ih (by omega) hBelow
      exact ⟨id, hKeep, by omega, hId⟩
    · have hVal : (⟨place.toUInt32⟩ : Id kind).val.toNat = place := UInt32.toNat_ofNat_of_lt' (by omega)
      split at hk
      · next hKeep => exact ⟨⟨place.toUInt32⟩, hKeep, by omega, by rw [toNat_renumber, hVal]; omega⟩
      · omega

end Rank

namespace Table

/-- `part` holds the selected entries of `t`, seen through `f`, under their new ids. -/
structure Selects (keep : Id kind → Bool) (f : α → α) (t part : Table kind α) : Prop where
  size : part.slots.size = rank keep t.slots.size
  get? : ∀ id, keep id = true → part.get? (id.renumber keep) = (t.get? id).map f

variable {keep : Id kind → Bool} {f : α → α} {t t' part part' : Table kind α}

theorem Selects.empty : Selects keep f Table.empty Table.empty :=
  ⟨rfl, fun id _ => by rw [get?_empty, get?_empty, Option.map_none]⟩

namespace Selects

variable (h : t.Selects keep f part)
include h

theorem mem_iff {new : Id kind} {b : α} : part.get? new = some b ↔
    ∃ id a, keep id = true ∧ t.get? id = some a ∧ new = id.renumber keep ∧ b = f a := by
  constructor
  · intro hNew
    have hIssued := hasIssued_iff.mp (hasIssued_of_get? hNew)
    rw [h.size] at hIssued
    obtain ⟨id, hKeep, -, hId⟩ := exists_renumber (Nat.le_of_lt t.slots_lt) hIssued
    have hSame : id.renumber keep = new := congrArg Id.mk (UInt32.toNat.inj hId)
    rw [← hSame, h.get? id hKeep] at hNew
    obtain ⟨a, ha, rfl⟩ := Option.map_eq_some_iff.mp hNew
    exact ⟨id, a, hKeep, ha, hSame.symm, rfl⟩
  · rintro ⟨id, a, hKeep, ha, rfl, rfl⟩
    rw [h.get? id hKeep, ha, Option.map_some]

/-- A change of single entries that both tables make alike. -/
theorem update (g g' : Id kind → α → α) (hSize : t'.slots.size = t.slots.size)
    (hSize' : part'.slots.size = part.slots.size)
    (hGet : ∀ id, keep id = true → t'.get? id = (t.get? id).map (g id))
    (hGet' : ∀ id, keep id = true →
      part'.get? (id.renumber keep) = (part.get? (id.renumber keep)).map (g' id))
    (hAlike : ∀ id a, keep id = true → t.get? id = some a → f (g id a) = g' id (f a)) :
    t'.Selects keep f part' where
  size := by rw [hSize, hSize', h.size]
  get? id hKeep := by
    rw [hGet' id hKeep, h.get? id hKeep, hGet id hKeep]
    cases ha : t.get? id with
    | none => rfl
    | some a => simp only [Option.map_some, hAlike id a hKeep ha]

theorem modify {id : Id kind} (hKeep : keep id = true) {g g' : α → α}
    (hAlike : ∀ a, t.get? id = some a → f (g a) = g' (f a)) :
    (t.modify id g).Selects keep f (part.modify (id.renumber keep) g') := by
  refine h.update (fun other => if other = id then g else fun a => a)
    (fun other => if other = id then g' else fun a => a) (slots_size_modify ..)
    (slots_size_modify ..) (fun other _ => ?_) (fun other hOther => ?_) (fun other a _ ha => ?_)
  · rw [get?_modify]
    split <;> simp
  · simp only [get?_modify, renumber_inj hOther hKeep]
    split <;> simp
  · split
    · next hSame => exact hAlike a (hSame ▸ ha)
    · rfl

theorem modify_dropped {id : Id kind} (hDrop : keep id = false) (g : α → α) :
    (t.modify id g).Selects keep f part := by
  refine ⟨by rw [slots_size_modify, h.size], fun other hOther => ?_⟩
  rw [h.get? other hOther, get?_modify, if_neg]
  rintro rfl
  rw [hDrop] at hOther
  cases hOther

theorem map {g g' : α → α} (hAlike : ∀ id a, keep id = true → t.get? id = some a → f (g a) = g' (f a)) :
    (t.map g).Selects keep f (part.map g') :=
  h.update (fun _ => g) (fun _ => g') (slots_size_map ..) (slots_size_map ..)
    (fun _ _ => get?_map ..) (fun _ _ => get?_map ..) hAlike

theorem filter {p q : α → Bool} (hAlike : ∀ a, q (f a) = p a) :
    (t.filter p).Selects keep f (part.filter q) where
  size := by rw [slots_size_filter, slots_size_filter, h.size]
  get? id hKeep := by
    rw [get?_filter, get?_filter, h.get? id hKeep]
    cases t.get? id with
    | none => rfl
    | some a =>
      simp only [Option.map_some, Option.filter_some, hAlike]
      split <;> rfl

/-- A selected new entry gets the next number of the selection. -/
theorem add? {entry : Id kind → α} (entry' : Id kind → α) {id : Id kind} (hAdd : t.add? entry = some (id, t'))
    (hKeep : keep id = true) (hAlike : entry' (id.renumber keep) = f (entry id)) :
    ∃ part', part.add? entry' = some (id.renumber keep, part') ∧ t'.Selects keep f part' := by
  have hVal := id_add? hAdd
  have hSize := slots_size_add? hAdd
  have hRoom : part.slots.size + 1 < UInt32.size := by
    have hLt := t'.slots_lt
    have hRank := rank_le keep t.slots.size
    rw [h.size]
    omega
  obtain ⟨⟨new, part'⟩, hPart⟩ : ∃ added, part.add? entry' = some added :=
    Option.isSome_iff_exists.mp (by simp [Table.add?, hRoom])
  have hNew : new = id.renumber keep := congrArg Id.mk <| UInt32.toNat.inj <| by
    rw [id_add? hPart, h.size, ← hVal]
    exact (toNat_renumber id).symm
  subst hNew
  refine ⟨part', hPart, ?_, ?_⟩
  · rw [slots_size_add? hPart, hSize, rank_succ, h.size, ← hVal, toUInt32_toNat, if_pos hKeep]
  · intro other hOther
    rw [get?_add? hPart, get?_add? hAdd]
    simp only [renumber_inj hOther hKeep]
    split
    · rw [hAlike, Option.map_some]
    · exact h.get? other hOther

theorem add?_dropped {entry : Id kind → α} {id : Id kind} (hAdd : t.add? entry = some (id, t'))
    (hDrop : keep id = false) : t'.Selects keep f part := by
  refine ⟨?_, fun other hOther => ?_⟩
  · rw [slots_size_add? hAdd, rank_succ, h.size, ← id_add? hAdd, toUInt32_toNat, hDrop]
    rfl
  · rw [h.get? other hOther, get?_add? hAdd, if_neg]
    rintro rfl
    rw [hDrop] at hOther
    cases hOther

/-- The selected entries stand in their old order. -/
theorem toList_eq :
    part.toList = (t.toList.filter fun e => keep e.1).map fun e => (e.1.renumber keep, f e.2) := by
  have hOrder (u : Table kind α) : u.toList.Pairwise (·.1.val < ·.1.val) := by
    have hIds := ids_pairwise u
    rwa [ids, List.pairwise_map] at hIds
  have hSelected : ((t.toList.filter fun e => keep e.1).map fun e => (e.1.renumber keep, f e.2)).Pairwise
      (·.1.val < ·.1.val) := by
    rw [List.pairwise_map]
    refine ((hOrder t).sublist List.filter_sublist).imp_of_mem fun {a b} ha _ hLt => ?_
    exact renumber_lt (List.mem_filter.mp ha).2 hLt
  have hIrrefl : ∀ e : Id kind × α, ¬e.1.val < e.1.val := fun e => UInt32.lt_irrefl _
  have hMem : ∀ e, e ∈ part.toList ↔
      e ∈ (t.toList.filter fun e => keep e.1).map fun e => (e.1.renumber keep, f e.2) := by
    rintro ⟨new, b⟩
    rw [mem_toList, h.mem_iff, List.mem_map]
    constructor
    · rintro ⟨id, a, hKeep, ha, rfl, rfl⟩
      exact ⟨(id, a), List.mem_filter.mpr ⟨mem_toList.mpr ha, hKeep⟩, rfl⟩
    · rintro ⟨⟨id, a⟩, hId, hSame⟩
      obtain ⟨ha, hKeep⟩ := List.mem_filter.mp hId
      obtain ⟨rfl, rfl⟩ := Prod.mk.inj hSame
      exact ⟨id, a, hKeep, mem_toList.mp ha, rfl, rfl⟩
  have hPerm := (List.perm_ext_iff_of_nodup
    ((hOrder part).imp fun {a b} hLt => by rintro rfl; exact hIrrefl a hLt)
    (hSelected.imp fun {a b} hLt => by rintro rfl; exact hIrrefl a hLt)).mpr hMem
  exact hPerm.eq_of_pairwise (fun a b _ _ hab hba => absurd (UInt32.lt_trans hab hba) (hIrrefl a))
    (hOrder part) hSelected

theorem ids_eq : part.ids = (t.ids.filter keep).map (Id.renumber keep) := by
  rw [ids, h.toList_eq, List.map_map, ids, List.filter_map, List.map_map]
  rfl

end Selects

end Table

end TrackLayout
