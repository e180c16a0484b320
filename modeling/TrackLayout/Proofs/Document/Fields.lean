import Mathlib.Data.List.Nodup
import TrackLayout.Document.Fields

/-!
# Records among other members

An object may show some of the fields of a record, each of them once, in any
order and among members of other names. Of every field it then tells whether it
is given, and with which value.
-/
set_option autoImplicit false

namespace TrackLayout

namespace Fields

variable {V : Type} {fields members : List (String × V)} {given : String → Bool}

/-- Members that are the given ones of the fields and others under names of their own. -/
def Shows (fields : List (String × V)) (given : String → Bool) (members : List (String × V)) : Prop :=
  ∃ others, members.Perm (fields.filter (given ·.1) ++ others) ∧ ∀ m ∈ others, m.1 ∉ fields.map Prod.fst

theorem shows_self (fields : List (String × V)) : Shows fields (fun _ => true) fields :=
  ⟨[], by rw [List.filter_true, List.append_nil], by simp⟩

/-- What a record tells of one of its fields. -/
def shown (given : String → Bool) (f : String × V) : Slot V := if given f.1 then .given f.2 else .unnamed

theorem filter_name (h : (fields.map Prod.fst).Nodup) {f : String × V} (hf : f ∈ fields) :
    fields.filter (·.1 == f.1) = [f] := by
  induction fields with
  | nil => cases hf
  | cons g rest ih =>
    obtain ⟨hFirst, hRest⟩ := List.nodup_cons.mp h
    rcases List.mem_cons.mp hf with rfl | hf
    · have hNone : rest.filter (·.1 == f.1) = [] := List.filter_eq_nil_iff.mpr fun e he hSame =>
        hFirst (List.mem_map.mpr ⟨e, he, eq_of_beq hSame⟩)
      simp [hNone]
    · have hNe : ¬(g.1 == f.1) = true := fun hSame =>
        hFirst (List.mem_map.mpr ⟨f, hf, (eq_of_beq hSame).symm⟩)
      simp [hNe, ih hRest hf]

theorem named?_of_shows (hNames : (fields.map Prod.fst).Nodup) (h : Shows fields given members) {f : String × V}
    (hf : f ∈ fields) : named? members f.1 = some (f.1, shown given f) := by
  obtain ⟨others, hPerm, hOthers⟩ := h
  have hNone : others.filter (·.1 == f.1) = [] := List.filter_eq_nil_iff.mpr fun m hm hSame =>
    hOthers m hm (eq_of_beq hSame ▸ List.mem_map_of_mem hf)
  have hFilter := hPerm.filter (·.1 == f.1)
  rw [List.filter_append, hNone, List.append_nil, List.filter_comm, filter_name hNames hf] at hFilter
  rw [named?, shown]
  cases hGiven : given f.1 with
  | true =>
    have hOne : [f].filter (given ·.1) = [f] := by simp [hGiven]
    rw [hOne] at hFilter
    rw [List.perm_singleton.mp hFilter]
    rfl
  | false =>
    have hNothing : [f].filter (given ·.1) = [] := by simp [hGiven]
    rw [hNothing] at hFilter
    rw [List.perm_nil.mp hFilter]
    rfl

theorem ofNamed?_of_shows (hNames : (fields.map Prod.fst).Nodup) (h : Shows fields given members) :
    ofNamed? (fields.map Prod.fst) members = some ⟨fields.map fun f => (f.1, shown given f)⟩ := by
  have hAll : ∀ {part : List (String × V)}, (∀ f ∈ part, f ∈ fields) →
      (part.map Prod.fst).mapM (named? members) = some (part.map fun f => (f.1, shown given f)) := by
    intro part hSub
    induction part with
    | nil => rfl
    | cons f rest ih =>
      obtain ⟨hFirst, hRest⟩ := List.forall_mem_cons.mp hSub
      rw [List.map_cons, List.mapM_cons, ih hRest, named?_of_shows hNames h hFirst]
      rfl
  rw [ofNamed?, hAll fun _ hf => hf]
  rfl

theorem ofNamed?_self (hNames : (fields.map Prod.fst).Nodup) :
    ofNamed? (fields.map Prod.fst) fields = some ⟨fields.map fun f => (f.1, .given f.2)⟩ :=
  ofNamed?_of_shows hNames (shows_self fields)

theorem slot_of_mem (hNames : (fields.map Prod.fst).Nodup) {f : String × V} (hf : f ∈ fields) :
    slot ⟨fields.map fun f => (f.1, shown given f)⟩ f.1 = shown given f := by
  induction fields with
  | nil => cases hf
  | cons g rest ih =>
    obtain ⟨hFirst, hRest⟩ := List.nodup_cons.mp hNames
    rw [slot, List.map_cons, List.lookup_cons]
    rcases List.mem_cons.mp hf with rfl | hf
    · rw [beq_self_eq_true]
      rfl
    · have hNe : (f.1 == g.1) = false := by
        rw [beq_eq_false_iff_ne]
        exact fun hSame => hFirst (hSame ▸ List.mem_map_of_mem hf)
      rw [hNe]
      exact ih hRest hf

section Reading

variable {α : Type} {f : String × V} (hNames : (fields.map Prod.fst).Nodup) (hf : f ∈ fields)

include hNames hf

theorem defaulted_of_mem (read : V → Option α) (value : α) :
    defaulted ⟨fields.map fun f => (f.1, shown given f)⟩ f.1 read value =
      if given f.1 then read f.2 else some value := by
  rw [defaulted, slot_of_mem hNames hf, shown]
  cases given f.1 <;> rfl

/-- A field that is readable if it is given has its value or the default one. -/
theorem defaulted_eq_some {read : V → Option α} {a value : α} (h : given f.1 = true → read f.2 = some a) :
    defaulted ⟨fields.map fun f => (f.1, shown given f)⟩ f.1 read value = some (if given f.1 then a else value) := by
  rw [defaulted_of_mem hNames hf]
  split
  · next hGiven => exact h hGiven
  · rfl

theorem defaulted_eq_none {read : V → Option α} {value : α} (hGiven : given f.1 = true) (h : read f.2 = none) :
    defaulted ⟨fields.map fun f => (f.1, shown given f)⟩ f.1 read value = none := by
  rw [defaulted_of_mem hNames hf, if_pos hGiven, h]

end Reading

end Fields

end TrackLayout
