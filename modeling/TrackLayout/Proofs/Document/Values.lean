import TrackLayout.Document.Track
import TrackLayout.Proofs.Document.Fields
import TrackLayout.Proofs.Json.Reread

/-!
# Values of documents read back

Integers, truth values and ids are read back from their JSON form as they were,
a list item by item, a record field by field, and a number as far as it comes
back.
-/
set_option autoImplicit false

namespace TrackLayout

open Document (toJson ofJson?)

namespace Json

theorem toInt?_ofInt (n : Int) : (Numeral.ofInt n).toInt? = some n := by
  cases n with
  | ofNat n => rfl
  | negSucc n => rw [Numeral.ofInt, decide_eq_true (Int.negSucc_lt_zero n)]; rfl

theorem int?_ofInt {least greatest n : Int} (hLow : least ≤ n) (hHigh : n ≤ greatest) :
    (ofInt n).int? least greatest = some n := by
  rw [ofInt, int?, toInt?_ofInt, Option.filter_some, if_pos]
  rw [decide_eq_true hLow, decide_eq_true hHigh]
  rfl

theorem int?_ofNat {least greatest : Int} {n : Nat} (hLow : least ≤ n) (hHigh : n ≤ greatest) :
    (ofNat n).int? least greatest = some (n : Int) := int?_ofInt (n := n) hLow hHigh

theorem uint32?_ofNat (n : UInt32) : (ofNat n.toNat).uint32? = some n := by
  have hTop : (n.toNat : Int) ≤ Int.pow 2 32 - 1 := by
    have hLess := n.toNat_lt
    change (n.toNat : Int) ≤ 2 ^ 32 - 1
    omega
  rw [uint32?, int?_ofNat (Int.natCast_nonneg _) hTop, Option.map_some, Int.toNat_natCast]
  exact congrArg some UInt32.ofNat_toNat

theorem uint64?_ofNat (n : UInt64) : (ofNat n.toNat).uint64? = some n := by
  have hTop : (n.toNat : Int) ≤ Int.pow 2 64 - 1 := by
    have hLess := n.toNat_lt
    change (n.toNat : Int) ≤ 2 ^ 64 - 1
    omega
  rw [uint64?, int?_ofNat (Int.natCast_nonneg _) hTop, Option.map_some, Int.toNat_natCast]
  exact congrArg some UInt64.ofNat_toNat

theorem int64?_ofInt (n : Int64) : (ofInt n.toInt).int64? = some n := by
  have hLow : -Int.pow 2 63 ≤ n.toInt := n.le_toInt
  have hHigh : n.toInt ≤ Int.pow 2 63 - 1 := by
    have hLess := n.toInt_lt
    change n.toInt ≤ 2 ^ 63 - 1
    omega
  rw [int64?, int?_ofInt hLow hHigh, Option.map_some, Int64.ofInt_toInt]

theorem list?_ofList {α β : Type} {read : Json → Option β} {write : α → Json} {change : α → β}
    {items : List α} (h : ∀ a ∈ items, read (write a) = some (change a)) :
    (ofList write items).list? read = some (items.map change) := by
  rw [ofList, list?]
  induction items with
  | nil => rfl
  | cons a rest ih =>
    obtain ⟨hFirst, hRest⟩ := List.forall_mem_cons.mp h
    rw [List.map_cons, List.mapM_cons, ih hRest, hFirst]
    rfl

theorem members?_record (members : List (String × Json)) : (record members).members? = some members := by
  rw [record, members?]
  induction members with
  | nil => rfl
  | cons m rest ih =>
    rw [List.map_cons, List.mapM_cons, ih]
    rfl

theorem fields?_record (names : List String) {fields members : List (String × Json)} {given : String → Bool}
    (hNames : fields.map Prod.fst = names) (hNodup : names.Nodup) (h : Fields.Shows fields given members) :
    (record members).fields? names = some ⟨fields.map fun f => (f.1, Fields.shown given f)⟩ := by
  subst hNames
  rw [← Fields.ofNamed?_of_shows hNodup h]
  exact congrArg (Option.bind · _) (members?_record members)

end Json

/-! ## Numbers -/

theorem ofJson?_float {x : Float} (h : x.isFinite = true) : ofJson? (toJson x) = some (Json.reread x) :=
  (Json.float?_ofFloat x).trans (Json.reread?_eq h)

theorem ofJson?_float_eq_none {x : Float} (h : x.isFinite = false) : (ofJson? (toJson x) : Option Float) = none :=
  (Json.float?_ofFloat x).trans (Json.reread?_eq_none h)

theorem ofJson?_optional {x : Option Float} (h : ∀ z ∈ x, z.isFinite = true) :
    ofJson? (toJson x) = some (x.map Json.reread) := by
  cases x with
  | none => rfl
  | some x =>
    obtain ⟨n, hNumeral, hRead⟩ := Option.bind_eq_some_iff.mp (Json.reread?_eq (h x rfl))
    change (Json.ofFloat x).nullable Json.float? = some (some (Json.reread x))
    rw [Json.ofFloat, hNumeral]
    exact congrArg (Option.map some) hRead

/-! ## Values without numbers -/

/-- Types whose values come back from their documents as they were. -/
class Exact (α : Type) [Document α] : Prop where
  ofJson?_toJson : ∀ a : α, ofJson? (toJson a) = some a

instance : Exact Bool := ⟨fun _ => rfl⟩

instance : Exact UInt64 := ⟨Json.uint64?_ofNat⟩

instance : Exact Int64 := ⟨Json.int64?_ofInt⟩

instance {kind : IdKind} : Exact (Id kind) := ⟨fun id => congrArg (Option.map Id.mk) (Json.uint32?_ofNat id.val)⟩

instance : Exact HeightPlane := ⟨fun p => congrArg (Option.map HeightPlane.mk) (Json.uint32?_ofNat p.val)⟩

instance : Exact Subnetwork where
  ofJson?_toJson s := by cases s <;> decide

instance : Exact HeightType where
  ofJson?_toJson h := by cases h <;> decide

instance {α : Type} [Document α] [Exact α] : Exact (List α) where
  ofJson?_toJson items := by
    have hItems : (toJson items).list? ofJson? = some (items.map id) :=
      Json.list?_ofList fun a _ => Exact.ofJson?_toJson a
    rwa [List.map_id] at hItems

/-! ## Fields in any order -/

namespace Json

variable {fields members : List (String × Json)}

theorem exists_fields? (names : List String) (hNames : fields.map Prod.fst = names) (hNodup : names.Nodup)
    (hMembers : members.Perm fields) :
    ∃ f, (record members).fields? names = some f ∧ ∀ m ∈ fields, f.slot m.1 = .given m.2 := by
  have hShows : Fields.Shows fields (fun _ => true) members := by
    refine ⟨[], ?_, by simp⟩
    rwa [List.filter_true, List.append_nil]
  refine ⟨_, fields?_record names hNames hNodup hShows, ?_⟩
  intro m hm
  exact Fields.slot_of_mem (hNames ▸ hNodup) hm

section Present

variable {α : Type} [Document α] {name : String} {a b : Option α} {before after : List (String × Json)}

/-- A field is given unless it is one without a value. -/
def unlessNone (name : String) (a : Option α) (other : String) : Bool := other != name || a.isSome

omit [Document α] in
theorem unlessNone_of_ne {other : String} (h : other ≠ name) : unlessNone name a other = true := by
  simp [unlessNone, h]

theorem shows_present (hNew : ∀ m ∈ before ++ after, m.1 ≠ name) :
    Fields.Shows (before ++ (name, toJson a) :: after) (unlessNone name a)
      (before ++ Document.present name a ++ after) := by
  have hKept {part : List (String × Json)} (h : ∀ m ∈ part, m.1 ≠ name) :
      part.filter (unlessNone name a ·.1) = part :=
    List.filter_eq_self.mpr fun m hm => unlessNone_of_ne (h m hm)
  rw [List.forall_mem_append] at hNew
  refine ⟨[], ?_, by simp⟩
  rw [List.append_nil, List.filter_append, List.filter_cons, hKept hNew.1, hKept hNew.2]
  cases a <;> simp [unlessNone, Document.present, Document.toJson, ofOption]

/-- A field that has no value is left out, and is then taken to have none. -/
theorem exists_fields?_present (names : List String) (name : String) (before after : List (String × Json))
    (hNames : (before ++ (name, toJson a) :: after).map Prod.fst = names) (hNodup : names.Nodup)
    (hMembers : members = before ++ Document.present name a ++ after) (hRead : ofJson? (toJson a) = some b)
    (hNone : a = none → b = none) :
    ∃ f, (record members).fields? names = some f ∧ (∀ m ∈ before ++ after, f.slot m.1 = .given m.2) ∧
      f.getD name none = some b := by
  subst hNames hMembers
  have hNew : ∀ m ∈ before ++ after, m.1 ≠ name := by
    intro m hm hSame
    have hMiddle := (List.perm_middle.map Prod.fst).nodup_iff.mp hNodup
    rw [List.map_cons, List.nodup_cons] at hMiddle
    exact hMiddle.1 (List.mem_map.mpr ⟨m, hm, hSame⟩)
  refine ⟨_, fields?_record _ rfl hNodup (shows_present hNew), ?_, ?_⟩
  · intro m hm
    have hMem : m ∈ before ++ (name, toJson a) :: after := by
      rw [List.mem_append] at hm ⊢
      exact hm.imp_right (List.mem_cons_of_mem _)
    rw [Fields.slot_of_mem hNodup hMem, Fields.shown, if_pos (unlessNone_of_ne (hNew m hm))]
  · have hMem : (name, toJson a) ∈ before ++ (name, toJson a) :: after := by simp
    rw [Fields.getD, Fields.defaulted_eq_some hNodup hMem fun _ => hRead]
    cases a with
    | none => rw [hNone rfl, ite_self]
    | some a => simp [unlessNone]

end Present

end Json

end TrackLayout
