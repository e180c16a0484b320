import TrackLayout.Proofs.Document.Numbered

/-!
# Documents of rules read back

A rule is told by its tag, wherever that stands among the keys, and its fields
may stand in any order. All that is written for a rule of finite numbers is
plain, so it survives being read before the tag is known.
-/
set_option autoImplicit false

namespace TrackLayout

open Document (toJson ofJson?)
open Json (reread)
open Numbered (numbers mapNumbers mapNumbers_eq_self)

/-! ## Plain values -/

namespace Json

theorem inSteps?_ofNat {n : Nat} (h : n ≤ 10 ^ 17) : (Numeral.ofNat n).inSteps?.isSome = true := by
  have hWord : (Numeral.ofNat n).coefficient ≤ Scaled.wordLimit := h.trans (by decide)
  have hScaled : Scaled.ofNumeral (.ofNat n) = ⟨n, 0⟩ := Scaled.ofNumeral_eq hWord
  rw [Numeral.inSteps?, hScaled, Option.isSome_map]
  obtain rfl | hPos := Nat.eq_zero_or_pos n
  · decide +kernel
  · have hFits : Scaled.Fits n 0 := by
      rw [Scaled.Fits, movePoint, movePoint, zpow_zero, mul_one]
      calc (n : ℝ)
        _ ≤ (10 ^ 17 : ℕ) := Nat.cast_le.mpr h
        _ ≤ 17976931348623157 * 10 ^ (1 : ℤ) := by norm_num
        _ ≤ 17976931348623157 * 10 ^ (292 : ℤ) := by
          gcongr <;> norm_num
    obtain ⟨y, hy, -⟩ := Scaled.exists_toFloat? hPos h (by decide) (by decide) hFits
    rw [hy]
    rfl

theorem isPlain_id {kind : IdKind} (id : Id kind) (room : Nat) : (toJson id).isPlain room = true := by
  have hBound := id.val.toNat_lt
  have hRead : (Numeral.ofNat id.val.toNat).inSteps?.isSome = true := inSteps?_ofNat (by omega)
  exact hRead

theorem isPlain_float {x : Float} (h : x.isFinite = true) (room : Nat) : (toJson x).isPlain room = true := by
  obtain ⟨n, hNumeral, hRead⟩ := Option.bind_eq_some_iff.mp (reread?_eq h)
  change (ofFloat x).isPlain room = true
  rw [ofFloat, hNumeral]
  change n.inSteps?.isSome = true
  rw [hRead]
  rfl

theorem isPlain_record {members : List (String × Json)} {room : Nat} (h : ∀ m ∈ members, m.2.isPlain room = true) :
    (record members).isPlain (room + 1) = true := by
  change isPlain.membersArePlain room _ = true
  induction members with
  | nil => rfl
  | cons m rest ih =>
    obtain ⟨hFirst, hRest⟩ := List.forall_mem_cons.mp h
    rw [List.map_cons, isPlain.membersArePlain, hFirst, ih hRest]
    rfl

end Json

/-! ## Tags -/

namespace HeightRule

/-- The members of an object that are neither the tag nor under its name. -/
theorem untag?_record {members fields : List (String × Json)} {tag : String}
    (hMembers : members.Perm (("type", .text tag) :: fields)) (hFields : ∀ m ∈ fields, m.1 ≠ "type") :
    ∃ rest, untag? (.record members) = some (tag, .record rest) ∧ rest.Perm fields := by
  have hNone : fields.filter (·.1 == "type") = [] := by
    apply List.filter_eq_nil_iff.mpr
    intro m hm
    simpa using hFields m hm
  have hAll : fields.filter (·.1 != "type") = fields := by
    apply List.filter_eq_self.mpr
    intro m hm
    simpa using hFields m hm
  have hTag : members.filter (·.1 == "type") = [("type", .text tag)] := by
    have hFilter := hMembers.filter (·.1 == "type")
    rw [List.filter_cons_of_pos (by simp), hNone] at hFilter
    exact List.perm_singleton.mp hFilter
  have hRest : (members.filter (·.1 != "type")).Perm fields := by
    have hFilter := hMembers.filter (·.1 != "type")
    rwa [List.filter_cons_of_neg (by simp), hAll] at hFilter
  refine ⟨members.filter (·.1 != "type"), ?_, hRest⟩
  have hSome : (members.map fun m => (some m.1, m.2)).filter (·.1 == some "type") = [(some "type", .text tag)] := by
    rw [List.filter_map]
    exact congrArg (List.map _) hTag
  have hOthers : (members.map fun m => (some m.1, m.2)).filter (·.1 != some "type") =
      (members.filter (·.1 != "type")).map fun m => (some m.1, m.2) := by
    rw [List.filter_map]
    rfl
  rw [Json.record, untag?, hSome, hOthers]
  rfl

def kind : Rule → String
  | .fixedHeight .. => "FixedHeight"
  | .betweenNodes .. => "BetweenNodes"
  | .inclineBetween .. => "InclineBetween"
  | .linkedTo .. => "LinkedTo"

/-- The members of the document of a rule, apart from the tag. -/
def fields : Rule → List (String × Json)
  | .fixedHeight target tolerance weight =>
    [("target", toJson target), ("tolerance", toJson tolerance), ("weight", toJson weight)]
  | .betweenNodes first second ratio weight =>
    [("first", toJson first), ("second", toJson second), ("ratio", toJson ratio), ("weight", toJson weight)]
  | .inclineBetween inclines other length weight =>
    [("min_incline", toJson inclines.least), ("max_incline", toJson inclines.greatest), ("other", toJson other),
      ("length", toJson length), ("weight", toJson weight)]
  | .linkedTo other => [("other", toJson other)]

def members (rule : Rule) : List (String × Json) := ("type", .text (kind rule)) :: fields rule

theorem toJson_eq (rule : Rule) : toJson rule = .record (members rule) := by
  cases rule <;> rfl

end HeightRule

instance : Numbered Rule where
  numbers
    | .fixedHeight target tolerance weight => [target, tolerance, weight]
    | .betweenNodes _ _ ratio weight => [ratio, weight]
    | .inclineBetween inclines _ length weight => [inclines.least, inclines.greatest, length, weight]
    | .linkedTo _ => []
  mapNumbers f
    | .fixedHeight target tolerance weight => .fixedHeight (f target) (f tolerance) (f weight)
    | .betweenNodes first second ratio weight => .betweenNodes first second (f ratio) (f weight)
    | .inclineBetween inclines other length weight =>
      .inclineBetween ⟨f inclines.least, f inclines.greatest⟩ other (f length) (f weight)
    | .linkedTo other => .linkedTo other
  mapNumbers_eq_self {f rule} h := by
    cases rule <;> simp_all

namespace HeightRule

variable {rule : Rule}

theorem isPlain_fields (h : AllFinite rule) (room : Nat) : ∀ m ∈ fields rule, m.2.isPlain room = true := by
  cases rule with
  | fixedHeight target tolerance weight =>
    simp only [AllFinite, numbers, List.forall_mem_cons] at h
    simp [fields, Json.isPlain_float, h]
  | betweenNodes first second ratio weight =>
    simp only [AllFinite, numbers, List.forall_mem_cons] at h
    simp [fields, Json.isPlain_float, Json.isPlain_id, h]
  | inclineBetween inclines other length weight =>
    simp only [AllFinite, numbers, List.forall_mem_cons] at h
    simp [fields, Json.isPlain_float, Json.isPlain_id, h]
  | linkedTo other => simp [fields, Json.isPlain_id]

/-- Whatever the order of its members, a rule is read as it was, with its numbers as they come back. -/
theorem ofDocument?_record (h : AllFinite rule) {ms : List (String × Json)} (hMembers : ms.Perm (members rule))
    (room : Nat) : ofDocument? (room + 1) (.record ms) = some (mapNumbers reread rule) := by
  have hPlain : (Json.record ms).isPlain (room + 1) = true := by
    apply Json.isPlain_record
    intro m hm
    rcases List.mem_cons.mp (hMembers.subset hm) with rfl | hm
    · rfl
    · exact isPlain_fields h room m hm
  have hNames : ∀ m ∈ fields rule, m.1 ≠ "type" := by
    cases rule <;> simp [fields]
  obtain ⟨rest, hTag, hRest⟩ := untag?_record hMembers hNames
  rw [ofDocument?, hPlain, hTag]
  cases rule with
  | fixedHeight target tolerance weight =>
    obtain ⟨f, hFields, hSlots⟩ := Json.exists_fields? ["target", "tolerance", "weight"] rfl (by decide) hRest
    simp only [fields, List.forall_mem_cons] at hSlots
    simp only [AllFinite, numbers, List.forall_mem_cons] at h
    simp [kind, guard, hFields, Fields.get, Fields.required, hSlots, ofJson?_float, h, mapNumbers]
  | betweenNodes first second ratio weight =>
    obtain ⟨f, hFields, hSlots⟩ := Json.exists_fields? ["first", "second", "ratio", "weight"] rfl (by decide) hRest
    simp only [fields, List.forall_mem_cons] at hSlots
    simp only [AllFinite, numbers, List.forall_mem_cons] at h
    simp [kind, guard, hFields, Fields.get, Fields.required, hSlots, ofJson?_float, Exact.ofJson?_toJson, h, mapNumbers]
  | inclineBetween inclines other length weight =>
    obtain ⟨f, hFields, hSlots⟩ := Json.exists_fields? ["min_incline", "max_incline", "other", "length", "weight"]
      rfl (by decide) hRest
    simp only [fields, List.forall_mem_cons] at hSlots
    simp only [AllFinite, numbers, List.forall_mem_cons] at h
    simp [kind, guard, hFields, Fields.get, Fields.required, hSlots, ofJson?_float, Exact.ofJson?_toJson, h, mapNumbers]
  | linkedTo other =>
    obtain ⟨f, hFields, hSlots⟩ := Json.exists_fields? ["other"] rfl (by decide) hRest
    simp only [fields, List.forall_mem_cons] at hSlots
    simp [kind, guard, hFields, Fields.get, Fields.required, hSlots, Exact.ofJson?_toJson, mapNumbers]

end HeightRule

instance : Returns Rule where
  ofJson?_toJson {rule} h := by
    rw [HeightRule.toJson_eq]
    exact HeightRule.ofDocument?_record h (.refl _) 126

/-! ## Junctions -/

instance : Numbered Junction where
  numbers j := numbers j.position ++ numbers j.tracks ++ numbers j.sides ++ numbers j.rules
  mapNumbers f j := { j with
    position := mapNumbers f j.position
    tracks := mapNumbers f j.tracks
    sides := mapNumbers f j.sides
    rules := mapNumbers f j.rules }
  mapNumbers_eq_self {f j} h := by
    simp only [List.forall_mem_append] at h
    obtain ⟨⟨⟨hPosition, hTracks⟩, hSides⟩, hRules⟩ := h
    rw [mapNumbers_eq_self hPosition, mapNumbers_eq_self hTracks, mapNumbers_eq_self hSides,
      mapNumbers_eq_self hRules]

instance : Returns Junction where
  ofJson?_toJson {j} h := by
    obtain ⟨h, hRules⟩ := List.forall_mem_append.mp h
    obtain ⟨h, hSides⟩ := List.forall_mem_append.mp h
    obtain ⟨hPosition, hTracks⟩ := List.forall_mem_append.mp h
    have hPosition := Returns.ofJson?_toJson (a := j.position) hPosition
    have hTracks := Returns.ofJson?_toJson (a := j.tracks) hTracks
    have hSides := Returns.ofJson?_toJson (a := j.sides) hSides
    have hRules : (toJson j.rules).list? (HeightRule.ofDocument? (untypedDepth - 2)) =
        some (mapNumbers reread j.rules) := by
      apply Json.list?_ofList
      intro rule hRule
      rw [HeightRule.toJson_eq]
      exact HeightRule.ofDocument?_record (AllFinite.of_mem hRules hRule) (.refl _) 124
    obtain ⟨f, hFields, hSlots⟩ := Json.exists_fields? ["id", "position", "tracks", "groups", "height_rules"] rfl
      (by decide) (.refl [("id", toJson j.id), ("position", toJson j.position), ("tracks", toJson j.tracks),
        ("groups", toJson j.sides), ("height_rules", toJson j.rules)])
    refine (congrArg (Option.bind · _) hFields).trans ?_
    simp only [List.forall_mem_cons] at hSlots
    simp [Fields.get, Fields.required, hSlots, hRules, Exact.ofJson?_toJson, hPosition, hTracks, hSides, mapNumbers]

end TrackLayout
