import TrackLayout.Proofs.Document.Rules
import TrackLayout.Proofs.Json.Text

/-!
# Values read back from texts

The parts of a network and the ways of a source are read back from their texts
with everything but their numbers as it was. A number comes back but for its
last places, and as it was if it has few digits.
-/
set_option autoImplicit false

namespace TrackLayout

open Document (toJson ofJson?)
open Json (reread FewDigits Near)
open Numbered (numbers mapNumbers mapNumbers_eq_self)

section Texts

variable {α : Type} [Document α] [Numbered α] {j : Json} {a : α}

/-- Both texts of a document are read as a value with its numbers as they come back. -/
structure ReadsBack (j : Json) (a : α) : Prop where
  read : ∀ text ∈ [j.compact, j.pretty], Document.parse? text = some (mapNumbers reread a)
  near : ∀ x ∈ numbers a, Near x (reread x)
  exact : (∀ x ∈ numbers a, FewDigits x) → ∀ text ∈ [j.compact, j.pretty], Document.parse? text = some a

theorem AllFinite.readsBack (h : AllFinite a) (hRead : ofJson? j = some (mapNumbers reread a)) : ReadsBack j a := by
  have hTexts : ∀ text ∈ [j.compact, j.pretty], Document.parse? text = some (mapNumbers reread a) := by
    intro text hText
    have hParse : Json.parse? text = some j := by
      simp only [List.mem_cons, List.not_mem_nil, or_false] at hText
      rcases hText with rfl | rfl
      · exact Json.parse?_compact j
      · exact Json.parse?_pretty j
    rw [Document.parse?, hParse, Option.bind_some, hRead]
  constructor
  · exact hTexts
  · intro x hx
    exact Json.near_reread (h x hx)
  · intro hFew text hText
    rw [hTexts text hText, mapNumbers_eq_self fun x hx => (hFew x hx).reread_eq]

theorem AllFinite.readsBack_toJson [Returns α] (h : AllFinite a) : ReadsBack (toJson a) a :=
  h.readsBack (Returns.ofJson?_toJson h)

end Texts

/-- Values of finite numbers are read back from their texts but for the last places of their numbers; a
rule also if its tag, or any other of its members, is moved. -/
theorem readsBack_all (rule : Rule) (t : TrackType) (c : Connection) (g : Sides) (j : Junction) (w : Way) :
    (AllFinite rule → toJson rule = .record (HeightRule.members rule) ∧
      ∀ ms, ms.Perm (HeightRule.members rule) → ReadsBack (.record ms) rule) ∧
    (AllFinite t → ReadsBack (toJson t) t) ∧
    (AllFinite c → ReadsBack (toJson c) c) ∧
    (AllFinite g → ReadsBack (toJson g) g) ∧
    (AllFinite j → ReadsBack (toJson j) j) ∧
    (AllFinite w → ReadsBack (toJson w) w) := by
  refine ⟨?_, ?_, ?_, ?_, ?_, ?_⟩
  · intro h
    constructor
    · exact HeightRule.toJson_eq rule
    · intro ms hMembers
      apply h.readsBack
      exact HeightRule.ofDocument?_record h hMembers 126
  · exact fun h => h.readsBack_toJson
  · exact fun h => h.readsBack_toJson
  · exact fun h => h.readsBack_toJson
  · exact fun h => h.readsBack_toJson
  · exact fun h => h.readsBack_toJson

/-- A rule for an eleventh of a metre above zero. -/
def sill : Rule := .fixedHeight 0.09090909090909091 1.0 1.0

/-- A way with a tag that has to be escaped. -/
def alley : Way where
  id := 7
  nodes := [⟨1, ⟨0.5, -0.0⟩⟩, ⟨2, ⟨1e22, 3.25⟩⟩]
  tags := .ofList [("name", "\"Tie\"\n\x01"), ("level", "")]

theorem readsBack_all_sill : AllFinite sill ∧ AllFinite alley ∧
    ReadsBack (.record [("target", toJson (0.09090909090909091 : Float)), ("tolerance", toJson (1.0 : Float)),
      ("weight", toJson (1.0 : Float)), ("type", .text "FixedHeight")]) sill ∧
    ∀ text ∈ [(toJson alley).compact, (toJson alley).pretty], Document.parse? text = some alley := by
  have hSill : AllFinite sill := by decide +kernel
  have hAlley : AllFinite alley := by decide +kernel
  obtain ⟨hRule, -, -, -, -, hWay⟩ := readsBack_all sill default default default default alley
  refine ⟨hSill, hAlley, ?_, ?_⟩
  · apply (hRule hSill).2
    exact List.perm_append_singleton _ (HeightRule.fields sill)
  · exact (hWay hAlley).exact (by decide +kernel)

/-- An eleventh has more digits than are read in one piece. -/
theorem parse?_compact_sill_ne : AllFinite sill ∧ Document.parse? (toJson sill).compact ≠ some sill := by
  have hFinite : AllFinite sill := by decide +kernel
  refine ⟨hFinite, ?_⟩
  rw [hFinite.readsBack_toJson.read _ List.mem_cons_self]
  exact fun hSame => absurd (Option.some.inj hSame) (by decide +kernel)

end TrackLayout
