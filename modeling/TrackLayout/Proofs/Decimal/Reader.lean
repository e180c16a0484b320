import TrackLayout.Proofs.Decimal.Nearest
import TrackLayout.Proofs.Decimal.Numerals

/-!
# Numbers read back alone

A numeral that stands alone is read whole, and the nearest value to it is the
value it was written for. An infinity is read by its name. So every number that
is written comes back as it was, and only what is no number does not.
-/
set_option autoImplicit false

namespace TrackLayout

namespace Numeral

/-! ## Numerals -/

theorem digitsAroundPoint?_chars (whole : Nat) (fraction : List Digit) {rest : List Char}
    (h : ∀ c ∈ rest.head?, c.isDigit = false ∧ c ≠ '.') :
    digitsAroundPoint? (natChars whole ++ (fractionChars fraction ++ rest)) =
      some (natChars whole, fraction.map Digit.char, rest) := by
  have hEnds : EndsDigits rest := fun c hc => (h c hc).1
  have hSome : (natChars whole).isEmpty = false := List.isEmpty_eq_false_iff.mpr (natChars_ne_nil whole)
  rw [digitsAroundPoint?, digits_append (isDigit_natChars whole) (endsDigits_fractionChars fraction hEnds)]
  cases fraction with
  | nil =>
    simp only [fractionChars, List.isEmpty_nil, if_true, List.nil_append]
    split
    · exact absurd rfl (h '.' rfl).2
    · simp [hSome]
  | cons d ds =>
    have hDigits := digits_append (isDigit_of_mem_map (d :: ds)) hEnds
    simp only [fractionChars, List.isEmpty_cons, Bool.false_eq_true, if_false, List.cons_append, hDigits]
    simp [hSome]

variable (plus : Bool) (n : Numeral)

theorem ofUnsigned?_unsignedChars : ofUnsigned? n.negative (n.unsignedChars plus) = some n := by
  have hNone : EndsNumeral [] := fun _ hc => nomatch hc
  have hDigits := digitsAroundPoint?_chars n.whole n.fraction (head_exponentChars plus n.exponent hNone)
  have hExponent := exponent?_exponentChars plus n.exponent hNone
  rw [List.append_nil] at hDigits hExponent
  rw [ofUnsigned?, unsignedChars]
  simp only [hDigits, hExponent, Option.bind_eq_bind, Option.bind_some, List.isEmpty_nil, if_true,
    ofDigitChars_natChars, map_ofChar_map_char]

end Numeral

namespace Binary64

theorem ofString?_digit {c : Char} (h : c.isDigit = true) (cs : List Char) :
    ofString? (.ofList (c :: cs)) = ofUnsigned? false (c :: cs) := by
  rw [ofString?, String.toList_ofList]
  split
  · next hSign =>
    rw [(List.cons.inj hSign).1] at h
    cases h
  · next hSign =>
    rw [(List.cons.inj hSign).1] at h
    cases h
  · rfl

/-- A numeral that stands alone is read as the nearest value to it. -/
theorem ofString?_chars (plus : Bool) (n : Numeral) : ofString? (.ofList (n.chars plus)) = some n.toFloat := by
  have hRead := n.ofUnsigned?_unsignedChars plus
  rw [Numeral.chars_eq]
  cases hSign : n.negative with
  | true =>
    rw [hSign] at hRead
    rw [if_pos rfl, ofString?, String.toList_ofList]
    change ofUnsigned? true (n.unsignedChars plus) = _
    rw [ofUnsigned?, hRead]
  | false =>
    obtain ⟨c, cs, hChars, hDigit⟩ := n.exists_unsignedChars plus
    rw [hSign] at hRead
    rw [if_neg (by decide), List.nil_append, hChars, ofString?_digit hDigit, ← hChars, ofUnsigned?, hRead]

open Float.Model Float.Model.UnpackedFloat in
theorem ofString?_infinity (s : Sign) : ofString? (NumberStyle.csv.write (.ofModel (.pack (.infinity s)))) =
    some (.ofModel (.pack (.infinity s))) := by
  cases s <;> rfl

open Float.Model Float.Model.UnpackedFloat in
/-- Every number is read back from its text. -/
theorem ofString?_write {x : Float} (h : x.isNaN = false) : ofString? (NumberStyle.csv.write x) = some x := by
  obtain ⟨v, hv⟩ | ⟨s, hs⟩ := denotes_or_infinity h
  · obtain ⟨n, hn, hx⟩ := Option.map_eq_some_iff.mp (toFloat_numeral? hv.isFinite)
    have hNumeral : NumberStyle.csv.numeral? x = some n := hn
    rw [NumberStyle.write, hNumeral, ofString?_chars, hx]
  · have hStored : (Float.ofModel (.pack (.infinity s))).toModel.unpack = .infinity s :=
      unpack_pack (u := .infinity s) trivial
    have hSame : x = .ofModel (.pack (.infinity s)) :=
      eq_of_unpack (hs.trans hStored.symm) (by rw [hs]; exact UnpackedFloat.noConfusion)
    rw [hSame, ofString?_infinity]

end Binary64

end TrackLayout
