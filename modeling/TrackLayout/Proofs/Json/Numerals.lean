import TrackLayout.Json.Token
import TrackLayout.Proofs.Decimal.Numerals

/-!
# Numerals read back

A numeral that is written into a document is read back, digits and all,
whatever follows it that does not continue it.
-/
set_option autoImplicit false

namespace TrackLayout.Json

open Numeral

variable {rest : List Char}

/-- The digits of a positive number do not start with a zero. -/
theorem head_natChars {n : Nat} (hn : 0 < n) : ∀ c ∈ (natChars n).head?, c ≠ '0' := by
  induction n using Nat.strongRecOn with
  | _ n ih =>
    unfold natChars at ih ⊢
    by_cases hSmall : n < 10
    · rw [Nat.toDigits_of_lt_base hSmall]
      intro c hc hZero
      have hDigit : n.digitChar = '0' := by
        rw [← hZero]
        exact Option.some.inj hc
      exact Nat.ne_of_gt hn (Nat.digitChar_eq_zero.mp hDigit)
    · have hFewer := ih (n / 10) (by omega) (by omega)
      rw [Nat.toDigits_of_base_le (by decide) (by omega), List.head?_append_of_ne_nil _ Nat.toDigits_ne_nil]
      exact hFewer

theorem whole?_natChars (n : Nat) (h : EndsDigits rest) : whole? (natChars n ++ rest) = some (n, rest) := by
  obtain rfl | hn := Nat.eq_zero_or_pos n
  · rfl
  · have hDigits := digits_append (isDigit_natChars n) h
    have hValue := ofDigitChars_natChars n
    have hHead := head_natChars hn
    obtain ⟨c, ds, hChars⟩ := List.exists_cons_of_ne_nil (natChars_ne_nil n)
    rw [hChars] at hDigits hValue hHead ⊢
    have hNotZero : ∀ other, c :: ds ++ rest = '0' :: other → False :=
      fun other hSame => hHead c rfl (List.cons.inj hSame).1
    rw [whole?.eq_2 _ hNotZero, hDigits]
    simp [hValue]

theorem fraction?_none (h : ∀ c ∈ rest.head?, c ≠ '.') : fraction? rest = some ([], rest) := by
  rw [fraction?.eq_2]
  intro other hPoint
  exact h '.' (by rw [hPoint]; rfl) rfl

theorem fraction?_some {ds : List Digit} (hNe : ds ≠ []) (h : EndsDigits rest) :
    fraction? ('.' :: (ds.map Digit.char ++ rest)) = some (ds, rest) := by
  obtain ⟨d, others, rfl⟩ := List.exists_cons_of_ne_nil hNe
  rw [fraction?, digits_append (isDigit_of_mem_map _) h]
  simp [ofChar_char, Function.comp_def]

section Written

variable (plus : Bool) (n : Numeral)

theorem unsigned?_unsignedChars (h : EndsNumeral rest) :
    unsigned? n.negative (n.unsignedChars plus ++ rest) = some (n, rest) := by
  obtain ⟨negative, whole, fraction, exponent⟩ := n
  have hExponent := exponent?_exponentChars plus exponent h
  have hEnds := endsDigits_exponentChars plus exponent h
  have hFraction : fraction? (fractionChars fraction ++ (exponentChars plus exponent ++ rest)) =
      some (fraction, exponentChars plus exponent ++ rest) := by
    cases fraction with
    | nil => exact fraction?_none fun c hc => (head_exponentChars plus exponent h c hc).2
    | cons d ds => exact fraction?_some (List.cons_ne_nil d ds) hEnds
  rw [unsigned?, unsignedChars, List.append_assoc, List.append_assoc,
    whole?_natChars whole (endsDigits_fractionChars fraction hEnds)]
  simp only [Option.bind_eq_bind, Option.bind_some, hFraction, hExponent]

/-- A written numeral is read back, digits and all. -/
theorem numeral?_chars (h : EndsNumeral rest) : numeral? (n.chars plus ++ rest) = some (n, rest) := by
  have hUnsigned := unsigned?_unsignedChars plus n h
  rw [chars_eq]
  cases hSign : n.negative with
  | true =>
    rw [hSign] at hUnsigned
    rw [if_pos rfl, List.append_assoc, List.cons_append, List.nil_append]
    exact hUnsigned
  | false =>
    obtain ⟨c, cs, hChars, hDigit⟩ := n.exists_unsignedChars plus
    rw [hSign] at hUnsigned
    rw [if_neg (by decide), List.nil_append, numeral?.eq_2]
    · exact hUnsigned
    · intro other hMinus
      rw [hChars] at hMinus
      rw [(List.cons.inj hMinus).1] at hDigit
      exact absurd hDigit (by decide)

end Written

end TrackLayout.Json
