import Mathlib.Data.List.Basic
import Mathlib.Data.List.TakeDrop
import TrackLayout.Decimal.Reader

/-!
# Parts of a written numeral

A written numeral is a sign, digits around a point and an exponent. Each part
is read as far as it goes, and where it ends is told by the character that
follows: neither a digit nor a point nor the letter of an exponent.
-/
set_option autoImplicit false

namespace TrackLayout.Numeral

/-- Text that does not continue a run of digits. -/
def EndsDigits (rest : List Char) : Prop := ∀ c ∈ rest.head?, c.isDigit = false

/-- Text that does not continue a numeral. -/
def EndsNumeral (rest : List Char) : Prop :=
  ∀ c ∈ rest.head?, c.isDigit = false ∧ c ≠ '.' ∧ c ≠ 'e' ∧ c ≠ 'E'

variable {rest : List Char}

theorem EndsNumeral.digits (h : EndsNumeral rest) : EndsDigits rest := fun c hc => (h c hc).1

theorem endsDigits_cons {c : Char} (h : c.isDigit = false) : EndsDigits (c :: rest) :=
  fun _ hd => Option.some.inj hd ▸ h

/-! ## Digits -/

theorem digits_append {ds : List Char} (hDigits : ∀ c ∈ ds, c.isDigit = true) (h : EndsDigits rest) :
    digits (ds ++ rest) = (ds, rest) := by
  rw [digits, List.span_eq_takeWhile_dropWhile, List.takeWhile_append_of_pos hDigits,
    List.dropWhile_append_of_pos hDigits]
  cases rest with
  | nil => simp
  | cons c rest => simp [h c rfl]

theorem isDigit_natChars (n : Nat) : ∀ c ∈ natChars n, c.isDigit = true :=
  fun _ hc => Nat.isDigit_of_mem_toDigits (by decide) (by decide) hc

theorem natChars_ne_nil (n : Nat) : natChars n ≠ [] := Nat.toDigits_ne_nil

theorem ofDigitChars_natChars (n : Nat) : Nat.ofDigitChars 10 (natChars n) 0 = n := Nat.ofDigitChars_ten_toDigits

theorem ofChar_char : ∀ d : Digit, Digit.ofChar d.char = d := by decide

theorem isDigit_char : ∀ d : Digit, d.char.isDigit = true := by decide

theorem isDigit_of_mem_map (ds : List Digit) : ∀ c ∈ ds.map Digit.char, c.isDigit = true :=
  List.forall_mem_map.mpr fun d _ => isDigit_char d

theorem map_ofChar_map_char (ds : List Digit) : (ds.map Digit.char).map Digit.ofChar = ds := by
  simp [ofChar_char, Function.comp_def]

/-! ## Exponents -/

theorem exponentDigits?_natChars (negative : Bool) (n : Nat) (h : EndsDigits rest) :
    exponentDigits? negative (natChars n ++ rest) = some (some (if negative then -(n : Int) else n), rest) := by
  have hValue := ofDigitChars_natChars n
  obtain ⟨c, ds, hChars⟩ := List.exists_cons_of_ne_nil (natChars_ne_nil n)
  rw [exponentDigits?, digits_append (isDigit_natChars n) h]
  rw [hChars] at hValue ⊢
  simp [hValue]

theorem exponent?_none (h : EndsNumeral rest) : exponent? rest = some (none, rest) := by
  cases rest with
  | nil => rfl
  | cons c rest =>
    obtain ⟨-, -, hLower, hUpper⟩ := h c rfl
    exact if_neg (by simp [hLower, hUpper])

theorem exponent?_bare (n : Nat) (h : EndsDigits rest) :
    exponent? ('e' :: (natChars n ++ rest)) = some (some (Int.ofNat n), rest) := by
  have hDigits := exponentDigits?_natChars false n h
  obtain ⟨c, ds, hChars⟩ := List.exists_cons_of_ne_nil (natChars_ne_nil n)
  have hDigit := isDigit_natChars n c (hChars ▸ List.mem_cons_self)
  rw [hChars] at hDigits ⊢
  have hNoSign (sign : Char) (hSign : sign.isDigit = false) (other : List Char) :
      c :: ds ++ rest = sign :: other → False := by
    intro hSame
    rw [(List.cons.inj hSame).1, hSign] at hDigit
    cases hDigit
  rw [exponent?, if_pos (.inl rfl)]
  · exact hDigits
  · exact hNoSign '-' rfl
  · exact hNoSign '+' rfl

theorem exponent?_plus (n : Nat) (h : EndsDigits rest) :
    exponent? ('e' :: '+' :: (natChars n ++ rest)) = some (some (Int.ofNat n), rest) :=
  exponentDigits?_natChars false n h

theorem exponent?_minus (n : Nat) (h : EndsDigits rest) :
    exponent? ('e' :: '-' :: (natChars (n + 1) ++ rest)) = some (some (Int.negSucc n), rest) :=
  exponentDigits?_natChars true (n + 1) h

/-! ## All parts -/

/-- The written digits behind the point. -/
def fractionChars (ds : List Digit) : List Char := if ds.isEmpty then [] else '.' :: ds.map Digit.char

/-- The written exponent; `plus` is whether one of zero or more carries a sign. -/
def exponentChars (plus : Bool) : Option Int → List Char
  | none => []
  | some (.ofNat e) => 'e' :: (if plus then ['+'] else []) ++ natChars e
  | some (.negSucc e) => 'e' :: '-' :: natChars (e + 1)

section Written

variable (plus : Bool)

theorem exponent?_exponentChars (e : Option Int) (h : EndsNumeral rest) :
    exponent? (exponentChars plus e ++ rest) = some (e, rest) := by
  match e, plus with
  | none, _ => exact exponent?_none h
  | some (.ofNat n), true => exact exponent?_plus n h.digits
  | some (.ofNat n), false => exact exponent?_bare n h.digits
  | some (.negSucc n), _ => exact exponent?_minus n h.digits

/-- The digits and the point end where the exponent starts. -/
theorem head_exponentChars (e : Option Int) (h : EndsNumeral rest) :
    ∀ c ∈ (exponentChars plus e ++ rest).head?, c.isDigit = false ∧ c ≠ '.' := by
  match e with
  | none => exact fun c hc => ⟨(h c hc).1, (h c hc).2.1⟩
  | some (.ofNat _) | some (.negSucc _) =>
    intro c hc
    rw [← Option.some.inj hc]
    decide

theorem endsDigits_exponentChars (e : Option Int) (h : EndsNumeral rest) :
    EndsDigits (exponentChars plus e ++ rest) :=
  fun c hc => (head_exponentChars plus e h c hc).1

theorem endsDigits_fractionChars (ds : List Digit) (h : EndsDigits rest) : EndsDigits (fractionChars ds ++ rest) := by
  cases ds with
  | nil => exact h
  | cons d ds => exact endsDigits_cons (by decide)

/-- All of a numeral behind its sign. -/
def unsignedChars (n : Numeral) : List Char :=
  natChars n.whole ++ (fractionChars n.fraction ++ exponentChars plus n.exponent)

theorem chars_eq (n : Numeral) : n.chars plus = (if n.negative then ['-'] else []) ++ n.unsignedChars plus := by
  obtain ⟨negative, whole, fraction, _ | _ | _⟩ := n <;>
    simp [chars, unsignedChars, fractionChars, exponentChars]

/-- Behind its sign a numeral starts with a digit. -/
theorem exists_unsignedChars (n : Numeral) : ∃ c cs, n.unsignedChars plus = c :: cs ∧ c.isDigit = true := by
  obtain ⟨c, cs, hChars⟩ := List.exists_cons_of_ne_nil (natChars_ne_nil n.whole)
  refine ⟨c, _, by rw [unsignedChars, hChars, List.cons_append], ?_⟩
  exact isDigit_natChars n.whole c (hChars ▸ List.mem_cons_self)

theorem exists_chars (n : Numeral) : ∃ c cs, n.chars plus = c :: cs ∧ (c = '-' ∨ c.isDigit = true) := by
  rw [chars_eq]
  cases n.negative with
  | true => exact ⟨'-', _, rfl, .inl rfl⟩
  | false =>
    obtain ⟨c, cs, hChars, hDigit⟩ := n.exists_unsignedChars plus
    exact ⟨c, cs, hChars, .inr hDigit⟩

/-- Besides digits a numeral has only its marks. -/
theorem isDigit_or_of_mem_chars (n : Numeral) :
    ∀ c ∈ n.chars plus, c.isDigit = true ∨ c ∈ ['-', '.', 'e', '+'] := by
  obtain ⟨negative, whole, fraction, exponent⟩ := n
  intro c hc
  rw [chars_eq, unsignedChars, List.mem_append, List.mem_append, List.mem_append] at hc
  obtain hSign | hWhole | hFraction | hExponent := hc
  · split at hSign
    · rw [List.mem_singleton.mp hSign]
      decide
    · cases hSign
  · exact .inl (isDigit_natChars whole c hWhole)
  · rw [fractionChars] at hFraction
    split at hFraction
    · cases hFraction
    · obtain rfl | hDigit := List.mem_cons.mp hFraction
      · exact .inr (by decide)
      · exact .inl (isDigit_of_mem_map fraction c hDigit)
  · match exponent with
    | none => cases hExponent
    | some (.ofNat e) =>
      have hMarks : ∀ plus : Bool, ∀ c ∈ 'e' :: (if plus then ['+'] else []), c ∈ ['-', '.', 'e', '+'] := by simp
      obtain hMark | hDigit := List.mem_append.mp hExponent
      · exact .inr (hMarks plus c hMark)
      · exact .inl (isDigit_natChars e c hDigit)
    | some (.negSucc e) =>
      have hMarks : ∀ c ∈ ['e', '-'], c ∈ ['-', '.', 'e', '+'] := by simp
      obtain hMark | hDigit := List.mem_append.mp (show c ∈ ['e', '-'] ++ natChars (e + 1) from hExponent)
      · exact .inr (hMarks c hMark)
      · exact .inl (isDigit_natChars (e + 1) c hDigit)

end Written

end TrackLayout.Numeral
