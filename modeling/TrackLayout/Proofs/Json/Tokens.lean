import Mathlib.Data.List.TakeWhile
import TrackLayout.Proofs.Json.Numerals

/-!
# Tokens read back

A text spells tokens if it is made of their characters with blanks around
them. Tokens need no blanks between them, except that a numeral must not be
continued by what follows. Every text is split into the tokens that it spells.
-/
set_option autoImplicit false

namespace TrackLayout.Json

open Numeral

/-! ## Strings -/

/-- A piece of a literal that is read as one character. -/
inductive Stands : Piece → Char → Prop
  | char (c : Char) : Stands (.char c) c
  | unit {c : Char} (low : c.toNat < 0x20) : Stands (.unit c.toNat) c

theorem hexCode?_control : ∀ n < 32, hexCode? '0' '0' (hexDigit (n / 16)) (hexDigit n) = some n := by decide

theorem pieces?_plain {c : Char} (hQuote : c ≠ '"') (hSlash : c ≠ '\\') (hLow : ¬c.toNat < 0x20)
    (before : List Piece) (rest : List Char) : pieces? before (c :: rest) = pieces? (.char c :: before) rest := by
  rw [pieces?.eq_4]
  · exact if_neg hLow
  · exact hQuote
  · exact fun _ _ _ _ _ hSlashed => absurd hSlashed hSlash
  · exact fun _ _ hSlashed => absurd hSlashed hSlash

/-- An escaped character is read as one piece. -/
theorem exists_pieces?_escape (c : Char) : ∃ p, Stands p c ∧ ∀ (before : List Piece) (rest : List Char),
    pieces? before (escape c ++ rest) = pieces? (p :: before) rest := by
  by_cases hShort : c ∈ ['"', '\\', '\x08', '\t', '\n', '\x0c', '\r']
  · refine ⟨.char c, .char c, fun before rest => ?_⟩
    simp only [List.mem_cons, List.not_mem_nil, or_false] at hShort
    rcases hShort with rfl | rfl | rfl | rfl | rfl | rfl | rfl <;> rfl
  · simp only [List.mem_cons, List.not_mem_nil, or_false, not_or] at hShort
    obtain ⟨hQuote, hSlash, hBack, hTab, hLine, hForm, hReturn⟩ := hShort
    by_cases hLow : c.toNat < 0x20
    · refine ⟨.unit c.toNat, .unit hLow, fun before rest => ?_⟩
      simp only [escape, hQuote, hSlash, hBack, hTab, hLine, hForm, hReturn, hLow, if_true, if_false,
        List.cons_append, List.nil_append]
      rw [pieces?.eq_2, hexCode?_control _ hLow]
    · refine ⟨.char c, .char c, fun before rest => ?_⟩
      simp only [escape, hQuote, hSlash, hBack, hTab, hLine, hForm, hReturn, hLow, if_false,
        List.cons_append, List.nil_append]
      exact pieces?_plain hQuote hSlash hLow before rest

theorem exists_pieces?_escapes (cs : List Char) : ∃ ps, List.Forall₂ Stands ps cs ∧
    ∀ (before : List Piece) (rest : List Char),
      pieces? before (cs.flatMap escape ++ '"' :: rest) = some (before.reverse ++ ps, rest) := by
  induction cs with
  | nil => exact ⟨[], .nil, fun before rest => by simp [pieces?]⟩
  | cons c cs ih =>
    obtain ⟨p, hStands, hPiece⟩ := exists_pieces?_escape c
    obtain ⟨ps, hAll, hPieces⟩ := ih
    refine ⟨p :: ps, .cons hStands hAll, fun before rest => ?_⟩
    rw [List.flatMap_cons, List.append_assoc, hPiece, hPieces]
    simp

theorem joined?_stands {ps : List Piece} {cs : List Char} (h : List.Forall₂ Stands ps cs) (before : List Char) :
    joined? before ps = some (before.reverse ++ cs) := by
  induction h generalizing before with
  | nil => simp [joined?]
  | @cons p c ps cs hStands hAll ih =>
    cases hStands with
    | char =>
      rw [joined?, ih]
      simp
    | unit low =>
      have hNone : ¬(0xD800 ≤ c.toNat ∧ c.toNat < 0xDC00) := by omega
      have hNeither : ¬(0xDC00 ≤ c.toNat ∧ c.toNat < 0xE000) := by omega
      have hApart : ¬(0xD800 ≤ c.toNat ∧ c.toNat < 0xE000) := by omega
      have hNext : joined? before (.unit c.toNat :: ps) = joined? (c :: before) ps := by
        rcases ps with _ | ⟨_ | code, ps⟩
        · rw [joined?.eq_4, if_neg hApart, Char.ofNat_toNat]
          exact fun _ _ h => nomatch h
        · rw [joined?.eq_4, if_neg hApart, Char.ofNat_toNat]
          exact fun _ _ h => nomatch h
        · rw [joined?, if_neg hNone, if_neg hNeither, Char.ofNat_toNat]
      rw [hNext, ih]
      simp

theorem next?_quote (s : String) (rest : List Char) :
    Token.next? (quote s ++ rest) = some (.string (some s), rest) := by
  obtain ⟨ps, hAll, hPieces⟩ := exists_pieces?_escapes s.toList
  have hJoined := joined?_stands hAll []
  have hRead := hPieces [] rest
  simp only [List.reverse_nil, List.nil_append] at hJoined hRead
  simp only [quote, List.cons_append, List.append_assoc, List.nil_append]
  change (pieces? [] _).map _ = _
  rw [hRead]
  simp [hJoined]

/-! ## Single tokens -/

/-- What may follow a token without a blank between them. -/
def Token.Ends (rest : List Char) : Token → Prop
  | .number _ => EndsNumeral rest
  | _ => True

theorem next?_numeral {n : Numeral} {rest : List Char} (h : EndsNumeral rest) :
    Token.next? (n.chars true ++ rest) = some (.number n, rest) := by
  have hRead := numeral?_chars true n h
  -- a numeral starts like no other token
  obtain ⟨c, cs, hChars, hFirst⟩ := n.exists_chars true
  rw [hChars, List.cons_append] at hRead ⊢
  have hNumber (text : List Char) :
      Token.next? (c :: text) = (numeral? (c :: text)).map fun read => (.number read.1, read.2) := by
    unfold Token.next?
    split
    all_goals first
      | rfl
      | rename_i hSame
        rw [(List.cons.inj hSame).1] at hFirst
        exact absurd hFirst (by decide)
  rw [hNumber, hRead]
  rfl

theorem next?_chars {t : Token} {rest : List Char} (h : t.Ends rest) :
    Token.next? (t.chars ++ rest) = some (t, rest) := by
  cases t with
  | number n => exact next?_numeral h
  | string content =>
    cases content with
    | none => rfl
    | some s => exact next?_quote s rest
  | bool b => cases b <;> rfl
  | _ => rfl

/-! ## Texts -/

/-- The text is made of the characters of the tokens, with blanks around them. -/
inductive Spells : List Char → List Token → Prop
  | nil {blanks : List Char} (hBlanks : ∀ c ∈ blanks, isBlank c = true) : Spells blanks []
  | cons {blanks rest : List Char} {t : Token} {ts : List Token} (hBlanks : ∀ c ∈ blanks, isBlank c = true)
      (ends : t.Ends rest) (spells : Spells rest ts) : Spells (blanks ++ (t.chars ++ rest)) (t :: ts)

theorem Spells.token {rest : List Char} {t : Token} {ts : List Token} (h : Spells rest ts) (hEnds : t.Ends rest) :
    Spells (t.chars ++ rest) (t :: ts) :=
  @Spells.cons [] rest t ts (by simp) hEnds h

theorem Spells.blanks {text blanks : List Char} {ts : List Token} (h : Spells text ts)
    (hBlanks : ∀ c ∈ blanks, isBlank c = true) : Spells (blanks ++ text) ts := by
  cases h with
  | nil hMore => exact .nil (List.forall_mem_append.mpr ⟨hBlanks, hMore⟩)
  | cons hMore ends spells =>
    rw [← List.append_assoc]
    exact .cons (List.forall_mem_append.mpr ⟨hBlanks, hMore⟩) ends spells

theorem isBlank_of_isDigit {c : Char} (h : c.isDigit = true) : isBlank c = false := by
  rw [Bool.eq_false_iff]
  intro hBlank
  simp only [isBlank, Bool.or_eq_true, decide_eq_true_eq] at hBlank
  rcases hBlank with ((rfl | rfl) | rfl) | rfl <;> exact absurd h (by decide)

/-- A token starts with a character that is no blank. -/
theorem exists_chars (t : Token) : ∃ c cs, t.chars = c :: cs ∧ isBlank c = false := by
  cases t with
  | number n =>
    obtain ⟨c, cs, hChars, rfl | hDigit⟩ := n.exists_chars true
    · exact ⟨'-', cs, hChars, rfl⟩
    · exact ⟨c, cs, hChars, isBlank_of_isDigit hDigit⟩
  | string content => cases content <;> exact ⟨'"', _, rfl, rfl⟩
  | bool b => cases b <;> exact ⟨_, _, rfl, rfl⟩
  | _ => exact ⟨_, _, rfl, rfl⟩

theorem Spells.split {text : List Char} {ts : List Token} (h : Spells text ts) (before : List Token) {fuel : Nat}
    (hFuel : text.length ≤ fuel) : Token.split before fuel text = some (before.reverse ++ ts) := by
  induction h generalizing before fuel with
  | @nil blanks hBlanks =>
    cases fuel with
    | zero =>
      rw [List.length_eq_zero_iff.mp (Nat.le_zero.mp hFuel)]
      simp [Token.split]
    | succ fuel =>
      rw [Token.split, List.dropWhile_eq_nil_iff.mpr hBlanks]
      simp
  | @cons blanks rest t ts hBlanks ends spells ih =>
    obtain ⟨c, cs, hChars, hStart⟩ := exists_chars t
    obtain ⟨fuel, rfl⟩ : ∃ k, fuel = k + 1 := by
      rw [hChars] at hFuel
      exact Nat.exists_eq_succ_of_ne_zero (by intro hZero; simp [hZero] at hFuel)
    have hDrop : (blanks ++ (t.chars ++ rest)).dropWhile isBlank = t.chars ++ rest := by
      rw [List.dropWhile_append_of_pos hBlanks, hChars, List.cons_append, List.dropWhile_cons_of_neg (by simp [hStart])]
    have hNext := next?_chars ends
    have hShorter : rest.length ≤ fuel := by
      rw [hChars] at hFuel
      simp only [List.length_append, List.length_cons] at hFuel
      omega
    rw [Token.split, hDrop]
    rw [hChars] at hNext ⊢
    simp only [List.cons_append] at hNext ⊢
    rw [hNext]
    change Token.split (t :: before) fuel rest = _
    rw [ih (t :: before) hShorter]
    simp

theorem all?_of_spells {text : String} {ts : List Token} (h : Spells text.toList ts) :
    Token.all? text = some ts := by
  rw [Token.all?, h.split [] (Nat.le_refl _)]
  rfl

end TrackLayout.Json
