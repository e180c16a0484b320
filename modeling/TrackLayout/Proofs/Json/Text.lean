import TrackLayout.Json.Parser
import TrackLayout.Json.Printer
import TrackLayout.Proofs.Json.Tokens

/-!
# Texts read back

A value that is written in lines or without blanks is read back as it was, with
its numerals and the order of its members. The tokens of a value take the
reading from the point where a value must follow to the point where one is
complete, whatever is around it.
-/
set_option autoImplicit false

namespace TrackLayout.Json

open Numeral (EndsNumeral)

/-! ## From tokens to a value -/

theorem exists_tokens (v : Json) : ∃ t ts, v.tokens = t :: ts ∧
    ∀ around, Reading.step (.firstItem around) t = Reading.step (.value (.array [] :: around)) t := by
  match v with
  | .null | .bool _ | .number _ | .string _ => exact ⟨_, _, by rw [tokens], fun _ => rfl⟩
  | .array [] | .object [] => exact ⟨_, _, by rw [tokens], fun _ => rfl⟩
  | .array (_ :: _) | .object ((_, _) :: _) => exact ⟨_, _, by rw [tokens, List.cons_append], fun _ => rfl⟩

/-- An item may be the first one wherever a value may follow. -/
theorem run_firstItem (v : Json) (around : List Frame) (ts : List Token) :
    Reading.run (.firstItem around) (v.tokens ++ ts) =
      Reading.run (.value (.array [] :: around)) (v.tokens ++ ts) := by
  obtain ⟨t, rest, hTokens, hStep⟩ := exists_tokens v
  rw [hTokens, List.cons_append, Reading.run, Reading.run, hStep]

mutual

theorem run_tokens (around : List Frame) (ts : List Token) : ∀ v : Json,
    Reading.run (.value around) (v.tokens ++ ts) = Reading.run (.complete v around) ts
  | .null | .bool _ | .number _ | .string _ => by
    rw [tokens]
    rfl
  | .array [] | .object [] => by
    rw [tokens]
    rfl
  | .array (v :: rest) => by
    rw [tokens]
    change Reading.run (.firstItem around) ((v.tokens ++ itemTokens rest) ++ ts) = _
    rw [List.append_assoc, run_firstItem, run_tokens _ _ v]
    exact run_itemTokens [v] around ts rest
  | .object ((key, v) :: rest) => by
    rw [tokens]
    change Reading.run (.value (.object [] key :: around)) ((v.tokens ++ memberTokens rest) ++ ts) = _
    rw [List.append_assoc, run_tokens _ _ v]
    exact run_memberTokens [(key, v)] around ts rest

theorem run_itemTokens (items : List Json) (around : List Frame) (ts : List Token) : ∀ rest : List Json,
    Reading.run (.nextItem items around) (itemTokens rest ++ ts) =
      Reading.run (.complete (.array (items.reverse ++ rest)) around) ts
  | [] => by
    rw [itemTokens, List.append_nil]
    rfl
  | v :: rest => by
    rw [itemTokens]
    change Reading.run (.value (.array items :: around)) ((v.tokens ++ itemTokens rest) ++ ts) = _
    rw [List.append_assoc, run_tokens _ _ v]
    have hRest := run_itemTokens (v :: items) around ts rest
    rwa [List.reverse_cons, List.append_assoc] at hRest

theorem run_memberTokens (members : List (Option String × Json)) (around : List Frame) (ts : List Token) :
    ∀ rest : List (Option String × Json), Reading.run (.nextMember members around) (memberTokens rest ++ ts) =
      Reading.run (.complete (.object (members.reverse ++ rest)) around) ts
  | [] => by
    rw [memberTokens, List.append_nil]
    rfl
  | (key, v) :: rest => by
    rw [memberTokens]
    change Reading.run (.value (.object members key :: around)) ((v.tokens ++ memberTokens rest) ++ ts) = _
    rw [List.append_assoc, run_tokens _ _ v]
    have hRest := run_memberTokens ((key, v) :: members) around ts rest
    rwa [List.reverse_cons, List.append_assoc] at hRest

end

theorem ofTokens?_tokens (v : Json) : ofTokens? v.tokens = some v := by
  have hRun := run_tokens [] [] v
  rw [List.append_nil] at hRun
  rw [ofTokens?, hRun]
  rfl

/-! ## From lines to tokens -/

variable {text : List Char} {ts : List Token}

theorem isBlank_line (level : Nat) : ∀ c ∈ line level, isBlank c = true := by
  intro c hc
  obtain rfl | hSpace := List.mem_cons.mp hc
  · rfl
  · rw [(List.mem_replicate.mp hSpace).2]
    rfl

theorem endsNumeral_cons {c : Char} {rest : List Char} (h : c.isDigit = false ∧ c ≠ '.' ∧ c ≠ 'e' ∧ c ≠ 'E') :
    EndsNumeral (c :: rest) := fun _ hd => Option.some.inj hd ▸ h

theorem endsNumeral_itemLines (level : Nat) (rest : List Json) : EndsNumeral (itemLines level rest ++ text) := by
  cases rest <;> rw [itemLines] <;> exact endsNumeral_cons (by decide)

theorem endsNumeral_memberLines (level : Nat) (rest : List (Option String × Json)) :
    EndsNumeral (memberLines level rest ++ text) := by
  rcases rest with _ | ⟨⟨key, v⟩, rest⟩ <;> rw [memberLines] <;> exact endsNumeral_cons (by decide)

/-- A key on a line of its own, before its value. -/
theorem Spells.member (level : Nat) (key : Option String) (h : Spells text ts) :
    Spells (line (level + 1) ++ ((Token.string key).chars ++ ':' :: ' ' :: text)) (.string key :: .colon :: ts) := by
  have hSpace : Spells ([' '] ++ text) ts := h.blanks (by simp [isBlank])
  have hColon : Spells (Token.colon.chars ++ ([' '] ++ text)) (.colon :: ts) := hSpace.token trivial
  have hKey : Spells ((Token.string key).chars ++ (Token.colon.chars ++ ([' '] ++ text)))
      (.string key :: .colon :: ts) := hColon.token trivial
  exact hKey.blanks (isBlank_line _)

mutual

theorem spells_lines {text : List Char} {ts : List Token} (level : Nat) (h : Spells text ts)
    (hEnds : EndsNumeral text) : ∀ v : Json, Spells (v.lines level ++ text) (v.tokens ++ ts)
  | .null | .bool _ | .string _ => by
    rw [lines, tokens]
    exact h.token trivial
  | .number _ => by
    rw [lines, tokens]
    exact h.token hEnds
  | .array [] => by
    rw [lines, tokens]
    exact (h.token (t := .closeArray) trivial).token (t := .openArray) trivial
  | .array (v :: rest) => by
    have hRest := spells_itemLines level h rest
    have hValue := spells_lines (level + 1) hRest (endsNumeral_itemLines level rest) v
    have hOpen := (hValue.blanks (isBlank_line (level + 1))).token (t := .openArray) trivial
    simpa only [lines, tokens, Token.chars, List.cons_append, List.nil_append, List.append_assoc] using hOpen
  | .object [] => by
    rw [lines, tokens]
    exact (h.token (t := .closeObject) trivial).token (t := .openObject) trivial
  | .object ((key, v) :: rest) => by
    have hRest := spells_memberLines level h rest
    have hValue := spells_lines (level + 1) hRest (endsNumeral_memberLines level rest) v
    have hOpen := (hValue.member level key).token (t := .openObject) trivial
    rw [lines, tokens]
    simpa only [Token.chars, List.cons_append, List.nil_append, List.append_assoc] using hOpen

theorem spells_itemLines {text : List Char} {ts : List Token} (level : Nat) (h : Spells text ts) :
    ∀ rest : List Json, Spells (itemLines level rest ++ text) (itemTokens rest ++ ts)
  | [] => by
    rw [itemLines, itemTokens, List.append_assoc]
    exact (h.token (t := .closeArray) trivial).blanks (isBlank_line level)
  | v :: rest => by
    have hRest := spells_itemLines level h rest
    have hValue := spells_lines (level + 1) hRest (endsNumeral_itemLines level rest) v
    have hNext := (hValue.blanks (isBlank_line (level + 1))).token (t := .comma) trivial
    simpa only [itemLines, itemTokens, Token.chars, List.cons_append, List.nil_append, List.append_assoc] using hNext

theorem spells_memberLines {text : List Char} {ts : List Token} (level : Nat) (h : Spells text ts) :
    ∀ rest : List (Option String × Json), Spells (memberLines level rest ++ text) (memberTokens rest ++ ts)
  | [] => by
    rw [memberLines, memberTokens, List.append_assoc]
    exact (h.token (t := .closeObject) trivial).blanks (isBlank_line level)
  | (key, v) :: rest => by
    have hRest := spells_memberLines level h rest
    have hValue := spells_lines (level + 1) hRest (endsNumeral_memberLines level rest) v
    have hNext := (hValue.member level key).token (t := .comma) trivial
    rw [memberLines, memberTokens]
    simpa only [Token.chars, List.cons_append, List.nil_append, List.append_assoc] using hNext

end

/-- A value that is written in lines is read back as it was. -/
theorem parse?_pretty (v : Json) : parse? v.pretty = some v := by
  have hEnd : Spells [] [] := .nil (by simp)
  have hLines := spells_lines 0 hEnd (by simp [EndsNumeral]) v
  rw [List.append_nil, List.append_nil] at hLines
  have hText : Spells v.pretty.toList v.tokens := by rwa [pretty, String.toList_ofList]
  rw [parse?, all?_of_spells hText]
  exact ofTokens?_tokens v

/-! ## From compact texts to tokens -/

theorem endsNumeral_itemTokens (rest : List Json) : EndsNumeral ((itemTokens rest).flatMap Token.chars ++ text) := by
  cases rest <;> rw [itemTokens] <;> exact endsNumeral_cons (by decide)

theorem endsNumeral_memberTokens (rest : List (Option String × Json)) :
    EndsNumeral ((memberTokens rest).flatMap Token.chars ++ text) := by
  rcases rest with _ | ⟨⟨key, v⟩, rest⟩ <;> rw [memberTokens] <;> exact endsNumeral_cons (by decide)

/-- A key right before its value. -/
theorem Spells.key (key : Option String) (h : Spells text ts) :
    Spells ((Token.string key).chars ++ (Token.colon.chars ++ text)) (.string key :: .colon :: ts) := by
  have hColon : Spells (Token.colon.chars ++ text) (.colon :: ts) := h.token trivial
  exact hColon.token trivial

mutual

theorem spells_tokens {text : List Char} {ts : List Token} (h : Spells text ts) (hEnds : EndsNumeral text) :
    ∀ v : Json, Spells (v.tokens.flatMap Token.chars ++ text) (v.tokens ++ ts)
  | .null | .bool _ | .string _ => by
    rw [tokens, List.flatMap_singleton]
    exact h.token trivial
  | .number _ => by
    rw [tokens, List.flatMap_singleton]
    exact h.token hEnds
  | .array [] => by
    rw [tokens]
    exact (h.token (t := .closeArray) trivial).token (t := .openArray) trivial
  | .array (v :: rest) => by
    have hRest := spells_itemTokens h rest
    have hValue := spells_tokens hRest (endsNumeral_itemTokens rest) v
    have hOpen := hValue.token (t := .openArray) trivial
    simpa only [tokens, List.flatMap_cons, List.flatMap_append, List.cons_append, List.append_assoc] using hOpen
  | .object [] => by
    rw [tokens]
    exact (h.token (t := .closeObject) trivial).token (t := .openObject) trivial
  | .object ((key, v) :: rest) => by
    have hRest := spells_memberTokens h rest
    have hValue := spells_tokens hRest (endsNumeral_memberTokens rest) v
    have hOpen := (hValue.key key).token (t := .openObject) trivial
    rw [tokens]
    simpa only [List.flatMap_cons, List.flatMap_append, List.cons_append, List.append_assoc] using hOpen

theorem spells_itemTokens {text : List Char} {ts : List Token} (h : Spells text ts) :
    ∀ rest : List Json, Spells ((itemTokens rest).flatMap Token.chars ++ text) (itemTokens rest ++ ts)
  | [] => by
    rw [itemTokens, List.flatMap_singleton]
    exact h.token (t := .closeArray) trivial
  | v :: rest => by
    have hRest := spells_itemTokens h rest
    have hValue := spells_tokens hRest (endsNumeral_itemTokens rest) v
    have hNext := hValue.token (t := .comma) trivial
    simpa only [itemTokens, List.flatMap_cons, List.flatMap_append, List.cons_append, List.append_assoc] using hNext

theorem spells_memberTokens {text : List Char} {ts : List Token} (h : Spells text ts) :
    ∀ rest : List (Option String × Json),
      Spells ((memberTokens rest).flatMap Token.chars ++ text) (memberTokens rest ++ ts)
  | [] => by
    rw [memberTokens, List.flatMap_singleton]
    exact h.token (t := .closeObject) trivial
  | (key, v) :: rest => by
    have hRest := spells_memberTokens h rest
    have hValue := spells_tokens hRest (endsNumeral_memberTokens rest) v
    have hNext := (hValue.key key).token (t := .comma) trivial
    rw [memberTokens]
    simpa only [List.flatMap_cons, List.flatMap_append, List.cons_append, List.append_assoc] using hNext

end

/-- A value that is written without blanks is read back as it was. -/
theorem parse?_compact (v : Json) : parse? v.compact = some v := by
  have hEnd : Spells [] [] := .nil (by simp)
  have hTokens := spells_tokens hEnd (by simp [EndsNumeral]) v
  rw [List.append_nil, List.append_nil] at hTokens
  have hText : Spells v.compact.toList v.tokens := by rwa [compact, String.toList_ofList]
  rw [parse?, all?_of_spells hText]
  exact ofTokens?_tokens v

end TrackLayout.Json
