import TrackLayout.Json.Token

/-!
# Writing JSON

A value is written either compactly, its tokens without any blank, or in lines
with two spaces per level.
-/
set_option autoImplicit false

namespace TrackLayout.Json

mutual

def tokens : Json → List Token
  | .null => [.null]
  | .bool b => [.bool b]
  | .number n => [.number n]
  | .string s => [.string s]
  | .array [] => [.openArray, .closeArray]
  | .array (v :: rest) => .openArray :: v.tokens ++ itemTokens rest
  | .object [] => [.openObject, .closeObject]
  | .object ((key, v) :: rest) => .openObject :: .string key :: .colon :: v.tokens ++ memberTokens rest

/-- The items behind the first one, and the end of the array. -/
def itemTokens : List Json → List Token
  | [] => [.closeArray]
  | v :: rest => .comma :: v.tokens ++ itemTokens rest

/-- The members behind the first one, and the end of the object. -/
def memberTokens : List (Option String × Json) → List Token
  | [] => [.closeObject]
  | (key, v) :: rest => .comma :: .string key :: .colon :: v.tokens ++ memberTokens rest

end

def compact (v : Json) : String := .ofList (v.tokens.flatMap Token.chars)

/-- The start of a line at a level of nesting. -/
def line (level : Nat) : List Char := '\n' :: List.replicate (2 * level) ' '

mutual

def lines (level : Nat) : Json → List Char
  | .null => Token.null.chars
  | .bool b => (Token.bool b).chars
  | .number n => (Token.number n).chars
  | .string s => (Token.string s).chars
  | .array [] => ['[', ']']
  | .array (v :: rest) => '[' :: line (level + 1) ++ v.lines (level + 1) ++ itemLines level rest
  | .object [] => ['{', '}']
  | .object ((key, v) :: rest) =>
    '{' :: line (level + 1) ++ (Token.string key).chars ++ ':' :: ' ' :: v.lines (level + 1) ++
      memberLines level rest

def itemLines (level : Nat) : List Json → List Char
  | [] => line level ++ [']']
  | v :: rest => ',' :: line (level + 1) ++ v.lines (level + 1) ++ itemLines level rest

def memberLines (level : Nat) : List (Option String × Json) → List Char
  | [] => line level ++ ['}']
  | (key, v) :: rest =>
    ',' :: line (level + 1) ++ (Token.string key).chars ++ ':' :: ' ' :: v.lines (level + 1) ++
      memberLines level rest

end

def pretty (v : Json) : String := .ofList (v.lines 0)

end TrackLayout.Json
