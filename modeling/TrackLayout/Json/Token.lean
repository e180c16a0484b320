import TrackLayout.Decimal.Reader
import TrackLayout.Json.Value

/-!
# JSON tokens

The lexical level of JSON: the characters of each token, and the split of a
text into tokens. A blank is one of the four blanks of the format. Raw control
characters are no part of a string.
-/
set_option autoImplicit false

namespace TrackLayout.Json

inductive Token where
  | openArray
  | closeArray
  | openObject
  | closeObject
  | comma
  | colon
  | null
  | bool (value : Bool)
  | number (value : Numeral)
  | string (content : Option String)

/-! ## Writing -/

def hexDigit (n : Nat) : Char := (n % 16).digitChar

def escape (c : Char) : List Char :=
  if c = '"' then ['\\', '"']
  else if c = '\\' then ['\\', '\\']
  else if c = '\x08' then ['\\', 'b']
  else if c = '\t' then ['\\', 't']
  else if c = '\n' then ['\\', 'n']
  else if c = '\x0c' then ['\\', 'f']
  else if c = '\r' then ['\\', 'r']
  else if c.toNat < 0x20 then ['\\', 'u', '0', '0', hexDigit (c.toNat / 16), hexDigit c.toNat]
  else [c]

def quote (s : String) : List Char := '"' :: s.toList.flatMap escape ++ ['"']

def Token.chars : Token → List Char
  | .openArray => ['[']
  | .closeArray => [']']
  | .openObject => ['{']
  | .closeObject => ['}']
  | .comma => [',']
  | .colon => [':']
  | .null => ['n', 'u', 'l', 'l']
  | .bool true => ['t', 'r', 'u', 'e']
  | .bool false => ['f', 'a', 'l', 's', 'e']
  | .number n => n.chars NumberStyle.json.plus
  | .string (some s) => quote s
  | .string none => ['"', '\\', 'u', 'd', '8', '0', '0', '"']

/-! ## Numerals -/

open Numeral (digits exponent?)

/-- Digits behind a point, if there is a point. -/
def fraction? : List Char → Option (List Digit × List Char)
  | '.' :: rest =>
    match digits rest with
    | ([], _) => none
    | (ds, rest) => some (ds.map Digit.ofChar, rest)
  | rest => some ([], rest)

/-- Digits before the point; a leading zero stands alone. -/
def whole? : List Char → Option (Nat × List Char)
  | '0' :: rest => some (0, rest)
  | cs =>
    match digits cs with
    | ([], _) => none
    | (ds, rest) => some (Nat.ofDigitChars 10 ds 0, rest)

def unsigned? (negative : Bool) (cs : List Char) : Option (Numeral × List Char) := do
  let (whole, rest) ← whole? cs
  let (fraction, rest) ← fraction? rest
  let (exponent, rest) ← exponent? rest
  some (⟨negative, whole, fraction, exponent⟩, rest)

def numeral? : List Char → Option (Numeral × List Char)
  | '-' :: rest => unsigned? true rest
  | cs => unsigned? false cs

/-! ## Strings -/

/-- What one position of a string literal stands for: a character, or a UTF-16 unit given by its code. -/
inductive Piece where
  | char (c : Char)
  | unit (code : Nat)

def hexValue? (c : Char) : Option Nat :=
  if c.isDigit then some (c.toNat - '0'.toNat)
  else if 'a' ≤ c ∧ c ≤ 'f' then some (c.toNat - 'a'.toNat + 10)
  else if 'A' ≤ c ∧ c ≤ 'F' then some (c.toNat - 'A'.toNat + 10)
  else none

def hexCode? (a b c d : Char) : Option Nat := do
  let a ← hexValue? a
  let b ← hexValue? b
  let c ← hexValue? c
  let d ← hexValue? d
  some (((a * 16 + b) * 16 + c) * 16 + d)

/-- The character after a backslash, other than `u`. -/
def escaped? : Char → Option Char
  | '"' => some '"'
  | '\\' => some '\\'
  | '/' => some '/'
  | 'b' => some '\x08'
  | 'f' => some '\x0c'
  | 'n' => some '\n'
  | 'r' => some '\r'
  | 't' => some '\t'
  | _ => none

/-- The pieces up to the closing quote, behind those in `before`, which are in reverse. -/
def pieces? (before : List Piece) : List Char → Option (List Piece × List Char)
  | '"' :: rest => some (before.reverse, rest)
  | '\\' :: 'u' :: a :: b :: c :: d :: rest =>
    match hexCode? a b c d with
    | none => none
    | some code => pieces? (.unit code :: before) rest
  | '\\' :: c :: rest =>
    match escaped? c with
    | none => none
    | some c => pieces? (.char c :: before) rest
  | c :: rest => if c.toNat < 0x20 then none else pieces? (.char c :: before) rest
  | [] => none

/-- Pairs of surrogates become one character; an unpaired one has no text. -/
def joined? (before : List Char) : List Piece → Option (List Char)
  | [] => some before.reverse
  | .char c :: rest => joined? (c :: before) rest
  | .unit high :: .unit low :: rest =>
    if 0xD800 ≤ high ∧ high < 0xDC00 then
      if 0xDC00 ≤ low ∧ low < 0xE000 then
        joined? (.ofNat (0x10000 + (high - 0xD800) * 0x400 + (low - 0xDC00)) :: before) rest
      else none
    else if 0xDC00 ≤ high ∧ high < 0xE000 then none
    else joined? (.ofNat high :: before) (.unit low :: rest)
  | .unit code :: rest =>
    if 0xD800 ≤ code ∧ code < 0xE000 then none else joined? (.ofNat code :: before) rest

/-! ## Splitting a text -/

def isBlank (c : Char) : Bool := c = ' ' || c = '\t' || c = '\n' || c = '\r'

/-- The token a text without leading blanks starts with, and the text behind it. -/
def Token.next? : List Char → Option (Token × List Char)
  | '[' :: rest => some (.openArray, rest)
  | ']' :: rest => some (.closeArray, rest)
  | '{' :: rest => some (.openObject, rest)
  | '}' :: rest => some (.closeObject, rest)
  | ',' :: rest => some (.comma, rest)
  | ':' :: rest => some (.colon, rest)
  | 'n' :: 'u' :: 'l' :: 'l' :: rest => some (.null, rest)
  | 't' :: 'r' :: 'u' :: 'e' :: rest => some (.bool true, rest)
  | 'f' :: 'a' :: 'l' :: 's' :: 'e' :: rest => some (.bool false, rest)
  | '"' :: rest => (pieces? [] rest).map fun (ps, rest) => (.string ((joined? [] ps).map .ofList), rest)
  | cs => (numeral? cs).map fun (n, rest) => (.number n, rest)

/-- All tokens of a text of at most `fuel` characters, behind those in `before`, which are in reverse. -/
def Token.split (before : List Token) : Nat → List Char → Option (List Token)
  | 0, cs => if cs.isEmpty then some before.reverse else none
  | fuel + 1, cs =>
    match cs.dropWhile isBlank with
    | [] => some before.reverse
    | cs =>
      match Token.next? cs with
      | none => none
      | some (token, rest) => Token.split (token :: before) fuel rest

/-- Every token takes at least one character, so the length of the text bounds their number. -/
def Token.all? (text : String) : Option (List Token) :=
  let cs := text.toList
  Token.split [] cs.length cs

end TrackLayout.Json
