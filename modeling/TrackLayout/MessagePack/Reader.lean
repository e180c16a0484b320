import TrackLayout.Document.Fields
import TrackLayout.MessagePack.Value

/-!
# Reading MessagePack

A value is read head by head onto a stack of unfinished arrays and maps, until
the outermost one is complete; what lies behind it is not looked at. The
typed readers below accept every width of integer that holds the value.

What is accepted beyond what is written is that of rmp-serde 1.3: integers and
single numbers in place of doubles, bytes in place of text and of lists of
small integers, places in place of names, a record as an array of all its
values, and at most `maxDepth` levels.
-/
set_option autoImplicit false

namespace TrackLayout.MessagePack

/-- How deep a value may be nested. Arrays, maps and extensions are levels, also if they hold nothing. -/
def maxDepth : Nat := 1023

/-! ## Heads -/

/-- A value without parts, or the number of parts that follow. -/
inductive Head where
  | value (v : MessagePack)
  | array (count : Nat)
  | map (count : Nat)

def take? (count : Nat) (bytes : Bytes) : Option (Bytes × Bytes) :=
  let (taken, rest) := bytes.splitAt count
  if taken.length = count then some (taken, rest) else none

/-- A number of `count` bytes. -/
def word? (count : Nat) (bytes : Bytes) : Option (Nat × Bytes) :=
  (take? count bytes).map fun (taken, rest) => (ofBigEndian taken, rest)

def unsigned? (count : Nat) (bytes : Bytes) : Option (Head × Bytes) :=
  (word? count bytes).map fun (n, rest) => (.value (.unsigned n.toUInt64), rest)

def signed? (count : Nat) (bytes : Bytes) : Option (Head × Bytes) :=
  (word? count bytes).map fun (n, rest) =>
    let value : Int := if n < Nat.pow 2 (8 * count - 1) then n else (n : Int) - Int.pow 2 (8 * count)
    (.value (.signed (Int64.ofInt value)), rest)

/-- That many bytes, as a value. -/
def chunk? (make : Bytes → MessagePack) (count : Nat) (bytes : Bytes) : Option (Head × Bytes) :=
  (take? count bytes).map fun (taken, rest) => (.value (make taken), rest)

/-- As many bytes as a number of `width` bytes says, and `extra` more. -/
def sized? (make : Bytes → MessagePack) (width extra : Nat) (bytes : Bytes) : Option (Head × Bytes) := do
  let (count, rest) ← word? width bytes
  chunk? make (count + extra) rest

def counted? (make : Nat → Head) (width : Nat) (bytes : Bytes) : Option (Head × Bytes) :=
  (word? width bytes).map fun (count, rest) => (make count, rest)

/-- The head that a first byte announces. -/
def Head.ofMarker? (marker : UInt8) (rest : Bytes) : Option (Head × Bytes) :=
  let low (least : Nat) : Nat := marker.toNat - least
  if marker < 0x80 then some (.value (.unsigned marker.toUInt64), rest)
  else if marker < 0x90 then some (.map (low 0x80), rest)
  else if marker < 0xa0 then some (.array (low 0x90), rest)
  else if marker < 0xc0 then chunk? .text (low 0xa0) rest
  else if 0xe0 ≤ marker then some (.value (.signed (Int64.ofInt ((marker.toNat : Int) - 0x100))), rest)
  else
    match marker with
    | 0xc0 => some (.value .nil, rest)
    | 0xc2 => some (.value (.bool false), rest)
    | 0xc3 => some (.value (.bool true), rest)
    | 0xc4 => sized? .binary 1 0 rest
    | 0xc5 => sized? .binary 2 0 rest
    | 0xc6 => sized? .binary 4 0 rest
    | 0xc7 => sized? .extension 1 1 rest
    | 0xc8 => sized? .extension 2 1 rest
    | 0xc9 => sized? .extension 4 1 rest
    | 0xca => (word? 4 rest).map fun (n, rest) => (.value (.float (Binary64.ofSingle n)), rest)
    | 0xcb => (word? 8 rest).map fun (n, rest) => (.value (.float (.ofBits n.toUInt64)), rest)
    | 0xcc => unsigned? 1 rest
    | 0xcd => unsigned? 2 rest
    | 0xce => unsigned? 4 rest
    | 0xcf => unsigned? 8 rest
    | 0xd0 => signed? 1 rest
    | 0xd1 => signed? 2 rest
    | 0xd2 => signed? 4 rest
    | 0xd3 => signed? 8 rest
    | 0xd4 => chunk? .extension 2 rest
    | 0xd5 => chunk? .extension 3 rest
    | 0xd6 => chunk? .extension 5 rest
    | 0xd7 => chunk? .extension 9 rest
    | 0xd8 => chunk? .extension 17 rest
    | 0xd9 => sized? .text 1 0 rest
    | 0xda => sized? .text 2 0 rest
    | 0xdb => sized? .text 4 0 rest
    | 0xdc => counted? .array 2 rest
    | 0xdd => counted? .array 4 rest
    | 0xde => counted? .map 2 rest
    | 0xdf => counted? .map 4 rest
    | _ => none

/-! ## Assembling values -/

/-- An array or map around the value being read: how many parts follow it, and what is already read,
in reverse. -/
inductive Frame where
  | array (left : Nat) (items : List MessagePack)
  | key (left : Nat) (entries : List (MessagePack × MessagePack))
  | entry (left : Nat) (entries : List (MessagePack × MessagePack)) (key : MessagePack)

inductive Reading where
  /-- A value must follow. -/
  | within (around : List Frame)
  | done (value : MessagePack)

/-- A value is complete, and with it every array and map whose last part it is. -/
def Reading.complete (v : MessagePack) : List Frame → Reading
  | [] => .done v
  | .array 0 items :: around => .complete (.array (v :: items).reverse) around
  | .array (left + 1) items :: around => .within (.array left (v :: items) :: around)
  | .key left entries :: around => .within (.entry left entries v :: around)
  | .entry 0 entries key :: around => .complete (.map ((key, v) :: entries).reverse) around
  | .entry (left + 1) entries key :: around => .within (.key left ((key, v) :: entries) :: around)

/-- Takes in a head; none if it would be nested too deep. -/
def Reading.accept (around : List Frame) : Head → Option Reading
  | .value (.extension bytes) =>
    if around.length < maxDepth then some (.complete (.extension bytes) around) else none
  | .value v => some (.complete v around)
  | .array count =>
    if around.length < maxDepth then
      match count with
      | 0 => some (.complete (.array []) around)
      | left + 1 => some (.within (.array left [] :: around))
    else none
  | .map count =>
    if around.length < maxDepth then
      match count with
      | 0 => some (.complete (.map []) around)
      | left + 1 => some (.within (.key left [] :: around))
    else none

/-- Reads until the outermost value is complete, at most `fuel` heads. -/
def Reading.run : Nat → Reading → Bytes → Option MessagePack
  | _, .done v, _ => some v
  | 0, .within _, _ | _ + 1, .within _, [] => none
  | fuel + 1, .within around, marker :: rest =>
    match Head.ofMarker? marker rest with
    | none => none
    | some (head, rest) =>
      match Reading.accept around head with
      | none => none
      | some r => r.run fuel rest

/-- The value at the start of some bytes. Every head takes at least one byte. -/
def decode? (bytes : Bytes) : Option MessagePack := Reading.run bytes.length (.within []) bytes

/-! ## Typed values -/

def uint32? : MessagePack → Option UInt32
  | .unsigned n => if n.toNat < Nat.pow 2 32 then some n.toUInt32 else none
  | .signed n => if 0 ≤ n.toInt ∧ n.toInt < Int.pow 2 32 then some n.toInt.toNat.toUInt32 else none
  | _ => none

def int64? : MessagePack → Option Int64
  | .unsigned n => if n.toNat < Nat.pow 2 63 then some (Int64.ofInt n.toNat) else none
  | .signed n => some n
  | _ => none

def float? : MessagePack → Option Float
  | .float x => some x
  | .unsigned n => some n.toFloat
  | .signed n => some (Float.ofInt n.toInt)
  | _ => none

def bool? : MessagePack → Option Bool
  | .bool b => some b
  | _ => none

/-- Bytes are a list of small integers. -/
def list? {α : Type} (read : MessagePack → Option α) : MessagePack → Option (List α)
  | .array items => items.mapM read
  | .binary bytes => bytes.mapM fun b => read (.unsigned b.toUInt64)
  | _ => none

def nullable {α : Type} (read : MessagePack → Option α) : MessagePack → Option (Option α)
  | .nil => some none
  | v => (read v).map some

/-- The name a key stands for, by its bytes or by its place; none inside if it is no known name. -/
def keyName? (names : List String) : MessagePack → Option (Option String)
  | .text bytes | .binary bytes => some (names.find? (·.toUTF8.toList == bytes))
  | .unsigned place => some names[place.toNat]?
  | _ => none

/-- Entries under known names. -/
def members? (names : List String) (entries : List (MessagePack × MessagePack)) :
    Option (List (String × MessagePack)) := do
  let named ← entries.mapM fun (key, v) => (keyName? names key).map fun name => name.map (·, v)
  return named.filterMap id

/-- The fields of a record, given as a map or as an array of all its values. -/
def fields? (names : List String) : MessagePack → Option (Fields MessagePack)
  | .array items => if items.length = names.length then Fields.ofListed? names items else none
  | .map entries => (members? names entries).bind (Fields.ofNamed? names)
  | _ => none

end TrackLayout.MessagePack
