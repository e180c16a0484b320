import TrackLayout.Binary64

/-!
# MessagePack values

The values of the binary format and how they are written: every integer,
length and count in the fewest bytes that hold it, every number as a double.
Whether an integer was written as a signed one is part of the value.

The choices that the format leaves open are those of rmp-serde 1.3 writing with
named fields. Taken as given of it: a record is a map from the names of its
fields, in the order of their declaration, a missing value is nil, and an
integer that is not negative is written as an unsigned one.
-/
set_option autoImplicit false

namespace TrackLayout

abbrev Bytes := List UInt8

inductive MessagePack where
  | nil
  | bool (value : Bool)
  | unsigned (value : UInt64)
  | signed (value : Int64)
  | float (value : Float)
  /-- Text as its bytes, which need not be valid. -/
  | text (bytes : Bytes)
  | binary (bytes : Bytes)
  | extension (bytes : Bytes)
  | array (items : List MessagePack)
  | map (entries : List (MessagePack × MessagePack))
  deriving Inhabited

namespace MessagePack

/-- The last `count` bytes of a number, the highest one first. -/
def bigEndian (n : Nat) : Nat → Bytes
  | 0 => []
  | count + 1 => bigEndian (n / 256) count ++ [n.toUInt8]

def ofBigEndian (bytes : Bytes) : Nat := bytes.foldl (fun n b => n * 256 + b.toNat) 0

/-! ## Writing -/

def unsignedBytes (n : Nat) : Bytes :=
  if n < 0x80 then [n.toUInt8]
  else if n < 0x100 then 0xcc :: bigEndian n 1
  else if n < 0x10000 then 0xcd :: bigEndian n 2
  else if n < 0x100000000 then 0xce :: bigEndian n 4
  else 0xcf :: bigEndian n 8

/-- A negative integer in two's complement; one that is not negative is written as unsigned. -/
def signedBytes (n : Int) : Bytes :=
  let complement (count : Nat) : Bytes := bigEndian (n + Int.pow 2 (8 * count)).toNat count
  if 0 ≤ n then unsignedBytes n.toNat
  else if -0x20 ≤ n then complement 1
  else if -0x80 ≤ n then 0xd0 :: complement 1
  else if -0x8000 ≤ n then 0xd1 :: complement 2
  else if -0x80000000 ≤ n then 0xd2 :: complement 4
  else 0xd3 :: complement 8

/-- A length of text. -/
def textHead (n : Nat) : Bytes :=
  if n < 0x20 then [(0xa0 + n).toUInt8]
  else if n < 0x100 then 0xd9 :: bigEndian n 1
  else if n < 0x10000 then 0xda :: bigEndian n 2
  else 0xdb :: bigEndian n 4

def binaryHead (n : Nat) : Bytes :=
  if n < 0x100 then 0xc4 :: bigEndian n 1
  else if n < 0x10000 then 0xc5 :: bigEndian n 2
  else 0xc6 :: bigEndian n 4

def extensionHead (n : Nat) : Bytes :=
  if n < 0x100 then 0xc7 :: bigEndian n 1
  else if n < 0x10000 then 0xc8 :: bigEndian n 2
  else 0xc9 :: bigEndian n 4

def arrayHead (n : Nat) : Bytes :=
  if n < 0x10 then [(0x90 + n).toUInt8]
  else if n < 0x10000 then 0xdc :: bigEndian n 2
  else 0xdd :: bigEndian n 4

def mapHead (n : Nat) : Bytes :=
  if n < 0x10 then [(0x80 + n).toUInt8]
  else if n < 0x10000 then 0xde :: bigEndian n 2
  else 0xdf :: bigEndian n 4

mutual

def encode : MessagePack → Bytes
  | .nil => [0xc0]
  | .bool false => [0xc2]
  | .bool true => [0xc3]
  | .unsigned n => unsignedBytes n.toNat
  | .signed n => signedBytes n.toInt
  | .float x => 0xcb :: bigEndian x.toBits.toNat 8
  | .text bytes => textHead bytes.length ++ bytes
  | .binary bytes => binaryHead bytes.length ++ bytes
  | .extension bytes => extensionHead (bytes.length - 1) ++ bytes
  | .array items => arrayHead items.length ++ encodeItems items
  | .map entries => mapHead entries.length ++ encodeEntries entries

def encodeItems : List MessagePack → Bytes
  | [] => []
  | v :: rest => v.encode ++ encodeItems rest

def encodeEntries : List (MessagePack × MessagePack) → Bytes
  | [] => []
  | (key, v) :: rest => key.encode ++ v.encode ++ encodeEntries rest

end

/-! ## Making and taking apart records -/

def ofString (s : String) : MessagePack := .text s.toUTF8.toList

def record (fields : List (String × MessagePack)) : MessagePack :=
  .map (fields.map fun (name, v) => (ofString name, v))

end MessagePack

end TrackLayout
