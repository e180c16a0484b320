import TrackLayout.Document.Fields
import TrackLayout.Geometry.Rect
import TrackLayout.Json.Parser
import TrackLayout.Json.Printer

/-!
# JSON documents

How values of the library are written as JSON and read from it. A number is
written with the shortest digits that stand for it but read in steps, so one
of many digits may come back changed in its last places. One that is not
finite is written as null and cannot be read back. An integer is read
only from a numeral without point and exponent that is in range.
-/
set_option autoImplicit false

namespace TrackLayout

/-- Types with a JSON form. -/
class Document (α : Type) where
  toJson : α → Json
  ofJson? : Json → Option α

namespace Json

/-! ## Reading -/

def float? : Json → Option Float
  | .number n => n.inSteps?
  | _ => none

/-- An integer from `least` to `greatest`. -/
def int? (least greatest : Int) : Json → Option Int
  | .number n => n.toInt?.filter fun i => least ≤ i && i ≤ greatest
  | _ => none

def uint32? (j : Json) : Option UInt32 := (j.int? 0 (Int.pow 2 32 - 1)).map fun i => i.toNat.toUInt32

def uint64? (j : Json) : Option UInt64 := (j.int? 0 (Int.pow 2 64 - 1)).map fun i => i.toNat.toUInt64

def int64? (j : Json) : Option Int64 := (j.int? (-Int.pow 2 63) (Int.pow 2 63 - 1)).map Int64.ofInt

def bool? : Json → Option Bool
  | .bool b => some b
  | _ => none

def string? : Json → Option String
  | .string s => s
  | _ => none

def list? {α : Type} (read : Json → Option α) : Json → Option (List α)
  | .array items => items.mapM read
  | _ => none

def nullable {α : Type} (read : Json → Option α) : Json → Option (Option α)
  | .null => some none
  | j => (read j).map some

/-- Members of an object all of whose keys are strings. -/
def members? : Json → Option (List (String × Json))
  | .object ms => ms.mapM fun (key, v) => key.map (·, v)
  | _ => none

/-- The fields of a record, given as an object or as an array. -/
def fields? (names : List String) : Json → Option (Fields Json)
  | .array items => Fields.ofListed? names items
  | j => j.members?.bind (Fields.ofNamed? names)

/-- One of a few names, alone or as the only key of an object, with nothing under it. -/
def choice? {α : Type} (choices : List (String × α)) : Json → Option α
  | .string (some s) => choices.lookup s
  | .object [(some s, .null)] => choices.lookup s
  | _ => none

end Json

namespace Document

def write {α : Type} [Document α] (a : α) : Json := toJson a

def read? {α : Type} [Document α] (j : Json) : Option α := ofJson? j

/-- Reads a whole text. -/
def parse? {α : Type} [Document α] (text : String) : Option α := (Json.parse? text).bind ofJson?

instance : Document Float := ⟨.ofFloat, Json.float?⟩

instance : Document Bool := ⟨.bool, Json.bool?⟩

instance : Document UInt32 := ⟨fun n => .ofNat n.toNat, Json.uint32?⟩

instance : Document UInt64 := ⟨fun n => .ofNat n.toNat, Json.uint64?⟩

instance : Document Int64 := ⟨fun n => .ofInt n.toInt, Json.int64?⟩

instance {α : Type} [Document α] : Document (List α) := ⟨.ofList toJson, Json.list? ofJson?⟩

instance {α : Type} [Document α] : Document (Option α) := ⟨.ofOption toJson, Json.nullable ofJson?⟩

/-- A field that is left out when it has no value. -/
def present {α : Type} [Document α] (name : String) (a : Option α) : List (String × Json) :=
  (a.map fun a => (name, toJson a)).toList

end Document

namespace Fields

variable {α : Type} [Document α]

/-- A field in its JSON form. -/
def get (f : Fields Json) (name : String) : Option α := f.required name Document.ofJson?

def getOptional (f : Fields Json) (name : String) : Option (Option α) := f.optional name Document.ofJson?

def getD (f : Fields Json) (name : String) (value : α) : Option α := f.defaulted name Document.ofJson? value

end Fields

open Document (toJson)

/-! ## Geometry -/

instance : Document Point where
  toJson p := .record [("x", toJson p.x), ("y", toJson p.y)]
  ofJson? j := do
    let f ← j.fields? ["x", "y"]
    return ⟨← f.get "x", ← f.get "y"⟩

instance : Document Position where
  toJson p := .record ([("point", toJson p.point)] ++ Document.present "elevation" p.elevation)
  ofJson? j := do
    let f ← j.fields? ["point", "elevation"]
    return ⟨← f.get "point", ← f.getD "elevation" none⟩

instance : Document Rect where
  toJson r := .record
    [("min_x", toJson r.minX), ("min_y", toJson r.minY), ("max_x", toJson r.maxX), ("max_y", toJson r.maxY)]
  ofJson? j := do
    let f ← j.fields? ["min_x", "min_y", "max_x", "max_y"]
    return ⟨← f.get "min_x", ← f.get "min_y", ← f.get "max_x", ← f.get "max_y"⟩

end TrackLayout
