/-!
# Fields of a record

A record is given either by name, where unknown names are passed over and no
known name may come twice, or as a list of its values in order. What a missing
field means depends on which of the two it is missing from. These are the rules
of records with derived readers in serde 1.0, for both formats.
-/
set_option autoImplicit false

namespace TrackLayout

inductive Slot (V : Type) where
  | given (value : V)
  /-- Not among the names. -/
  | unnamed
  /-- Beyond the end of the list. -/
  | beyond
  deriving Inhabited

/-- The fields of a record that was given, under their names. -/
structure Fields (V : Type) where
  slots : List (String × Slot V)

namespace Fields

variable {V α : Type}

/-- The slot of one name among named values; none if the name comes twice. -/
def named? (members : List (String × V)) (name : String) : Option (String × Slot V) :=
  match members.filter (·.1 == name) with
  | [] => some (name, .unnamed)
  | [m] => some (name, .given m.2)
  | _ => none

def ofNamed? (names : List String) (members : List (String × V)) : Option (Fields V) :=
  (names.mapM (named? members)).map Fields.mk

/-- Values in order, at most as many as there are names. -/
def ofListed? (names : List String) (values : List V) : Option (Fields V) :=
  if names.length < values.length then none
  else
    let slots := values.map Slot.given ++ List.replicate (names.length - values.length) .beyond
    some ⟨names.zip slots⟩

def slot (f : Fields V) (name : String) : Slot V := (f.slots.lookup name).getD .beyond

/-- A field that must be given. -/
def required (f : Fields V) (name : String) (read : V → Option α) : Option α :=
  match f.slot name with
  | .given v => read v
  | .unnamed | .beyond => none

/-- A field that may be left out by name, which means that it has no value. -/
def optional (f : Fields V) (name : String) (read : V → Option (Option α)) : Option (Option α) :=
  match f.slot name with
  | .given v => read v
  | .unnamed => some none
  | .beyond => none

/-- A field that may be left out either way. -/
def defaulted (f : Fields V) (name : String) (read : V → Option α) (value : α) : Option α :=
  match f.slot name with
  | .given v => read v
  | .unnamed | .beyond => some value

end Fields

end TrackLayout
