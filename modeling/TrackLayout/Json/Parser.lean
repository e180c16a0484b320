import TrackLayout.Json.Token

/-!
# Reading JSON

Tokens are shifted one by one onto a stack of unfinished arrays and objects.
Every token makes one step, so reading ends with the last token, however deep
the text is nested. Blanks may surround the value, nothing else. A text that no
value has is refused as a whole; what is wrong with it is not told.
-/
set_option autoImplicit false

namespace TrackLayout.Json

/-- An array or object around the value being read; what is already read is in reverse. -/
inductive Frame where
  | array (items : List Json)
  | object (members : List (Option String × Json)) (key : Option String)

inductive Reading where
  /-- A value must follow. -/
  | value (around : List Frame)
  /-- An array was opened: its first item or its end. -/
  | firstItem (around : List Frame)
  /-- An object was opened: its first key or its end. -/
  | firstKey (around : List Frame)
  | nextKey (members : List (Option String × Json)) (around : List Frame)
  | colon (members : List (Option String × Json)) (key : Option String) (around : List Frame)
  /-- An item is complete: a comma or the end of the array. -/
  | nextItem (items : List Json) (around : List Frame)
  /-- A member is complete: a comma or the end of the object. -/
  | nextMember (members : List (Option String × Json)) (around : List Frame)
  | done (value : Json)

/-- A value is complete. -/
def Reading.complete (v : Json) : List Frame → Reading
  | [] => .done v
  | .array items :: around => .nextItem (v :: items) around
  | .object members key :: around => .nextMember ((key, v) :: members) around

/-- A value must follow, and this is its first token. -/
def Reading.start (around : List Frame) : Token → Option Reading
  | .openArray => some (.firstItem around)
  | .openObject => some (.firstKey around)
  | .null => some (.complete .null around)
  | .bool b => some (.complete (.bool b) around)
  | .number n => some (.complete (.number n) around)
  | .string s => some (.complete (.string s) around)
  | .closeArray | .closeObject | .comma | .colon => none

def Reading.step : Reading → Token → Option Reading
  | .value around, t => start around t
  | .firstItem around, .closeArray => some (.complete (.array []) around)
  | .firstItem around, t => start (.array [] :: around) t
  | .firstKey around, .closeObject => some (.complete (.object []) around)
  | .firstKey around, .string key => some (.colon [] key around)
  | .nextKey members around, .string key => some (.colon members key around)
  | .colon members key around, .colon => some (.value (.object members key :: around))
  | .nextItem items around, .comma => some (.value (.array items :: around))
  | .nextItem items around, .closeArray => some (.complete (.array items.reverse) around)
  | .nextMember members around, .comma => some (.nextKey members around)
  | .nextMember members around, .closeObject => some (.complete (.object members.reverse) around)
  | _, _ => none

def Reading.run : Reading → List Token → Option Reading
  | r, [] => some r
  | r, t :: rest =>
    match r.step t with
    | none => none
    | some r => r.run rest

def Reading.result? : Reading → Option Json
  | .done v => some v
  | _ => none

def ofTokens? (tokens : List Token) : Option Json := (Reading.run (.value []) tokens).bind Reading.result?

def parse? (text : String) : Option Json := (Token.all? text).bind ofTokens?

end TrackLayout.Json
