import TrackLayout.Snapshot

/-!
# Snapshots as CSV

One line per record under a line of names; an empty list has no lines at all.
Lists of ids are joined by semicolons.

The rest is that of csv 1.3 with its default settings. Taken as given of it:
commas between fields and a line feed behind every line, the names of the
fields above the first record, an empty field for a missing value, numbers in
the style `NumberStyle.csv` and the names of the values that are not finite.
Quotes are put around a field that is the only one of its line and empty, or
that holds a comma, a quote or the end of a line; no field here is such a one.
-/
set_option autoImplicit false

namespace TrackLayout

namespace Csv

def id {kind : IdKind} (i : Id kind) : String := i.val.toNat.repr

def ids (is : List ConnectionId) : String := ";".intercalate (is.map id)

def float (x : Float) : String := NumberStyle.csv.write x

def bool (b : Bool) : String := if b then "true" else "false"

def line (fields : List String) : String := ",".intercalate fields ++ "\n"

/-- The lines of a list of records under their names. -/
def table {α : Type} (names : List String) (fields : α → List String) : List α → String
  | [] => ""
  | records => String.join (line names :: records.map (line ∘ fields))

end Csv

namespace Snapshot

def nodeFields (n : NodeEntry) : List String :=
  [Csv.id n.id, Csv.float n.x, Csv.float n.y, (n.elevation.map Csv.float).getD "", Csv.ids n.forward,
    Csv.ids n.backward]

def connectionFields (c : ConnectionEntry) : List String :=
  [Csv.id c.id, Csv.id c.start, Csv.id c.stop, Csv.bool c.straight, Csv.bool c.heightFixed,
    c.trackType.toInt.repr]

def nodesCsv (s : Snapshot) : String :=
  Csv.table ["id", "x", "y", "elevation", "forward", "backward"] nodeFields s.nodes

def connectionsCsv (s : Snapshot) : String :=
  Csv.table ["id", "start", "end", "straight", "height_fixed", "track_type"] connectionFields s.connections

end Snapshot

end TrackLayout
