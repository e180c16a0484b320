import Mathlib.Data.List.Forall2
import TrackLayout.Proofs.Decimal.Reader
import TrackLayout.Proofs.Snapshot.Text
import TrackLayout.Snapshot.Csv

/-!
# Snapshots read back from CSV

A table is split at the ends of its lines and at its commas, since none of its
fields needs quotes, and every field is read as what it was written for. So a
table tells its records, down to the sign of a zero.
-/
set_option autoImplicit false

namespace TrackLayout

namespace Csv

/-! ## Lines and fields -/

def pieces (mark : Char) (text : String) : List String := (text.split mark).toList.map (·.copy)

/-- The lines of a text in their fields, if the last line is ended. -/
def rows? (text : String) : Option (List (List String)) :=
  let lines := pieces '\n' text
  if lines.getLast? = some "" then some (lines.dropLast.map (pieces ',')) else none

/-- A field that needs no quotes. -/
def Bare (field : String) : Prop := ∀ c ∈ [',', '"', '\n', '\r'], c ∉ field.toList

theorem pieces_intercalate {mark : Char} {fields : List String} (hNe : fields ≠ [])
    (h : ∀ field ∈ fields, mark ∉ field.toList) :
    pieces mark ((String.singleton mark).intercalate fields) = fields := by
  rw [pieces, String.toList_split_intercalate h, if_neg hNe]

theorem not_mem_intercalate {c : Char} {mark : String} {fields : List String} (hMark : c ∉ mark.toList)
    (h : ∀ field ∈ fields, c ∉ field.toList) : c ∉ (mark.intercalate fields).toList := by
  induction fields with
  | nil => simp
  | cons field rest ih =>
    obtain ⟨hFirst, hRest⟩ := List.forall_mem_cons.mp h
    by_cases hLast : rest = []
    · rwa [hLast, String.intercalate_singleton]
    · rw [String.intercalate_cons_of_ne_nil hLast, String.toList_append, String.toList_append, List.mem_append,
        List.mem_append]
      exact not_or.mpr ⟨not_or.mpr ⟨hFirst, hMark⟩, ih hRest⟩

/-- Behind its last end of a line a table has one more line, an empty one. -/
theorem join_lines (rows : List (List String)) :
    String.join (rows.map line) = "\n".intercalate (rows.map (",".intercalate ·) ++ [""]) := by
  induction rows with
  | nil => simp
  | cons row rest ih =>
    rw [List.map_cons, String.join_cons, ih, line, List.map_cons, List.cons_append,
      String.intercalate_cons_of_ne_nil (by simp)]

theorem rows?_join (rows : List (List String)) (hNe : ∀ row ∈ rows, row ≠ [])
    (hBare : ∀ row ∈ rows, ∀ field ∈ row, Bare field) : rows? (String.join (rows.map line)) = some rows := by
  have hLines : pieces '\n' (String.join (rows.map line)) = rows.map (",".intercalate ·) ++ [""] := by
    rw [join_lines]
    refine pieces_intercalate (by simp) fun text hText => ?_
    obtain hLine | hEnd := List.mem_append.mp hText
    · obtain ⟨row, hRow, rfl⟩ := List.mem_map.mp hLine
      exact not_mem_intercalate (by decide) fun field hField => hBare row hRow field hField '\n' (by decide)
    · rw [List.mem_singleton.mp hEnd]
      decide
  have hFields : (rows.map (",".intercalate ·)).map (pieces ',') = rows := by
    rw [List.map_map]
    refine (List.map_congr_left fun row hRow => ?_).trans (List.map_id _)
    exact pieces_intercalate (hNe row hRow) fun field hField => hBare row hRow field hField ',' (by decide)
  rw [rows?, hLines, List.getLast?_concat, List.dropLast_concat, hFields]
  exact if_pos rfl

/-! ## Tables -/

/-- A line tells a record: it has a field for each column, none of which needs quotes, and is read as the record. -/
structure Tells {α : Type} (columns : Nat) (read? : List String → Option α) (a : α) (fields : List String) : Prop where
  length : fields.length = columns
  bare : ∀ field ∈ fields, Bare field
  read : read? fields = some a

/-- A text holds records under their names: a line for each of them, and no text if there are none. -/
structure Holds {α : Type} (names : List String) (read? : List String → Option α) (records : List α) (text : String) :
    Prop where
  empty : records = [] → text = ""
  rows : records ≠ [] → ∃ lines, rows? text = some (names :: lines) ∧
    List.Forall₂ (Tells names.length read?) records lines

section Tables

variable {α : Type} {names : List String} {read? : List String → Option α}

theorem holds_table {fields : α → List String} {records : List α} (hNames : names ≠ [])
    (hBare : ∀ name ∈ names, Bare name) (h : ∀ a ∈ records, Tells names.length read? a (fields a)) :
    Holds names read? records (table names fields records) where
  empty hNone := by rw [hNone, table]
  rows hSome := by
    refine ⟨records.map fields, ?_, List.forall₂_map_right_iff.mpr (List.forall₂_same.mpr h)⟩
    obtain ⟨a, rest, rfl⟩ := List.exists_cons_of_ne_nil hSome
    have hWide : ∀ row ∈ names :: (a :: rest).map fields, row ≠ [] := by
      refine List.forall_mem_cons.mpr ⟨hNames, List.forall_mem_map.mpr fun b hb => ?_⟩
      exact List.ne_nil_of_length_pos ((h b hb).length ▸ List.length_pos_of_ne_nil hNames)
    have hAllBare : ∀ row ∈ names :: (a :: rest).map fields, ∀ field ∈ row, Bare field :=
      List.forall_mem_cons.mpr ⟨hBare, List.forall_mem_map.mpr fun b hb => (h b hb).bare⟩
    have hRows := rows?_join _ hWide hAllBare
    rwa [List.map_cons, List.map_map] at hRows

theorem rows?_empty : rows? "" = some [] := rows?_join [] (by simp) (by simp)

/-- A text holds no other records. -/
theorem Holds.unique {as bs : List α} {text : String} (ha : Holds names read? as text)
    (hb : Holds names read? bs text) : as = bs := by
  have hNone {cs : List α} (hc : Holds names read? cs "") : cs = [] := by
    by_contra hSome
    obtain ⟨lines, hRows, -⟩ := hc.rows hSome
    rw [rows?_empty] at hRows
    cases hRows
  by_cases hEmpty : text = ""
  · subst hEmpty
    rw [hNone ha, hNone hb]
  · obtain ⟨lines, hLines, hLeft⟩ := ha.rows fun h => hEmpty (ha.empty h)
    obtain ⟨others, hOthers, hRight⟩ := hb.rows fun h => hEmpty (hb.empty h)
    have hSame := Option.some.inj (hLines.symm.trans hOthers)
    rw [List.cons.injEq] at hSame
    rw [← hSame.2] at hRight
    exact List.left_unique_forall₂' (fun _ _ _ h h' => Option.some.inj (h.read.symm.trans h'.read)) hLeft hRight

end Tables

/-! ## Fields -/

/-- A field tells a value: it needs no quotes and is read as the value. -/
structure TellsField {α : Type} (read? : String → Option α) (a : α) (field : String) : Prop where
  bare : Bare field
  read : read? field = some a

theorem bare_of_marks {field : String} (h : ∀ c ∈ field.toList, c.isDigit = true ∨ c ∈ ['-', '.', 'e', '+']) :
    Bare field := by
  have hQuoted : ∀ c ∈ [',', '"', '\n', '\r'], c.isDigit = false ∧ c ∉ ['-', '.', 'e', '+'] := by simp
  intro c hMark hc
  obtain ⟨hDigit, hOther⟩ := hQuoted c hMark
  exact (h c hc).elim (fun hSome => absurd hSome (hDigit ▸ by decide)) hOther

theorem isDigit_of_mem_repr {n : Nat} {c : Char} (h : c ∈ n.repr.toList) : c.isDigit = true := by
  rw [Nat.toList_repr] at h
  exact Numeral.isDigit_natChars n c h

def id? {kind : IdKind} (field : String) : Option (Id kind) :=
  (field.toNat?.filter (· < UInt32.size)).map fun n => ⟨.ofNat n⟩

theorem tellsField_id {kind : IdKind} (i : Id kind) : TellsField id? i (id i) where
  bare := bare_of_marks fun _ hc => .inl (isDigit_of_mem_repr hc)
  read := by
    rw [id?, id, Nat.toNat?_repr, Option.filter_some, if_pos (decide_eq_true i.val.toNat_lt), Option.map_some,
      UInt32.ofNat_toNat]

def ids? (field : String) : Option (List ConnectionId) := if field = "" then some [] else (pieces ';' field).mapM id?

theorem tellsField_ids (is : List ConnectionId) : TellsField ids? is (ids is) := by
  have hMark : ∀ field ∈ is.map id, ';' ∉ field.toList := by
    refine List.forall_mem_map.mpr fun i _ hMark => ?_
    cases isDigit_of_mem_repr hMark
  constructor
  · intro c hQuoted
    have hMarks : Bare ";" := by simp [Bare]
    exact not_mem_intercalate (hMarks c hQuoted) (List.forall_mem_map.mpr fun i _ => (tellsField_id i).bare c hQuoted)
  · cases is with
    | nil => rfl
    | cons i rest =>
      have hPieces : pieces ';' (ids (i :: rest)) = (i :: rest).map id := pieces_intercalate (by simp) hMark
      have hSome : ids (i :: rest) ≠ "" := by cases rest <;> simp [ids, id]
      have hRead : id? ∘ id = fun i : ConnectionId => pure i := funext fun i => (tellsField_id i).read
      rw [ids?, if_neg hSome, hPieces, List.mapM_map, hRead, List.mapM_pure, List.map_id']
      rfl

theorem tellsField_float {x : Float} (h : x.isNaN = false) : TellsField Binary64.ofString? x (float x) where
  bare := by
    rw [float, NumberStyle.write]
    split
    · refine bare_of_marks fun c hc => ?_
      rw [String.toList_ofList] at hc
      exact Numeral.isDigit_or_of_mem_chars _ _ c hc
    · rw [NumberStyle.nonfinite]
      split_ifs <;> simp [Bare]
  read := Binary64.ofString?_write h

def elevation? (field : String) : Option (Option Float) :=
  if field = "" then some none else (Binary64.ofString? field).map some

theorem tellsField_elevation (elevation : Option Float) (h : ∀ z ∈ elevation, z.isNaN = false) :
    TellsField elevation? elevation ((elevation.map float).getD "") := by
  cases elevation with
  | none => exact ⟨by simp [Bare], rfl⟩
  | some z =>
    obtain ⟨hBare, hRead⟩ := tellsField_float (h z rfl)
    refine ⟨hBare, ?_⟩
    have hSome : float z ≠ "" := by
      intro hEmpty
      rw [hEmpty] at hRead
      cases hRead
    rw [Option.map_some, Option.getD_some, elevation?, if_neg hSome, hRead, Option.map_some]

def bool? (field : String) : Option Bool :=
  if field = "true" then some true else if field = "false" then some false else none

theorem tellsField_bool : ∀ b : Bool, TellsField bool? b (bool b)
  | true => ⟨by simp [Bare, bool], rfl⟩
  | false => ⟨by simp [Bare, bool], rfl⟩

def int64? (field : String) : Option Int64 := field.toInt?.map .ofInt

theorem tellsField_int64 (n : Int64) : TellsField int64? n n.toInt.repr where
  bare := by
    refine bare_of_marks fun c hc => ?_
    rw [Int.repr_eq_if] at hc
    split at hc
    · exact .inl (isDigit_of_mem_repr hc)
    · rw [String.toList_append, List.mem_append] at hc
      refine hc.symm.imp isDigit_of_mem_repr fun hSign => ?_
      rw [List.mem_singleton.mp hSign]
      exact List.mem_cons_self
  read := by rw [int64?, Int.toInt?_repr, Option.map_some, Int64.ofInt_toInt]

/-! ## Records -/

def node? : List String → Option NodeEntry
  | [id, x, y, elevation, forward, backward] => do
    let id ← id? id
    let x ← Binary64.ofString? x
    let y ← Binary64.ofString? y
    let elevation ← elevation? elevation
    let forward ← ids? forward
    let backward ← ids? backward
    some { id, x, y, elevation, forward, backward }
  | _ => none

def connection? : List String → Option ConnectionEntry
  | [id, start, stop, straight, heightFixed, trackType] => do
    let id ← id? id
    let start ← id? start
    let stop ← id? stop
    let straight ← bool? straight
    let heightFixed ← bool? heightFixed
    let trackType ← int64? trackType
    some { id, start, stop, straight, heightFixed, trackType }
  | _ => none

theorem tells_node {n : NodeEntry} (h : ∀ x ∈ n.numbers, x.isNaN = false) :
    Tells 6 node? n (Snapshot.nodeFields n) := by
  have hX := tellsField_float (h n.x (by simp [NodeEntry.numbers]))
  have hY := tellsField_float (h n.y (by simp [NodeEntry.numbers]))
  have hElevation := tellsField_elevation n.elevation fun z hz =>
    h z (by simp [NodeEntry.numbers, Option.mem_def.mp hz])
  constructor
  · rfl
  · simp [Snapshot.nodeFields, (tellsField_id n.id).bare, hX.bare, hY.bare, hElevation.bare,
      (tellsField_ids n.forward).bare, (tellsField_ids n.backward).bare]
  · simp only [node?, Snapshot.nodeFields, (tellsField_id n.id).read, hX.read, hY.read, hElevation.read,
      (tellsField_ids n.forward).read, (tellsField_ids n.backward).read, Option.bind_eq_bind, Option.bind_some]

theorem tells_connection (c : ConnectionEntry) : Tells 6 connection? c (Snapshot.connectionFields c) where
  length := rfl
  bare := by
    simp [Snapshot.connectionFields, (tellsField_id c.id).bare, (tellsField_id c.start).bare,
      (tellsField_id c.stop).bare, (tellsField_bool c.straight).bare, (tellsField_bool c.heightFixed).bare,
      (tellsField_int64 c.trackType).bare]
  read := by
    simp only [connection?, Snapshot.connectionFields, (tellsField_id c.id).read, (tellsField_id c.start).read,
      (tellsField_id c.stop).read, (tellsField_bool c.straight).read, (tellsField_bool c.heightFixed).read,
      (tellsField_int64 c.trackType).read, Option.bind_eq_bind, Option.bind_some]

end Csv

/-! ## The whole snapshot -/

namespace Snapshot

open Csv (Holds node? connection?)

theorem holds_nodesCsv {s : Snapshot} (h : ∀ x ∈ s.numbers, x.isNaN = false) :
    Holds ["id", "x", "y", "elevation", "forward", "backward"] node? s.nodes s.nodesCsv :=
  Csv.holds_table (by simp) (by simp [Csv.Bare]) fun n hn =>
    Csv.tells_node fun x hx => h x (List.mem_flatMap.mpr ⟨n, hn, hx⟩)

theorem holds_connectionsCsv (s : Snapshot) :
    Holds ["id", "start", "end", "straight", "height_fixed", "track_type"] connection? s.connections s.connectionsCsv :=
  Csv.holds_table (by simp) (by simp [Csv.Bare]) fun c _ => Csv.tells_connection c

/-- The tables of a snapshot hold its nodes and its connections, and those of no other snapshot. -/
theorem csv_exact (s : Snapshot) (h : ∀ x ∈ s.numbers, x.isNaN = false) :
    Holds ["id", "x", "y", "elevation", "forward", "backward"] node? s.nodes s.nodesCsv ∧
      Holds ["id", "start", "end", "straight", "height_fixed", "track_type"] connection? s.connections
        s.connectionsCsv ∧
      ∀ t : Snapshot, (∀ x ∈ t.numbers, x.isNaN = false) →
        (s.nodesCsv = t.nodesCsv → s.nodes = t.nodes) ∧
          (s.connectionsCsv = t.connectionsCsv → s.connections = t.connections) := by
  have hNodes := holds_nodesCsv h
  have hConnections := holds_connectionsCsv s
  refine ⟨hNodes, hConnections, fun t ht => ⟨fun hSame => ?_, fun hSame => ?_⟩⟩
  · rw [hSame] at hNodes
    exact hNodes.unique (holds_nodesCsv ht)
  · rw [hSame] at hConnections
    exact hConnections.unique (holds_connectionsCsv t)

/-- A switch at negative zero and a node without end. -/
def points : Snapshot where
  nodes := [⟨⟨0⟩, -0.0, Binary64.infinity, none, [⟨7⟩, ⟨12⟩], []⟩, ⟨⟨4294967294⟩, 1e-7, 5e-324, some 0.0, [], [⟨7⟩]⟩]
  connections := [⟨⟨7⟩, ⟨0⟩, ⟨4294967294⟩, false, true, -3⟩]

theorem csv_exact_points : (∀ x ∈ points.numbers, x.isNaN = false) ∧
    points.nodesCsv = "id,x,y,elevation,forward,backward\n0,-0.0,inf,,7;12,\n4294967294,1e-7,5e-324,0.0,,7\n" ∧
    Holds ["id", "x", "y", "elevation", "forward", "backward"] node? points.nodes points.nodesCsv ∧
    Holds ["id", "start", "end", "straight", "height_fixed", "track_type"] connection? points.connections
      points.connectionsCsv ∧
    (∀ x ∈ (points.mapNumbers (-·)).numbers, x.isNaN = false) ∧
    points.nodesCsv ≠ (points.mapNumbers (-·)).nodesCsv := by
  have hNumbers : ∀ x ∈ points.numbers, x.isNaN = false := by decide +kernel
  have hOthers : ∀ x ∈ (points.mapNumbers (-·)).numbers, x.isNaN = false := by decide +kernel
  obtain ⟨hNodes, hConnections, hUnique⟩ := csv_exact points hNumbers
  refine ⟨hNumbers, by decide +kernel, hNodes, hConnections, hOthers, fun hSame => ?_⟩
  exact absurd ((hUnique _ hOthers).1 hSame) (by decide +kernel)

end Snapshot

end TrackLayout
