import TrackLayout.Document.Track
import TrackLayout.Junction

/-!
# Documents of rules and junctions

A height rule names its kind in a tag, which may stand anywhere among its
keys. Its text is read without a type before the tag is known, so all of it
must be plain: its strings strings, its numbers in range, and nested no deeper
than untyped values may be.
-/
set_option autoImplicit false

namespace TrackLayout

open Document (toJson)

/-- How deep an untyped value may be nested in a text. -/
def untypedDepth : Nat := 127

namespace HeightRule

def toDocument : Rule → Json
  | .fixedHeight target tolerance weight => .record
    [("type", .text "FixedHeight"), ("target", toJson target), ("tolerance", toJson tolerance),
      ("weight", toJson weight)]
  | .betweenNodes first second ratio weight => .record
    [("type", .text "BetweenNodes"), ("first", toJson first), ("second", toJson second),
      ("ratio", toJson ratio), ("weight", toJson weight)]
  | .inclineBetween inclines other length weight => .record
    [("type", .text "InclineBetween"), ("min_incline", toJson inclines.least),
      ("max_incline", toJson inclines.greatest), ("other", toJson other), ("length", toJson length),
      ("weight", toJson weight)]
  | .linkedTo other => .record [("type", .text "LinkedTo"), ("other", toJson other)]

/-- The tag, and the document without it. -/
def untag? (j : Json) : Option (String × Json) :=
  match j with
  | .array (tag :: rest) => tag.string?.map (·, .array rest)
  | .object members =>
    match members.filter (·.1 == some "type") with
    | [(_, tag)] => tag.string?.map (·, .object (members.filter (·.1 != some "type")))
    | _ => none
  | _ => none

/-- Reads a rule that may be nested at most `room` deep. -/
def ofDocument? (room : Nat) (j : Json) : Option Rule := do
  guard (j.isPlain room)
  let (tag, body) ← untag? j
  match tag with
  | "FixedHeight" =>
    let f ← body.fields? ["target", "tolerance", "weight"]
    return .fixedHeight (← f.get "target") (← f.get "tolerance") (← f.get "weight")
  | "BetweenNodes" =>
    let f ← body.fields? ["first", "second", "ratio", "weight"]
    return .betweenNodes (← f.get "first") (← f.get "second") (← f.get "ratio") (← f.get "weight")
  | "InclineBetween" =>
    let f ← body.fields? ["min_incline", "max_incline", "other", "length", "weight"]
    return .inclineBetween ⟨← f.get "min_incline", ← f.get "max_incline"⟩ (← f.get "other")
      (← f.get "length") (← f.get "weight")
  | "LinkedTo" =>
    let f ← body.fields? ["other"]
    return .linkedTo (← f.get "other")
  | _ => none

end HeightRule

instance : Document Rule := ⟨HeightRule.toDocument, HeightRule.ofDocument? untypedDepth⟩

instance : Document Attachment where
  toJson t := .record [("connection", toJson t.connection), ("direction", toJson t.direction)]
  ofJson? j := do
    let f ← j.fields? ["connection", "direction"]
    return ⟨← f.get "connection", ← f.get "direction"⟩

instance : Document Sides where
  toJson g := .record
    [("forward", toJson g.forward), ("backward", toJson g.backward),
      ("forward_direction", toJson g.forwardDirection),
      ("backward_desires_forward", toJson g.backwardDesiresForward)]
  ofJson? j := do
    let f ← j.fields? ["forward", "backward", "forward_direction", "backward_desires_forward"]
    return ⟨← f.get "forward", ← f.get "backward", ← f.get "forward_direction",
      ← f.get "backward_desires_forward"⟩

/-- The rules of a junction lie two levels deep in its document. -/
instance : Document Junction where
  toJson j := .record
    [("id", toJson j.id), ("position", toJson j.position), ("tracks", toJson j.tracks),
      ("groups", toJson j.sides), ("height_rules", toJson j.rules)]
  ofJson? j := do
    let f ← j.fields? ["id", "position", "tracks", "groups", "height_rules"]
    let rules ← f.required "height_rules" (Json.list? (HeightRule.ofDocument? (untypedDepth - 2)))
    return ⟨← f.get "id", ← f.get "position", ← f.get "tracks", ← f.get "groups", rules⟩

end TrackLayout
