import TrackLayout.Binary64.Signed
import TrackLayout.Network

/-!
# Proximity

Which connections lie near a point, and which ones cross another. Wherever the
distances are numbers, their squares decide which connection is nearest. The
index is asked for a rectangle first; what that narrowing may lose is a theorem
about the index and not visible here.
-/
set_option autoImplicit false

namespace TrackLayout

namespace Segment

open Binary64 (Signed)

/-- Place of a segment in the order of distances from a point. A distance that is not a number comes
before all others or after them, as its sign says. -/
def nearness (s : Segment) (p : Point) : Int :=
  (PlanarSegment.offset (s.map Signed.given) (p.map Signed.given)).squaredDistance.rank

theorem heading_map_given (s : Segment) :
    (s.map Signed.given).heading.map Signed.value = s.heading := by
  unfold PlanarSegment.heading
  have h : Scalar.below 0.0 (s.map Signed.given).length = Scalar.below 0.0 s.length := rfl
  rw [h]
  split <;> rfl

theorem forward_map_given (s : Segment) (p : Point) :
    (PlanarSegment.offset (s.map Signed.given) (p.map Signed.given)).forward.value =
      (PlanarSegment.offset s p).forward := by
  simp only [PlanarSegment.offset, ← heading_map_given]
  rfl

theorem sideward_map_given (s : Segment) (p : Point) :
    (PlanarSegment.offset (s.map Signed.given) (p.map Signed.given)).sideward.value =
      (PlanarSegment.offset s p).sideward := by
  simp only [PlanarSegment.offset, ← heading_map_given]
  rfl

theorem overhead_map_given (s : Segment) (p : Point) :
    (PlanarSegment.offset (s.map Signed.given) (p.map Signed.given)).overhead.value =
      (PlanarSegment.offset s p).overhead := by
  have h := forward_map_given s p
  simp only [PlanarSegment.offset] at h ⊢
  rw [Signed.value_add, Signed.value_larger, Signed.value_larger, Signed.value_neg,
    Signed.value_sub, h]
  rfl

theorem squaredDistance_map_given (s : Segment) (p : Point) :
    (PlanarSegment.offset (s.map Signed.given) (p.map Signed.given)).squaredDistance.value =
      (PlanarSegment.offset s p).squaredDistance := by
  simp only [SegmentOffset.squaredDistance, ← overhead_map_given, ← sideward_map_given]
  rfl

/-- Among distances that are numbers the order is that of their squares. -/
theorem nearness_eq_rank {s : Segment} {p : Point}
    (h : (PlanarSegment.offset s p).squaredDistance.isNaN = false) :
    s.nearness p = Binary64.rank (PlanarSegment.offset s p).squaredDistance := by
  rw [nearness, Signed.rank_of_isNaN_eq_false (by rw [squaredDistance_map_given, h]),
    squaredDistance_map_given]

end Segment

/-- The first element whose key is least. -/
def firstBy? {ι κ : Type} [LE κ] [DecidableLE κ] (key : ι → κ) (xs : List ι) : Option ι :=
  ((xs.map fun x => (x, key x)).minOn? (·.2)).map (·.1)

namespace Network

/-- Whether a connection belongs to a subnetwork, if one is asked for. -/
def isOf (subnetwork : Option Subnetwork) (c : Connection) : Bool :=
  subnetwork.all (· == c.trackType.subnetwork)

/-- The connection whose segment comes first in some order. -/
def nearestBy? {κ : Type} [LE κ] [DecidableLE κ] (net : Network) (key : Segment → κ)
    (subnetwork : Option Subnetwork) : Option ConnectionId :=
  (firstBy? (fun c : Connection => key c.segment) (net.connections.values.filter (isOf subnetwork))).map (·.id)

/-- The connection nearest to a point. -/
def nearest? (net : Network) (p : Point) (subnetwork : Option Subnetwork) : Option ConnectionId :=
  net.nearestBy? (·.nearness p) subnetwork

/-- The point lies at most `sideward` beside the connection and `forward` beyond its ends. -/
def isBeside (p : Point) (sideward forward : Float) (c : Connection) : Bool :=
  let o := PlanarSegment.offset c.segment p
  o.sideward.abs ≤ sideward && o.overhead ≤ forward

/-- The connections a point lies beside. -/
def connectionsBeside (net : Network) (p : Point) (subnetwork : Option Subnetwork)
    (sideward forward : Float) : List ConnectionId :=
  (net.connectionsMeeting (.around p (Binary64.maximum sideward forward))).filter fun id =>
    (net.connection? id).any fun c => isOf subnetwork c && isBeside p sideward forward c

/-- Two connections cross if they meet without sharing a node. -/
def crosses (c d : Connection) : Bool :=
  d.id != c.id && !d.touches c.start && !d.touches c.stop && c.segment.meets d.segment

/-- The connections that cross a connection. -/
def connectionsCrossing (net : Network) (id : ConnectionId) : List ConnectionId :=
  match net.connection? id with
  | none => []
  | some c => (net.connectionsMeeting c.bounds).filter fun other => (net.connection? other).any (crosses c)

/-- A point in the frame of a connection. -/
def offset (net : Network) (p : Point) (id : ConnectionId) : Except NetworkError (SegmentOffset Float) :=
  match net.connection? id with
  | some c => .ok (PlanarSegment.offset c.segment p)
  | none => .error (.unknownConnection id)

end Network

end TrackLayout
