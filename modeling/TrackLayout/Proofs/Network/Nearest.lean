import TrackLayout.Proofs.Binary64.Ranks
import TrackLayout.Proofs.Geometry.Distance
import TrackLayout.Proofs.Network.Proximity

/-!
# The nearest connection

A scan keeps the first of the connections that come first in its order. Where
the order is that of exact squares, these are the connections nearest to the
point, and of several the one created before the others is kept. Squares that
are computed and finite are ordered as the numbers they denote.
-/
set_option autoImplicit false

namespace TrackLayout

open Binary64 Exact

/-! ## Scans -/

section Scan

variable {ι κ : Type} [LinearOrder κ] {key : ι → κ} {x : ι} {xs : List ι}

theorem firstBy?_cons (key : ι → κ) (x : ι) (xs : List ι) : firstBy? key (x :: xs) =
    some ((firstBy? key xs).elim x fun y => if key x ≤ key y then x else y) := by
  rw [firstBy?, List.map_cons, List.minOn?_cons, firstBy?]
  cases hRest : (xs.map fun x => (x, key x)).minOn? (·.2) with
  | none => rfl
  | some entry =>
    have hEntry : entry.2 = key entry.1 := by
      obtain ⟨y, -, rfl⟩ := List.mem_map.mp (List.minOn?_mem hRest)
      rfl
    simp only [Option.elim_some, Option.map_some, minOn, hEntry]
    split <;> rfl

theorem firstBy?_eq_none_iff : firstBy? key xs = none ↔ xs = [] := by
  cases xs with
  | nil => exact ⟨fun _ => rfl, fun _ => rfl⟩
  | cons x xs => simp [firstBy?_cons]

/-- What a scan keeps is strictly below all that came before it, and at most what comes later. -/
theorem exists_of_firstBy? (h : firstBy? key xs = some x) : ∃ earlier later, xs = earlier ++ x :: later ∧
    (∀ y ∈ earlier, key x < key y) ∧ ∀ y ∈ later, key x ≤ key y := by
  induction xs generalizing x with
  | nil => cases h
  | cons first rest ih =>
    rw [firstBy?_cons] at h
    cases hRest : firstBy? key rest with
    | none =>
      obtain rfl := firstBy?_eq_none_iff.mp hRest
      cases h
      exact ⟨[], [], rfl, by simp, by simp⟩
    | some y =>
      obtain ⟨earlier, later, rfl, hEarlier, hLater⟩ := ih hRest
      rw [hRest, Option.elim_some, Option.some.injEq] at h
      split at h
      · next hFirst =>
        subst h
        refine ⟨[], earlier ++ y :: later, rfl, by simp, fun z hz => ?_⟩
        rcases List.mem_append.mp hz with hz | hz
        · exact hFirst.trans (hEarlier z hz).le
        · rcases List.mem_cons.mp hz with rfl | hz
          · exact hFirst
          · exact hFirst.trans (hLater z hz)
      · next hFirst =>
        subst h
        refine ⟨first :: earlier, later, rfl, fun z hz => ?_, hLater⟩
        rcases List.mem_cons.mp hz with rfl | hz
        · exact not_le.mp hFirst
        · exact hEarlier z hz

end Scan

/-! ## Computed squares -/

namespace Segment

variable {s t : Segment} {p : Point} {v w : ℝ}

theorem unsigned_squaredDistance (h : Denotes (PlanarSegment.offset s p).squaredDistance v) :
    Unsigned (PlanarSegment.offset s p).squaredDistance := by
  obtain ⟨⟨_, hOverhead⟩, _, hSideward⟩ := h.of_add
  exact .add (.mul_self hOverhead.isNaN) (.mul_self hSideward.isNaN) h.isNaN

theorem nearness_le_iff (hs : Denotes (PlanarSegment.offset s p).squaredDistance v)
    (ht : Denotes (PlanarSegment.offset t p).squaredDistance w) : s.nearness p ≤ t.nearness p ↔ v ≤ w := by
  rw [nearness_eq_rank hs.isNaN, nearness_eq_rank ht.isNaN]
  exact (unsigned_squaredDistance hs).rank_le_iff (unsigned_squaredDistance ht) hs ht

end Segment

namespace Network

variable {net : Network} {subnetwork : Option Subnetwork} {κ : Type} [LinearOrder κ]

/-- The connection is there and belongs to the subnetwork, and the value is one of its segment. -/
def Has (net : Network) (subnetwork : Option Subnetwork) (value : Segment → κ → Prop) (id : ConnectionId) (d : κ) :
    Prop :=
  ∃ c, net.connection? id = some c ∧ Belongs subnetwork c ∧ value c.segment d

/-- No connection of the subnetwork has a lesser value, and none that was created before has the same. -/
def Leads (net : Network) (subnetwork : Option Subnetwork) (value : Segment → κ → Prop) (id : ConnectionId) : Prop :=
  ∃ d, net.Has subnetwork value id d ∧
    ∀ other e, net.Has subnetwork value other e → d ≤ e ∧ (e = d → id.val ≤ other.val)

/-- An answer is the leading connection, and there is one unless the subnetwork is empty. -/
structure Picks (net : Network) (subnetwork : Option Subnetwork) (value : Segment → κ → Prop)
    (answer : Option ConnectionId) : Prop where
  none_iff : answer = none ↔ ∀ id c, net.connection? id = some c → ¬Belongs subnetwork c
  some_iff : ∀ id, answer = some id ↔ net.Leads subnetwork value id

theorem Leads.unique {value : Segment → κ → Prop} {a b : ConnectionId} (ha : net.Leads subnetwork value a)
    (hb : net.Leads subnetwork value b) : a = b := by
  obtain ⟨d, hd, hLeast⟩ := ha
  obtain ⟨e, he, hLeast'⟩ := hb
  have hSame : e = d := le_antisymm (hLeast' a d hd).1 (hLeast b e he).1
  have hVal : a.val = b.val :=
    UInt32.le_antisymm ((hLeast b e he).2 hSame) ((hLeast' a d hd).2 hSame.symm)
  cases a
  cases b
  exact congrArg Id.mk hVal

/-- The leading connection is the same for any values that are ordered alike. -/
theorem Picks.of_order {μ : Type} [LinearOrder μ] {key : Segment → κ} {value : Segment → μ → Prop}
    {answer : Option ConnectionId} (h : net.Picks subnetwork (fun s d => d = key s) answer)
    (hExists : ∀ id c, net.connection? id = some c → Belongs subnetwork c → ∃ d, value c.segment d)
    (hOrder : ∀ {s t d e}, value s d → value t e → (key s ≤ key t ↔ d ≤ e)) :
    net.Picks subnetwork value answer := by
  refine ⟨h.none_iff, fun id => (h.some_iff id).trans ⟨?_, ?_⟩⟩
  · rintro ⟨_, ⟨c, hc, hOf, rfl⟩, hLeast⟩
    obtain ⟨d, hd⟩ := hExists id c hc hOf
    refine ⟨d, ⟨c, hc, hOf, hd⟩, ?_⟩
    rintro other e ⟨c', hc', hOf', he⟩
    obtain ⟨hBelow, hEarlier⟩ := hLeast other _ ⟨c', hc', hOf', rfl⟩
    exact ⟨(hOrder hd he).mp hBelow, fun hSame => hEarlier (le_antisymm ((hOrder he hd).mpr hSame.le) hBelow)⟩
  · rintro ⟨d, ⟨c, hc, hOf, hd⟩, hLeast⟩
    refine ⟨_, ⟨c, hc, hOf, rfl⟩, ?_⟩
    rintro other _ ⟨c', hc', hOf', rfl⟩
    obtain ⟨e, he⟩ := hExists other c' hc' hOf'
    obtain ⟨hBelow, hEarlier⟩ := hLeast other e ⟨c', hc', hOf', he⟩
    exact ⟨(hOrder hd he).mpr hBelow, fun hSame => hEarlier (le_antisymm ((hOrder he hd).mp hSame.le) hBelow)⟩

namespace WellFormed

variable (hNet : net.WellFormed)
include hNet

theorem mem_filter_isOf {c : Connection} : c ∈ net.connections.values.filter (isOf subnetwork) ↔
    net.connection? c.id = some c ∧ Belongs subnetwork c := by
  rw [List.mem_filter, Table.mem_values, isOf_iff]
  refine and_congr_left fun _ => ⟨?_, fun h => ⟨c.id, h⟩⟩
  rintro ⟨id, hc⟩
  have hId : c.id = id := hNet.connection_id hc
  rwa [hId]

theorem leads_of_nearestBy? {key : Segment → κ} {id : ConnectionId} (h : net.nearestBy? key subnetwork = some id) :
    net.Leads subnetwork (fun s d => d = key s) id := by
  obtain ⟨c, hFirst, rfl⟩ := Option.map_eq_some_iff.mp h
  obtain ⟨earlier, later, hSplit, hEarlier, hLater⟩ := exists_of_firstBy? hFirst
  have hOrder := hNet.values_pairwise.filter (isOf subnetwork)
  rw [hSplit] at hOrder
  have hMem {c' : Connection} : c' ∈ earlier ++ c :: later ↔
      net.connection? c'.id = some c' ∧ Belongs subnetwork c' := by
    rw [← hSplit]
    exact hNet.mem_filter_isOf
  obtain ⟨hc, hOf⟩ := hMem.mp (List.mem_append_right earlier List.mem_cons_self)
  refine ⟨key c.segment, ⟨c, hc, hOf, rfl⟩, ?_⟩
  rintro other e ⟨c', hc', hOf', rfl⟩
  obtain rfl : c'.id = other := hNet.connection_id hc'
  rcases List.mem_append.mp (hMem.mpr ⟨hc', hOf'⟩) with hMem' | hMem'
  · have hLess := hEarlier c' hMem'
    exact ⟨hLess.le, fun hSame => absurd hSame hLess.ne'⟩
  · rcases List.mem_cons.mp hMem' with rfl | hMem'
    · exact ⟨le_rfl, fun _ => UInt32.le_refl _⟩
    · have hBehind := List.rel_of_pairwise_cons (List.pairwise_append.mp hOrder).2.1 hMem'
      exact ⟨hLater c' hMem', fun _ => UInt32.le_of_lt hBehind⟩

theorem picks_nearestBy? (key : Segment → κ) (subnetwork : Option Subnetwork) :
    net.Picks subnetwork (fun s d => d = key s) (net.nearestBy? key subnetwork) := by
  have hNone : net.nearestBy? key subnetwork = none ↔
      ∀ id c, net.connection? id = some c → ¬Belongs subnetwork c := by
    rw [nearestBy?, Option.map_eq_none_iff, firstBy?_eq_none_iff, List.filter_eq_nil_iff]
    constructor
    · intro h id c hc hOf
      exact h c (Table.mem_values.mpr ⟨id, hc⟩) (isOf_iff.mpr hOf)
    · intro h c hMem hOf
      obtain ⟨id, hc⟩ := Table.mem_values.mp hMem
      exact h id c hc (isOf_iff.mp hOf)
  refine ⟨hNone, fun id => ⟨hNet.leads_of_nearestBy?, fun hLeads => ?_⟩⟩
  cases hAnswer : net.nearestBy? key subnetwork with
  | none =>
    obtain ⟨-, ⟨c, hc, hOf, -⟩, -⟩ := hLeads
    exact absurd hOf (hNone.mp hAnswer id c hc)
  | some found => exact congrArg some ((hNet.leads_of_nearestBy? hAnswer).unique hLeads)

end WellFormed

/-- In exact arithmetic, whatever numbers the coordinates are read as, the frame of a segment tells the
square of the distance to it, so that the scan picks the connection nearest to the point. The search for the
nearest connection is the same scan in the order of the computed squares. -/
theorem nearest_run (ops : List Operation) (subnetwork : Option Subnetwork) :
    (∀ (s : PlanarSegment ℝ) (p : PlanarPoint ℝ), s.Measures p (s.offset p)) ∧
    (∀ (read : Float → ℝ) (p : PlanarPoint ℝ),
      (run ops).Picks subnetwork (fun s d => IsLeast (PlanarSegment.squares (s.map read) p) d)
        ((run ops).nearestBy? (fun s => (PlanarSegment.offset (s.map read) p).squaredDistance) subnetwork)) ∧
    ∀ p : Point, (∀ id c, (run ops).connection? id = some c → Belongs subnetwork c →
        (PlanarSegment.offset c.segment p).squaredDistance.isFinite = true) →
      (run ops).Picks subnetwork (fun s (d : ℝ) => Denotes (PlanarSegment.offset s p).squaredDistance d)
        ((run ops).nearest? p subnetwork) := by
  have hNet := wellFormed_run ops
  refine ⟨PlanarSegment.measures_offset, fun read p => ?_, fun p hFinite => ?_⟩
  · have hLeast (s : Segment) := (PlanarSegment.measures_offset (s.map read) p).least
    refine (hNet.picks_nearestBy? _ subnetwork).of_order (fun _ c _ _ => ⟨_, hLeast c.segment⟩) ?_
    intro s t d e hd he
    rw [hd.unique (hLeast s), he.unique (hLeast t)]
  · exact (hNet.picks_nearestBy? _ subnetwork).of_order (fun id c hc hOf => exists_denotes (hFinite id c hc hOf))
      Segment.nearness_le_iff

/-- A street beside a railway. -/
def wayside : List Operation :=
  [.addNode { point := ⟨0.0, 0.0⟩ }, .addNode { point := ⟨10.0, 0.0⟩ }, .addNode { point := ⟨0.0, 2.0⟩ },
    .addNode { point := ⟨10.0, 2.0⟩ }, .connect ⟨0⟩ ⟨1⟩ {},
    .connect ⟨2⟩ ⟨3⟩ { trackType := .ofSubnetwork 1 .street }]

/-- A point as far from one leg of a corner as from the other, and a point that has a street before the railway. -/
theorem nearest_corner :
    (run corner).Leads none (fun s (d : ℝ) => Denotes (PlanarSegment.offset s ⟨3.0, 3.0⟩).squaredDistance d) ⟨0⟩ ∧
    (∀ id ∈ [(⟨0⟩ : ConnectionId), ⟨1⟩], ((run corner).connection? id).map
      (fun c => (PlanarSegment.offset c.segment ⟨3.0, 3.0⟩).squaredDistance) = some 9.0) ∧
    (run wayside).Leads none (fun s (d : ℝ) => Denotes (PlanarSegment.offset s ⟨5.0, 3.0⟩).squaredDistance d) ⟨1⟩ ∧
    (run wayside).Leads (some .rail)
      (fun s (d : ℝ) => Denotes (PlanarSegment.offset s ⟨5.0, 3.0⟩).squaredDistance d) ⟨0⟩ ∧
    ∀ id c, (run wayside).connection? id = some c → ¬Belongs (some .waterway) c := by
  obtain ⟨hFirst, hTie, hFinite⟩ : (run corner).nearest? ⟨3.0, 3.0⟩ none = some ⟨0⟩ ∧
      (∀ id ∈ [(⟨0⟩ : ConnectionId), ⟨1⟩], ((run corner).connection? id).map
        (fun c => (PlanarSegment.offset c.segment ⟨3.0, 3.0⟩).squaredDistance) = some 9.0) ∧
      ∀ c ∈ (run corner).connections.values,
        (PlanarSegment.offset c.segment ⟨3.0, 3.0⟩).squaredDistance.isFinite = true := by decide +kernel
  obtain ⟨hStreet, hRail, hWater, hFinite'⟩ : (run wayside).nearest? ⟨5.0, 3.0⟩ none = some ⟨1⟩ ∧
      (run wayside).nearest? ⟨5.0, 3.0⟩ (some .rail) = some ⟨0⟩ ∧
      (run wayside).nearest? ⟨5.0, 3.0⟩ (some .waterway) = none ∧
      ∀ c ∈ (run wayside).connections.values,
        (PlanarSegment.offset c.segment ⟨5.0, 3.0⟩).squaredDistance.isFinite = true := by decide +kernel
  have hPicks (subnetwork : Option Subnetwork) : (run wayside).Picks subnetwork
      (fun s (d : ℝ) => Denotes (PlanarSegment.offset s ⟨5.0, 3.0⟩).squaredDistance d)
      ((run wayside).nearest? ⟨5.0, 3.0⟩ subnetwork) :=
    (nearest_run wayside subnetwork).2.2 _ fun id c hc _ => hFinite' c (Table.mem_values.mpr ⟨id, hc⟩)
  obtain ⟨-, -, hCorner⟩ := nearest_run corner none
  refine ⟨?_, hTie, ((hPicks none).some_iff ⟨1⟩).mp hStreet, ((hPicks (some .rail)).some_iff ⟨0⟩).mp hRail,
    (hPicks (some .waterway)).none_iff.mp hWater⟩
  exact ((hCorner ⟨3.0, 3.0⟩ fun id c hc _ => hFinite c (Table.mem_values.mpr ⟨id, hc⟩)).some_iff ⟨0⟩).mp hFirst

end Network

end TrackLayout
