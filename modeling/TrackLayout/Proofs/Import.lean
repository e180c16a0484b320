import TrackLayout.Proofs.Network.Operation

/-!
# What imports make of a network

An import only adds nodes where source nodes are, and connects nodes by track
that a classifier made. A property that both keep is kept by every import,
also by one that fails on the way.
-/
set_option autoImplicit false

namespace TrackLayout

namespace ImportState

open Network

variable {P : Network → Prop} {s : ImportState} {ways : List Way} {classifiers : List WayClassifier}

theorem addAll_invariant {ι : Type} {step : ImportState → ι → ImportStep} {xs : List ι}
    (hStep : ∀ x ∈ xs, ∀ s : ImportState, P s.network → P (step s x).2.network) (hs : P s.network) :
    P (s.addAll step xs).2.network := by
  induction xs generalizing s with
  | nil => exact hs
  | cons x rest ih =>
    have hNext := hStep x List.mem_cons_self s hs
    rw [addAll]
    split
    · next hFail =>
      rw [hFail] at hNext
      exact hNext
    · next s' hDone =>
      rw [hDone] at hNext
      exact ih (fun y hy => hStep y (List.mem_cons_of_mem _ hy)) hNext

/-- A property of networks that an import of ways keeps. -/
structure Kept (P : Network → Prop) (ways : List Way) (classifiers : List WayClassifier) : Prop where
  addNode : ∀ {net next : Network} {w : Way} {n : WayNode} {id : NodeId}, w ∈ ways → n ∈ w.nodes →
    Added net { point := n.position } id next → P net → P next
  connect : ∀ {net next : Network} {w : Way} {k : WayClassifier} {t : TrackType} {start stop : NodeId}
    {p q : Point} {id : ConnectionId}, w ∈ ways → k ∈ classifiers → k.trackType? w = some t →
    Connected net start stop ⟨t, k.heightType w, w.plane⟩ p q id next → P net → P next

namespace Kept

variable (hKept : Kept P ways classifiers)
include hKept

theorem nodeOfKey {w : Way} {n : WayNode} (hw : w ∈ ways) (hn : n ∈ w.nodes) (hs : P s.network) :
    P (s.nodeOfKey n).2.network := by
  rw [ImportState.nodeOfKey]
  split
  · exact hs
  · split
    · split
      · exact hs
      · next hAdd => exact hKept.addNode hw hn (addNode_eq_ok hAdd) hs
    · exact hs

theorem connectEnds {w : Way} {k : WayClassifier} {t : TrackType} (hw : w ∈ ways) (hk : k ∈ classifiers)
    (ht : k.trackType? w = some t) (start stop : Option NodeId) (hs : P s.network) :
    P (s.connectEnds ⟨t, k.heightType w, w.plane⟩ start stop).2.network := by
  rw [ImportState.connectEnds.eq_def]
  split
  · split
    · exact hs
    · split
      · exact hs
      · next hConnect =>
        obtain ⟨p, q, hConnected⟩ := connect_eq_ok hConnect
        exact hKept.connect hw hk ht hConnected hs
  · exact hs

theorem importSegment {w : Way} {k : WayClassifier} {t : TrackType} {first second : WayNode} (hw : w ∈ ways)
    (hk : k ∈ classifiers) (ht : k.trackType? w = some t) (hFirst : first ∈ w.nodes)
    (hSecond : second ∈ w.nodes) (hs : P s.network) :
    P (s.importSegment ⟨t, k.heightType w, w.plane⟩ first second).2.network := by
  have hOne := hKept.nodeOfKey hw hFirst hs
  rw [ImportState.importSegment]
  split
  · next h =>
    rw [h] at hOne
    exact hOne
  · next start s' h =>
    rw [h] at hOne
    have hBoth := hKept.nodeOfKey hw hSecond hOne
    split
    · next h =>
      rw [h] at hBoth
      exact hBoth
    · next stop s'' h =>
      rw [h] at hBoth
      exact hKept.connectEnds hw hk ht start stop hBoth

theorem importWay {w : Way} {k : WayClassifier} (hw : w ∈ ways) (hk : k ∈ classifiers) (hs : P s.network) :
    P (ImportState.importWay k s w).2.network := by
  rw [ImportState.importWay]
  split
  · exact hs
  · next t ht =>
    rw [ImportState.importTrack]
    refine addAll_invariant (fun ends hEnds s hs => ?_) (s := s.count _) hs
    obtain ⟨hFirst, hSecond⟩ := List.of_mem_zip hEnds
    exact hKept.importSegment hw hk ht hFirst (List.mem_of_mem_tail hSecond) hs

theorem importWays (hs : P s.network) : P (s.importWays ways classifiers).2.network :=
  addAll_invariant (fun _ hk _ hs => addAll_invariant (fun _ hw _ hs => hKept.importWay hw hk hs) hs) hs

end Kept

end ImportState

end TrackLayout
