import Mathlib.Algebra.GroupWithZero.Nat
import TrackLayout.Proofs.Import.Plan

/-!
# What imports count

The counters of an import tell how many nodes and connections it has added. A
segment of an accepted way adds at most a node for each of its ends, and either
a connection or one to the segments that are skipped. Nodes stand for keys as
long as the import goes on, and two ends are connected only if they are
different nodes, so an import fails only for want of ids.
-/
set_option autoImplicit false

namespace TrackLayout.ImportState

open Network

variable {s : ImportState} {n k : Nat}

/-- The legs of a way, if a classifier handles it. -/
def handled (classifier : WayClassifier) (w : Way) : List (WayNode × WayNode) :=
  (classifier.trackType? w).elim [] fun _ => w.legs

/-- The segments that an import goes through, in order. -/
def allHandled (ways : List Way) (classifiers : List WayClassifier) : List (WayNode × WayNode) :=
  classifiers.flatMap fun classifier => ways.flatMap (handled classifier)

/-- After `k` segments, the counters tell what is in the network, with at most `n` nodes. -/
structure Counted (n k : Nat) (s : ImportState) : Prop where
  nodes : s.network.nodes.size = s.importer.report.nodes
  nodeSlots : s.network.nodes.slots.size = s.importer.report.nodes
  connections : s.network.connections.size = s.importer.report.connections
  connectionSlots : s.network.connections.slots.size = s.importer.report.connections
  nodes_le : s.importer.report.nodes ≤ n
  segments : s.importer.report.connections + s.importer.report.skippedSegments = k
  known : ∀ {key id}, (key, some id) ∈ s.importer.known → (s.network.node? id).isSome = true

namespace Counted

theorem mono {n' : Nat} (h : s.Counted n k) (hn : n ≤ n') : s.Counted n' k :=
  { h with nodes_le := h.nodes_le.trans hn }

theorem start (onLand : Point → Bool) : Counted 0 0 ⟨{ onLand }, .empty⟩ where
  nodes := rfl
  nodeSlots := rfl
  connections := rfl
  connectionSlots := rfl
  nodes_le := Nat.le_refl 0
  segments := rfl
  known := nofun

theorem accept (h : s.Counted n k) : (s.count fun r => { r with ways := r.ways + 1 }).Counted n k :=
  ⟨h.nodes, h.nodeSlots, h.connections, h.connectionSlots, h.nodes_le, h.segments, h.known⟩

theorem skip (h : s.Counted n k) : s.skip.Counted n (k + 1) :=
  ⟨h.nodes, h.nodeSlots, h.connections, h.connectionSlots, h.nodes_le, congrArg (· + 1) h.segments, h.known⟩

theorem remember (h : s.Counted n k) (key : UInt64) {node : Option NodeId}
    (hNode : ∀ id, node = some id → (s.network.node? id).isSome = true) : (s.remember key node).Counted n k where
  nodes := h.nodes
  nodeSlots := h.nodeSlots
  connections := h.connections
  connectionSlots := h.connectionSlots
  nodes_le := h.nodes_le
  segments := h.segments
  known {other id} hMem := by
    rcases List.mem_append.mp hMem with hOld | hNew
    · exact h.known hOld
    · cases List.mem_singleton.mp hNew
      exact hNode id rfl

theorem addNode (h : s.Counted n k) {position : Position} {id : NodeId} {network : Network}
    (hAdded : Added s.network position id network) :
    ({ s with network }.count fun r => { r with nodes := r.nodes + 1 }).Counted (n + 1) k where
  nodes := (Table.size_add? hAdded.add).trans (congrArg (· + 1) h.nodes)
  nodeSlots := (Table.slots_size_add? hAdded.add).trans (congrArg (· + 1) h.nodeSlots)
  connections := (congrArg Table.size hAdded.connections).trans h.connections
  connectionSlots := (congrArg (·.slots.size) hAdded.connections).trans h.connectionSlots
  nodes_le := Nat.succ_le_succ h.nodes_le
  segments := h.segments
  known {key other} hMem := by
    have hOld := h.known hMem
    dsimp only [ImportState.count]
    rw [hAdded.node?]
    split
    · rfl
    · exact hOld

theorem connect (h : s.Counted n k) {a b : NodeId} {spec : TrackSpec} {p q : Point} {id : ConnectionId}
    {network : Network} (hConnected : Connected s.network a b spec p q id network) :
    ({ s with network }.count fun r => { r with connections := r.connections + 1 }).Counted n (k + 1) where
  nodes := by
    dsimp only [ImportState.count]
    rw [hConnected.nodes, Table.size_modify, Table.size_modify]
    exact h.nodes
  nodeSlots := by
    dsimp only [ImportState.count]
    rw [hConnected.nodes, Table.slots_size_modify, Table.slots_size_modify]
    exact h.nodeSlots
  connections := (Table.size_add? hConnected.add).trans (congrArg (· + 1) h.connections)
  connectionSlots := (Table.slots_size_add? hConnected.add).trans (congrArg (· + 1) h.connectionSlots)
  nodes_le := h.nodes_le
  segments := by
    have hSegments := h.segments
    dsimp only [ImportState.count]
    omega
  known {key other} hMem := by
    have hOld := h.known hMem
    dsimp only [ImportState.count]
    rw [hConnected.node?, Option.isSome_map]
    exact hOld

end Counted

/-! ## Nodes -/

/-- What asking for the node of a key may come to: a node that is present, or none; or there was a new key
and no id left. -/
def Found (n k : Nat) (s : ImportState) : Except NetworkError (Option NodeId) × ImportState → Prop
  | (.error e, _) => e = .idsExhausted ∧ UInt32.size ≤ n + 1
  | (.ok node, next) => next.Counted (n + 1) k ∧
      (∀ id, node = some id → (next.network.node? id).isSome = true) ∧
      ∀ id, (s.network.node? id).isSome = true → (next.network.node? id).isSome = true

theorem Counted.nodeOfKey (h : s.Counted n k) (w : WayNode) : Found n k s (s.nodeOfKey w) := by
  have hMore : s.Counted (n + 1) k := h.mono (Nat.le_succ n)
  rw [ImportState.nodeOfKey]
  split
  · next known hKnown =>
    refine ⟨hMore, ?_, fun _ hPresent => hPresent⟩
    rintro id rfl
    obtain ⟨before, behind, hAll, -⟩ := List.lookup_eq_some_iff.mp hKnown
    apply h.known
    rw [hAll]
    exact List.mem_append_right before List.mem_cons_self
  · split
    · split
      · next e hAdd =>
        obtain ⟨hExhausted, hSize⟩ := addNode_eq_error hAdd
        have hNodes := h.nodes_le
        rw [h.nodeSlots] at hSize
        exact ⟨hExhausted, by omega⟩
      · next id network hAdd =>
        have hAdded := addNode_eq_ok hAdd
        have hNew : ∀ other, some id = some other → (network.node? other).isSome = true := by
          rintro other ⟨⟩
          rw [hAdded.node?, if_pos rfl]
          rfl
        refine ⟨(h.addNode hAdded).remember w.key hNew, hNew, ?_⟩
        intro other hOther
        dsimp only [ImportState.remember, ImportState.count]
        rw [hAdded.node?]
        split
        · rfl
        · exact hOther
    · have hNone {p : NodeId → Prop} : ∀ id, none = some id → p id := by rintro id ⟨⟩
      exact ⟨hMore.remember w.key hNone, hNone, fun _ hPresent => hPresent⟩

/-! ## Steps -/

/-- What a step may come to after which `k` segments have been seen. -/
def EndsCounted (k : Nat) : ImportStep → Prop
  | (some e, _) => e = .idsExhausted ∧ UInt32.size ≤ 2 * k
  | (none, next) => next.Counted (2 * k) k

theorem Counted.connectEnds (h : s.Counted (2 * (k + 1)) k) (spec : TrackSpec) {start stop : Option NodeId}
    (hStart : ∀ id, start = some id → (s.network.node? id).isSome = true)
    (hStop : ∀ id, stop = some id → (s.network.node? id).isSome = true) :
    EndsCounted (k + 1) (s.connectEnds spec start stop) := by
  rw [ImportState.connectEnds.eq_def]
  split
  · next a b =>
    split
    · exact h.skip
    · next hNe =>
      split
      · next e hConnect =>
        obtain ⟨hExhausted, hSize⟩ := connect_eq_error hNe (hStart a rfl) (hStop b rfl) hConnect
        have hSegments := h.segments
        rw [h.connectionSlots] at hSize
        exact ⟨hExhausted, by omega⟩
      · next id network hConnect =>
        obtain ⟨p, q, hConnected⟩ := connect_eq_ok hConnect
        exact h.connect hConnected
  · exact h.skip

theorem Counted.importSegment (h : s.Counted (2 * k) k) (spec : TrackSpec) (first second : WayNode) :
    EndsCounted (k + 1) (s.importSegment spec first second) := by
  have hFirst := h.nodeOfKey first
  rw [ImportState.importSegment]
  split
  · next e t hFail =>
    rw [hFail] at hFirst
    exact ⟨hFirst.1, by have hSize := hFirst.2; omega⟩
  · next start t hDone =>
    rw [hDone] at hFirst
    obtain ⟨hCounted, hStart, -⟩ := hFirst
    have hSecond := hCounted.nodeOfKey second
    split
    · next e u hFail =>
      rw [hFail] at hSecond
      exact hSecond
    · next stop u hDone =>
      rw [hDone] at hSecond
      obtain ⟨hCounted, hStop, hPresent⟩ := hSecond
      exact hCounted.connectEnds spec (fun id hId => hPresent id (hStart id hId)) hStop

/-- Steps that see some segments each see all of them together. -/
theorem Counted.addAll {ι : Type} {step : ImportState → ι → ImportStep} (seen : ι → Nat)
    (hStep : ∀ {k s}, Counted (2 * k) k s → ∀ x, EndsCounted (k + seen x) (step s x)) (h : s.Counted (2 * k) k)
    (xs : List ι) : EndsCounted (k + (xs.map seen).sum) (s.addAll step xs) := by
  induction xs generalizing s k with
  | nil => exact h
  | cons x rest ih =>
    have hFirst := hStep h x
    rw [ImportState.addAll, List.map_cons, List.sum_cons, ← Nat.add_assoc]
    split
    · next e t hFail =>
      rw [hFail] at hFirst
      exact ⟨hFirst.1, by have hSize := hFirst.2; omega⟩
    · next t hDone =>
      rw [hDone] at hFirst
      exact ih hFirst

theorem Counted.importWay (h : s.Counted (2 * k) k) (classifier : WayClassifier) (w : Way) :
    EndsCounted (k + (handled classifier w).length) (ImportState.importWay classifier s w) := by
  rw [ImportState.importWay, handled]
  cases classifier.trackType? w with
  | none => exact h
  | some t =>
    have hAll := h.accept.addAll (fun _ => 1)
      (fun h ends => h.importSegment ⟨t, classifier.heightType w, w.plane⟩ ends.1 ends.2) w.segments
    rw [List.map_const', List.sum_replicate_nat, Nat.mul_one] at hAll
    rw [Option.elim_some, ← w.segments_eq_legs]
    exact hAll

/-- An import that starts with nothing ends with what its counters tell, unless ids run out. -/
theorem importWays_counted (onLand : Point → Bool) (ways : List Way) (classifiers : List WayClassifier) :
    EndsCounted (allHandled ways classifiers).length (importWays ⟨{ onLand }, .empty⟩ ways classifiers) := by
  have hStart : Counted (2 * 0) 0 ⟨{ onLand }, .empty⟩ := .start onLand
  have hAll := hStart.addAll (fun classifier => (ways.flatMap (handled classifier)).length)
    (fun h classifier => by
      rw [List.length_flatMap]
      exact h.addAll _ (fun h w => h.importWay classifier w) ways) classifiers
  rw [Nat.zero_add, ← List.length_flatMap] at hAll
  exact hAll

end TrackLayout.ImportState
