import TrackLayout.Proofs.Network.Cleanup

/-!
# Logs of splits

Splits one after the other, in whatever order the nodes are taken. A log says
which node each of them split and which node it split off. Read backwards it
leads from every node that is left to the node it was once a part of, which
stands at the same place.
-/
set_option autoImplicit false

namespace TrackLayout.Network

/-- Splits lead from one network to another; each is logged with the node it split and the new one. -/
inductive Splits : Network → List (NodeId × NodeId) → Network → Prop where
  | done {net : Network} : Splits net [] net
  | step {net next out : Network} {n sibling : NodeId} {log : List (NodeId × NodeId)}
      (h : net.extract n = .ok (some (sibling, next))) (hRest : Splits next log out) :
      Splits net ((n, sibling) :: log) out

/-- The node that a node stems from, by a log of splits. -/
def origin : List (NodeId × NodeId) → NodeId → NodeId
  | [], m => m
  | (n, sibling) :: log, m => if origin log m = sibling then n else origin log m

variable {net next out : Network} {n m sibling : NodeId} {i j : Junction} {ts : List Attachment}
  {log : List (NodeId × NodeId)}

theorem present_iff {id : NodeId} : (net.node? id).isSome = true ↔ ∃ j, net.node? id = some j :=
  Option.isSome_iff_exists

theorem Repairs.exists_splits {queue : List NodeId} {k : Nat} (h : Repairs net queue k out) :
    ∃ log, Splits net log out ∧ log.length = k := by
  induction h with
  | done => exact ⟨[], .done, rfl⟩
  | keep _ _ ih => exact ih
  | @split net next out n sibling queue k h _ ih =>
    obtain ⟨log, hSplits, hLength⟩ := ih
    exact ⟨(n, sibling) :: log, .step h hSplits, by rw [List.length_cons, hLength]⟩

/-! ## Places -/

theorem Split.position (h : Split net n j ts sibling next) (hm : next.node? m = some i) :
    ∃ c, net.node? (if m = sibling then n else m) = some c ∧ i.position = c.position := by
  have hDetach (b : Junction) (t : Attachment) : (b.detach t.connection).position = b.position := rfl
  have hNode := h.node? m
  rw [hm, Option.map_some] at hNode
  split at hNode
  · rw [if_pos ‹_›]
    have hPosition : i.unlinked.position = j.position := by rw [Option.some.inj hNode]
    exact ⟨j, h.node, hPosition⟩
  · rw [if_neg ‹_›]
    obtain ⟨b, hb, hSame⟩ := Option.map_eq_some_iff.mp hNode.symm
    refine ⟨b, hb, (congrArg Junction.position hSame).symm.trans ?_⟩
    change Junction.position (if m = n then ts.foldl (fun b t => b.detach t.connection) b else b) = b.position
    split
    · exact foldl_view Junction.position hDetach b ts
    · rfl

theorem Split.present (h : Split net n j ts sibling next) (hm : net.node? m = some i) :
    ∃ b, next.node? m = some b := by
  obtain ⟨b, hb, -⟩ := Option.map_eq_some_iff.mp (h.site hm)
  exact ⟨b, hb⟩

theorem Split.present_sibling (h : Split net n j ts sibling next) : ∃ b, next.node? sibling = some b := by
  have hNode := h.node? sibling
  rw [if_pos rfl] at hNode
  obtain ⟨b, hb, -⟩ := Option.map_eq_some_iff.mp hNode
  exact ⟨b, hb⟩

namespace Splits

/-- What stems from a node stands where it stands. -/
theorem exists_origin (h : Splits net log out) (hNet : net.WellFormed) (hm : out.node? m = some i) :
    ∃ j, net.node? (origin log m) = some j ∧ i.position = j.position := by
  induction h with
  | done => exact ⟨i, hm, rfl⟩
  | step h _ ih =>
    obtain ⟨hNext, j, ts, hSplit⟩ := extract_eq_some hNet h
    obtain ⟨b, hb, hPosition⟩ := ih hNext hm
    obtain ⟨c, hc, hSame⟩ := hSplit.position hb
    exact ⟨c, hc, hPosition.trans hSame⟩

end Splits

/-- Two tracks at a right angle, which no node can keep both. -/
def bend : List Operation :=
  [.addNode { point := ⟨0.0, 0.0⟩ }, .addNode { point := ⟨100.0, 0.0⟩ }, .addNode { point := ⟨0.0, 100.0⟩ },
    .connect ⟨0⟩ ⟨1⟩ {}, .connect ⟨0⟩ ⟨2⟩ {}]

end TrackLayout.Network
