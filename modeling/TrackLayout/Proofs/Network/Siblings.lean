import TrackLayout.Proofs.Network.Cliques

/-!
# Siblings are linked

A split links the new node to the node it came from and so to everything that
one is linked to. Where there were no links before, nodes are linked after a
cleanup if and only if they were one node before it.
-/
set_option autoImplicit false

namespace TrackLayout.Network

variable {net next out : Network} {n m sibling x y : NodeId} {log : List (NodeId × NodeId)}

/-- Nodes are linked after a split as the nodes they stem from, and where they stem from the same. -/
theorem Cliques.joined_extract (h : net.Cliques) (hExtract : net.extract n = .ok (some (sibling, next))) :
    next.Joined x y ↔ x ≠ y ∧ (next.node? x).isSome = true ∧ (next.node? y).isSome = true ∧
      (origin [(n, sibling)] x = origin [(n, sibling)] y ∨
        net.Joined (origin [(n, sibling)] x) (origin [(n, sibling)] y)) := by
  obtain ⟨moved, hKeeps, rfl, hn, hNew, hPresent⟩ := exists_link_of_extract hExtract
  have hFresh : ¬(net.node? sibling).isSome = true := by
    intro hSome
    obtain ⟨j, hj⟩ := present_iff.mp hSome
    exact hNew (Table.hasIssued_of_get? hj)
  have hAway : ∀ u, ¬net.Joined sibling u ∧ ¬net.Joined u sibling := by
    intro u
    exact ⟨fun hJoined => hFresh hJoined.present, fun hJoined => hFresh hJoined.2⟩
  have hMoved : ∀ u v, moved.Joined u v ↔ net.Joined u v := by
    intro u v
    rw [hKeeps.joined h]
    constructor
    · exact And.left
    · intro hJoined
      exact ⟨hJoined, (hPresent u).mpr (.inl hJoined.present), (hPresent v).mpr (.inl hJoined.2)⟩
  have hNe : n ≠ sibling := by
    rintro rfl
    exact hFresh hn
  simp only [(hKeeps.cliques h).joined_link, isSome_node?_link, Near, hMoved, hPresent, origin]
  have hSymm : ∀ {u v}, net.Joined u v ↔ net.Joined v u := ⟨h.symm, h.symm⟩
  by_cases hx : x = sibling
  · by_cases hy : y = sibling
    · simp [hx, hy, (hAway sibling).1]
    · grind
  · by_cases hy : y = sibling
    · grind
    · have hApart : net.Joined x y → x ≠ y ∧ (net.node? x).isSome = true ∧ (net.node? y).isSome = true := by
        intro hJoined
        refine ⟨?_, hJoined.present, hJoined.2⟩
        rintro rfl
        exact h.irrefl hJoined
      grind

namespace Splits

theorem joined_iff (h : Splits net log out) (hNet : net.WellFormed) (hCliques : net.Cliques) :
    out.Joined x y ↔ x ≠ y ∧ (out.node? x).isSome = true ∧ (out.node? y).isSome = true ∧
      (origin log x = origin log y ∨ net.Joined (origin log x) (origin log y)) := by
  induction h with
  | @done net =>
    rw [origin, origin]
    constructor
    · intro hJoined
      refine ⟨?_, hJoined.present, hJoined.2, .inr hJoined⟩
      rintro rfl
      exact hCliques.irrefl hJoined
    · rintro ⟨hNe, -, -, hSame | hJoined⟩
      · exact absurd hSame hNe
      · exact hJoined
  | @step net next out n sibling log hExtract hRest ih =>
    have hNext := (extract_eq_some hNet hExtract).1
    have hPresent : ∀ {m}, (out.node? m).isSome = true → (next.node? (origin log m)).isSome = true := by
      intro m hm
      obtain ⟨i, hi⟩ := present_iff.mp hm
      obtain ⟨j, hj, -⟩ := hRest.exists_origin hNext hi
      exact present_iff.mpr ⟨j, hj⟩
    have hOrigin : ∀ m, origin ((n, sibling) :: log) m = origin [(n, sibling)] (origin log m) := fun m => rfl
    rw [ih hNext (hCliques.extract hExtract), hCliques.joined_extract hExtract, hOrigin, hOrigin]
    constructor
    · rintro ⟨hNe, hx, hy, hSame | ⟨-, -, -, hJoined⟩⟩
      · exact ⟨hNe, hx, hy, .inl (by rw [hSame])⟩
      · exact ⟨hNe, hx, hy, hJoined⟩
    · rintro ⟨hNe, hx, hy, hJoined⟩
      by_cases hSame : origin log x = origin log y
      · exact ⟨hNe, hx, hy, .inl hSame⟩
      · exact ⟨hNe, hx, hy, .inr ⟨hSame, hPresent hx, hPresent hy, hJoined⟩⟩

end Splits

/-- Nodes are linked where a log of splits leads back to the same node, and then they are at one place. -/
structure SiblingsJoined (clean : Network) (log : List (NodeId × NodeId)) : Prop where
  joined_iff : ∀ {x y}, clean.Joined x y ↔
    x ≠ y ∧ (clean.node? x).isSome = true ∧ (clean.node? y).isSome = true ∧ origin log x = origin log y
  point : ∀ {x y}, clean.Joined x y → (clean.node? x).map Junction.point = (clean.node? y).map Junction.point

theorem Splits.siblingsJoined (h : Splits net log out) (hNet : net.WellFormed)
    (hUnlinked : ∀ x, net.linksOf x = []) : SiblingsJoined out log := by
  have hApart : ∀ x y, ¬net.Joined x y := by
    intro x y hJoined
    rw [Joined, hUnlinked] at hJoined
    cases hJoined.1
  have hJoined : ∀ {x y}, out.Joined x y ↔ x ≠ y ∧ (out.node? x).isSome = true ∧
      (out.node? y).isSome = true ∧ origin log x = origin log y := by
    intro x y
    rw [h.joined_iff hNet (cliques_of_unlinked hUnlinked)]
    simp only [hApart, or_false]
  constructor
  · exact hJoined
  · intro x y hxy
    obtain ⟨-, hx, hy, hSame⟩ := hJoined.mp hxy
    obtain ⟨i, hi⟩ := present_iff.mp hx
    obtain ⟨j, hj⟩ := present_iff.mp hy
    obtain ⟨b, hb, hPosition⟩ := h.exists_origin hNet hi
    obtain ⟨c, hc, hPosition'⟩ := h.exists_origin hNet hj
    rw [hSame, hc, Option.some.injEq] at hb
    rw [hi, hj, Option.map_some, Option.map_some, Junction.point, Junction.point, hPosition, hPosition', hb]

/-- In every lawful run links form cliques. A cleanup of a network without links links the nodes that it
splits off from one node, and no others. -/
theorem joined_run (ops : List Operation) :
    (empty.Lawful ops → (run ops).Cliques) ∧
    ((∀ x, (run ops).linksOf x = []) →
      match (run ops).cleanup with
      | .error e => e = .idsExhausted
      | .ok (report, clean) =>
        (∃ log, Splits (run ops).prune log clean ∧ log.length = report.split) ∧
        ∀ log, Splits (run ops).prune log clean → SiblingsJoined clean log) := by
  constructor
  · exact cliques_empty.foldl_after empty_wellFormed
  · intro hUnlinked
    have hNet := wellFormed_run ops
    have hCleanup := hNet.cleanup_outcome
    cases hOut : (run ops).cleanup with
    | error e =>
      rw [hOut] at hCleanup
      exact hCleanup.1
    | ok out =>
      have hPruned : ∀ x, (run ops).prune.linksOf x = [] := by
        intro x
        cases hx : (run ops).prune.node? x with
        | none => rw [linksOf, hx]; rfl
        | some j => rw [linksOf_of_node? hx, (keepsLinks_prune (run ops)).links hx, hUnlinked]
      constructor
      · exact (hNet.repairs_of_cleanup hOut).exists_splits
      · intro log hSplits
        exact hSplits.siblingsJoined hNet.prune hPruned

theorem joined_run_bend : empty.Lawful (bend ++ [.link ⟨0⟩ ⟨1⟩, .link ⟨1⟩ ⟨2⟩]) ∧
    (run (bend ++ [.link ⟨0⟩ ⟨1⟩, .link ⟨1⟩ ⟨2⟩])).Cliques ∧
    (∀ x, (run bend).linksOf x = []) ∧
    ∃ report clean log, (run bend).cleanup = .ok (report, clean) ∧ report.split = 1 ∧
      Splits (run bend).prune log clean ∧ SiblingsJoined clean log := by
  have hLawful : empty.Lawful (bend ++ [.link ⟨0⟩ ⟨1⟩, .link ⟨1⟩ ⟨2⟩]) := by
    refine ⟨trivial, trivial, trivial, trivial, trivial, ⟨?_, ?_⟩, ⟨?_, ?_⟩, trivial⟩ <;> decide +kernel
  have hUnlinked : ∀ x, (run bend).linksOf x = [] := by
    have hValues : ∀ j ∈ (run bend).nodes.values, j.linked = [] := by decide +kernel
    intro x
    cases hx : (run bend).node? x with
    | none => rw [linksOf, hx]; rfl
    | some j => rw [linksOf_of_node? hx, hValues j (Table.mem_values.mpr ⟨x, hx⟩)]
  refine ⟨hLawful, (joined_run _).1 hLawful, hUnlinked, ?_⟩
  have hSplit : (run bend).cleanup.toOption.map (·.1.split) = some 1 := by decide +kernel
  have hJoined := (joined_run bend).2 hUnlinked
  cases hOut : (run bend).cleanup with
  | error e =>
    rw [hOut] at hSplit
    cases hSplit
  | ok out =>
    rw [hOut] at hSplit hJoined
    obtain ⟨⟨log, hSplits, -⟩, hAll⟩ := hJoined
    exact ⟨out.1, out.2, log, rfl, Option.some.inj hSplit, hSplits, hAll log hSplits⟩

end TrackLayout.Network
