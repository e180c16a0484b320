import TrackLayout.Proofs.Import.Recall
import TrackLayout.Proofs.Network.Cleanup

/-!
# Imports between cleanups

An importer may go on after a cleanup, which does not tell it what nodes were
removed. A node has no track while all segments at its key were skipped; if a
cleanup comes in between, a later way that connects the key to another one is
refused, since the node it asks for is gone.
-/
set_option autoImplicit false

namespace TrackLayout

inductive ImportAction where
  | addWay (classifier : WayClassifier) (way : Way)
  | cleanup

namespace ImportState

open Network

/-- The state after an action. A way that fails is passed over, with what it added before. -/
def after (s : ImportState) : ImportAction → ImportState
  | .addWay k w => (importWay k s w).2
  | .cleanup => { s with network := s.network.orSelf (·.2) s.network.cleanup }

def session (onLand : Point → Bool) (actions : List ImportAction) : ImportState :=
  actions.foldl after ⟨{ onLand }, .empty⟩

/-- The node that is remembered for a key is there, but has no track. -/
def Stranded (s : ImportState) (key : UInt64) : Prop :=
  ∃ id j, s.Recalls key id ∧ s.network.node? id = some j ∧ j.tracks = []

variable {s : ImportState} {id : NodeId}

theorem node?_cleanup {net : Network} (hNet : net.WellFormed) {out : CleanupReport × Network}
    (h : net.cleanup = .ok out) (hIssued : net.nodes.HasIssued id) :
    out.2.node? id = none ↔ net.node? id = none ∨ ∃ j, net.node? id = some j ∧ j.tracks = [] := by
  have hClean := hNet.cleanup_outcome
  rw [h] at hClean
  obtain ⟨report, clean⟩ := out
  dsimp only at hClean ⊢
  constructor
  · intro hGone
    cases hj : net.node? id with
    | none => exact .inl rfl
    | some j =>
      refine .inr ⟨j, rfl, ?_⟩
      by_contra hTracks
      have hSite := hClean.survivor hj hTracks
      rw [hGone] at hSite
      cases hSite
  · rintro (hAbsent | ⟨j, hj, hTracks⟩)
    · have hPruned : net.prune.node? id = none := by
        rw [node?_prune, hAbsent]
        rfl
      have hFollows := hClean.repairs.changes.follows hNet.prune
      rcases hFollows.node? ((follows_prune net).nodes hIssued) with hGone | hSame
      · exact hGone
      · rw [hPruned, Option.map_none, Option.map_eq_none_iff] at hSame
        exact hSame
    · exact hClean.removed hj hTracks

theorem Remembers.after (h : s.Remembers) (action : ImportAction) : (s.after action).Remembers := by
  cases action with
  | addWay k w =>
    obtain ⟨-, seen, made, hSince⟩ := h.importWay k w
    exact hSince.remembers
  | cleanup =>
    have hChanges : Changes s.network (s.network.orSelf (·.2) s.network.cleanup) :=
      changes_orSelf fun out hOut => changes_cleanup hOut
    exact ⟨hChanges.wellFormed h.wellFormed,
      fun hRecalls => (hChanges.follows h.wellFormed).nodes (h.issued hRecalls), h.keys⟩

theorem session_concat (onLand : Point → Bool) (actions : List ImportAction) (action : ImportAction) :
    session onLand (actions ++ [action]) = (session onLand actions).after action := by
  rw [session, List.foldl_append, session]
  rfl

theorem session_remembers (onLand : Point → Bool) (actions : List ImportAction) :
    (session onLand actions).Remembers := by
  induction actions using List.reverseRecOn with
  | nil => exact .start onLand
  | append_singleton actions action ih =>
    rw [session_concat]
    exact ih.after action

theorem Remembers.lost_addWay (h : s.Remembers) (k : WayClassifier) (w : Way) (key : UInt64) :
    (s.after (.addWay k w)).Lost key ↔ s.Lost key := by
  obtain ⟨-, seen, made, hSince⟩ := h.importWay k w
  exact hSince.lost key

/-- A cleanup takes the nodes of the keys that are stranded. -/
theorem Remembers.lost_cleanup (h : s.Remembers) (key : UInt64) :
    (s.after .cleanup).Lost key ↔
      s.Lost key ∨ (s.Stranded key ∧ ∃ out, s.network.cleanup = .ok out) := by
  rw [ImportState.after]
  cases hCleanup : s.network.cleanup with
  | error e =>
    rw [or_iff_left]
    · rfl
    · rintro ⟨-, out, hOut⟩
      cases hOut
  | ok out =>
    constructor
    · rintro ⟨id, hRecalls, hGone⟩
      rcases (node?_cleanup h.wellFormed hCleanup (h.issued hRecalls)).mp hGone with hAbsent | ⟨j, hj, hTracks⟩
      · exact .inl ⟨id, hRecalls, hAbsent⟩
      · exact .inr ⟨⟨id, j, hRecalls, hj, hTracks⟩, out, rfl⟩
    · rintro (⟨id, hRecalls, hAbsent⟩ | ⟨⟨id, j, hRecalls, hj, hTracks⟩, -⟩)
      · exact ⟨id, hRecalls, (node?_cleanup h.wellFormed hCleanup (h.issued hRecalls)).mpr (.inl hAbsent)⟩
      · exact ⟨id, hRecalls,
          (node?_cleanup h.wellFormed hCleanup (h.issued hRecalls)).mpr (.inr ⟨j, hj, hTracks⟩)⟩

/-- An occurrence in a list with one more element is an earlier one or that element. -/
theorem exists_split_concat {α : Type} {p : List α → Prop} {xs : List α} {x last : α} :
    (∃ before behind, xs ++ [last] = before ++ x :: behind ∧ p before) ↔
      (∃ before behind, xs = before ++ x :: behind ∧ p before) ∨ (last = x ∧ p xs) := by
  constructor
  · rintro ⟨before, behind, hAll, hBefore⟩
    cases behind using List.reverseRecOn with
    | nil =>
      obtain ⟨rfl, hLast⟩ := List.append_inj' hAll rfl
      exact .inr ⟨(List.cons.inj hLast).1, hBefore⟩
    | append_singleton behind other _ =>
      rw [← List.cons_append, ← List.append_assoc] at hAll
      obtain ⟨rfl, -⟩ := List.append_inj' hAll rfl
      exact .inl ⟨before, behind, rfl, hBefore⟩
  · rintro (⟨before, behind, rfl, hBefore⟩ | ⟨rfl, hBefore⟩)
    · exact ⟨before, behind ++ [last], by simp, hBefore⟩
    · exact ⟨xs, [], rfl, hBefore⟩

/-- A node is lost if some cleanup found it without tracks. -/
theorem lost_session (onLand : Point → Bool) (actions : List ImportAction) (key : UInt64) :
    (session onLand actions).Lost key ↔ ∃ before behind, actions = before ++ .cleanup :: behind ∧
      (session onLand before).Stranded key ∧ ∃ out, (session onLand before).network.cleanup = .ok out := by
  induction actions using List.reverseRecOn with
  | nil =>
    constructor
    · rintro ⟨id, hRecalls, -⟩
      cases hRecalls
    · rintro ⟨before, behind, hActions, -⟩
      simp at hActions
  | append_singleton actions action ih =>
    have hRemembers := session_remembers onLand actions
    rw [session_concat, exists_split_concat, ← ih]
    cases action with
    | addWay k w =>
      rw [hRemembers.lost_addWay, or_iff_left]
      rintro ⟨hAction, -⟩
      cases hAction
    | cleanup =>
      rw [hRemembers.lost_cleanup]
      simp

/-- Between cleanups a way goes through unless it connects two keys with nodes of which one is lost, or the
ids run out; and the nodes that are lost are those that had no track when some cleanup came. -/
theorem importWay_session (onLand : Point → Bool) (actions : List ImportAction) (k : WayClassifier) (w : Way) :
    (session onLand actions).Ends (segmentsOf k w) (importWay k (session onLand actions) w).1 ∧
    ∀ key, (session onLand actions).Lost key ↔ ∃ before behind, actions = before ++ .cleanup :: behind ∧
      (session onLand before).Stranded key ∧ ∃ out, (session onLand before).network.cleanup = .ok out :=
  ⟨((session_remembers onLand actions).importWay k w).1, lost_session onLand actions⟩

def rails : WayClassifier := ⟨fun _ => some .standard, fun _ => .unspecified⟩

def shore (p : Point) : Bool := p.x < 15.0

/-- A way from the shore into the sea. -/
def pier : Way := { id := 1, nodes := [⟨1, ⟨10.0, 0.0⟩⟩, ⟨2, ⟨20.0, 0.0⟩⟩] }

/-- A way along the land that begins where the pier does. -/
def quay : Way := { id := 2, nodes := [⟨1, ⟨10.0, 0.0⟩⟩, ⟨3, ⟨3.0, 0.0⟩⟩] }

/-- The pier is skipped and its first node removed, so the quay has nothing to begin at. -/
theorem importWay_quay :
    (importWay rails (session shore [.addWay rails pier]) quay).1 = none ∧
    (session shore [.addWay rails pier, .cleanup]).importer.known.lookup 1 = some (some ⟨0⟩) ∧
    (session shore [.addWay rails pier, .cleanup]).network.node? ⟨0⟩ = none ∧
    (importWay rails (session shore [.addWay rails pier, .cleanup]) quay).1 = some (.unknownNode ⟨0⟩) := by
  decide +kernel

end ImportState

end TrackLayout
