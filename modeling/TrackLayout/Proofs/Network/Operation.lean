import Mathlib.Logic.Relation
import TrackLayout.Heights.Derivation
import TrackLayout.Heights.Relaxation
import TrackLayout.Import
import TrackLayout.Network.Straightness
import TrackLayout.Proofs.Network.Splitting

/-!
# What can be done to a network

All operations that may change a network, and runs of them from the empty one.
However much an operation does, it is a chain of changes of five kinds: a new
node, a new connection, a split, the removal of nodes without tracks, and
changes to parts that bare networks do not show. What every change keeps, every
run keeps.
-/
set_option autoImplicit false

namespace TrackLayout.Network

/-- What may be changed of a connection that is in use. -/
inductive ConnectionEdit where
  | trackType (t : TrackType)
  | heightType (h : HeightType)
  | straight (flag : Bool)
  | plane (p : Option HeightPlane)

def ConnectionEdit.apply (edit : ConnectionEdit) (c : Connection) : Connection :=
  match edit with
  | .trackType t => { c with trackType := t }
  | .heightType h => { c with heightType := h }
  | .straight flag => { c with straight := flag }
  | .plane p => { c with plane := p }

inductive Operation where
  | addNode (position : Position)
  | connect (start stop : NodeId) (spec : TrackSpec)
  | edit (id : ConnectionId) (edit : ConnectionEdit)
  | setElevation (id : NodeId) (elevation : Float)
  | addRule (id : NodeId) (rule : Rule)
  | link (a b : NodeId)
  | extract (id : NodeId)
  | cleanup
  | markStraight
  | deriveHeights (ground : Ground) (s : RuleSettings)
  | relaxNode (s : SolverSettings) (cooling : Float) (id : NodeId)
  | nextPass (s : SolverSettings) (cooling : Float)
  | relaxWhile (s : SolverSettings) (goOn : GoOn)
  | importWay (importer : Importer) (classifier : WayClassifier) (way : Way)
  | importWays (importer : Importer) (ways : List Way) (classifiers : List WayClassifier)

/-- What an operation that may fail makes of a network; a failed one leaves it as it was. -/
def orSelf {ε α : Type} (net : Network) (result : α → Network) : Except ε α → Network
  | .ok a => result a
  | .error _ => net

/-- The network after an operation. An import that fails keeps what it added before. -/
def after (net : Network) : Operation → Network
  | .addNode position => net.orSelf (·.2) (net.addNode position)
  | .connect start stop spec => net.orSelf (·.2) (net.connect start stop spec)
  | .edit id edit => net.modifyConnection id edit.apply
  | .setElevation id elevation => net.orSelf (fun next => next) (net.setElevation id elevation)
  | .addRule id rule => net.orSelf (fun next => next) (net.addRule id rule)
  | .link a b => net.link a b
  | .extract id => net.orSelf (fun split => (split.map (·.2)).getD net) (net.extract id)
  | .cleanup => net.orSelf (·.2) net.cleanup
  | .markStraight => net.markStraight
  | .deriveHeights ground s => (net.deriveHeights ground s).network
  | .relaxNode s cooling id => (net.relaxNode s cooling id).2
  | .nextPass s cooling => (net.nextPass s cooling).network
  | .relaxWhile s goOn => (net.relaxWhile s goOn).network
  | .importWay importer classifier way => (ImportState.importWay classifier ⟨importer, net⟩ way).2.network
  | .importWays importer ways classifiers =>
    (ImportState.importWays ⟨importer, net⟩ ways classifiers).2.network

/-- The network that operations make of the empty one. -/
def run (ops : List Operation) : Network := ops.foldl after .empty

/-! ## Changes -/

inductive Change (net : Network) : Network → Prop where
  | retouch {next : Network} (h : next.bare = net.bare) : Change net next
  | addNode {position : Position} {id : NodeId} {next : Network} (h : Added net position id next) :
      Change net next
  | connect {start stop : NodeId} {spec : TrackSpec} {p q : Point} {id : ConnectionId} {next : Network}
      (h : Connected net start stop spec p q id next) : Change net next
  | split {n sibling : NodeId} {next : Network} (h : net.extract n = .ok (some (sibling, next))) :
      Change net next
  | prune : Change net net.prune

/-- Some changes lead from one network to the other. -/
abbrev Changes : Network → Network → Prop := Relation.ReflTransGen Change

variable {net : Network}

theorem Changes.retouch {next : Network} (h : next.bare = net.bare) : Changes net next := .single (.retouch h)

theorem changes_orSelf {ε α : Type} {result : α → Network} {e : Except ε α}
    (h : ∀ a, e = .ok a → Changes net (result a)) : Changes net (net.orSelf result e) := by
  cases e with
  | error _ => exact .refl
  | ok a => exact h a rfl

theorem changes_connect {start stop : NodeId} {spec : TrackSpec} {id : ConnectionId} {next : Network}
    (h : net.connect start stop spec = .ok (id, next)) : Changes net next := by
  obtain ⟨p, q, hConnected⟩ := connect_eq_ok h
  exact .single (.connect hConnected)

theorem bare_apply (c : Connection) (edit : ConnectionEdit) : (edit.apply c).bare = c.bare := by
  cases edit <;> rfl

theorem bare_editNode {id : NodeId} {f : Junction → Junction} {next : Network}
    (h : net.editNode id f = .ok next) (hf : ∀ j, (f j).bare = j.bare) : next.bare = net.bare := by
  rw [editNode] at h
  split at h
  · cases h
    exact bare_modifyNode hf net id
  · cases h

/-! ## Cleaning up -/

theorem changes_extract {id : NodeId} {split : Option (NodeId × Network)}
    (h : net.extract id = .ok split) : Changes net ((split.map (·.2)).getD net) := by
  cases split with
  | none => exact .refl
  | some split => exact .single (.split h)

theorem changes_repair {k fuel : Nat} {queue : List NodeId} {out : Nat × Network}
    (h : net.repair k fuel queue = .ok out) : Changes net out.2 := by
  induction fuel generalizing net k queue with
  | zero =>
    cases queue <;> cases h <;> exact .refl
  | succ fuel ih =>
    cases queue with
    | nil =>
      cases h
      exact .refl
    | cons id queue =>
      rw [repair] at h
      split at h
      · cases h
      · exact ih h
      · next hExtract => exact (changes_extract hExtract).trans (ih h)

theorem changes_cleanup {out : CleanupReport × Network} (h : net.cleanup = .ok out) :
    Changes net out.2 := by
  rw [cleanup] at h
  cases hRepair : net.prune.repair 0 (net.prune.nodes.size + 2 * net.prune.attachments) net.prune.nodes.ids with
  | error e => simp [hRepair, bind, Except.bind] at h
  | ok result =>
    simp [hRepair, bind, Except.bind, pure, Except.pure] at h
    rw [← h]
    exact (Relation.ReflTransGen.single .prune).trans (changes_repair hRepair)

/-! ## Heights and flags -/

theorem bare_markStraight (net : Network) : net.markStraight.bare = net.bare := by
  have hConnections : net.markStraight.connections.map Connection.bare =
      net.connections.map Connection.bare := by
    refine Table.map_map ?_ net.connections
    intro c
    rfl
  rw [bare, hConnections]
  rfl

theorem bare_deriveHeights (net : Network) (ground : Ground) (s : RuleSettings) :
    (net.deriveHeights ground s).network.bare = net.bare := by
  refine foldl_view (fun d : Derivation => d.network.bare) (fun d id => ?_) { network := net } net.nodes.ids
  rw [Derivation.visit]
  split
  · rfl
  · refine bare_modifyNode ?_ d.network id
    intro j
    rfl

theorem length_passes (s : SolverSettings) (rounds finished : Nat) (cooling : Float) (net : Network) :
    (net.passes s (fun _ _ => true) rounds finished cooling).length = rounds := by
  induction rounds generalizing finished cooling net with
  | zero => rfl
  | succ rounds ih =>
    rw [passes, List.length_cons, if_pos rfl, ih]

section Relaxation

variable {P : Network → Prop}
  (hMove : ∀ (net : Network) (n : NodeId) (old z : Float), net.elevation n = some old → P net →
    P (net.modifyNode n (·.withElevation z)))

include hMove

/-- A relaxation only sets elevations of nodes that have one, and keeps what does not depend on them. -/
theorem relaxNode_invariant (s : SolverSettings) (cooling : Float) (id : NodeId) (h : P net) :
    P (net.relaxNode s cooling id).2 := by
  rw [relaxNode]
  split
  · next height hImproved =>
    obtain ⟨old, hOld, -⟩ := Option.bind_eq_some_iff.mp hImproved
    exact hMove net id old height hOld h
  · exact h

theorem nextPass_invariant (s : SolverSettings) (cooling : Float) (h : P net) :
    P (net.nextPass s cooling).network := by
  refine List.foldlRecOn (motive := fun pass : Pass => P pass.network) net.nodes.ids _ h ?_
  intro pass hPass id _
  exact relaxNode_invariant hMove s cooling id hPass

theorem invariant_of_mem_passes {s : SolverSettings} {goOn : GoOn} {rounds finished : Nat} {cooling : Float}
    {pass : Pass} (h : P net) (hMem : pass ∈ net.passes s goOn rounds finished cooling) : P pass.network := by
  induction rounds generalizing net finished cooling with
  | zero => cases hMem
  | succ rounds ih =>
    have hNext := nextPass_invariant hMove s cooling h
    rw [passes] at hMem
    rcases List.mem_cons.mp hMem with rfl | hLater
    · exact hNext
    · split at hLater
      · exact ih hNext hLater
      · cases hLater

theorem relaxWhile_invariant (s : SolverSettings) (goOn : GoOn) (h : P net) :
    P (net.relaxWhile s goOn).network := by
  rw [relaxWhile, Relaxation.network]
  cases hLast : (net.passes s goOn s.iterations.toNat 0 s.initialCooling).getLast? with
  | none => exact h
  | some pass => exact invariant_of_mem_passes hMove h (List.mem_of_getLast? hLast)

omit hMove

variable {γ : Type} {view : Network → γ}
  (hView : ∀ (net : Network) (n : NodeId) (z : Float), view (net.modifyNode n (·.withElevation z)) = view net)

include hView

theorem view_relaxNode (net : Network) (s : SolverSettings) (cooling : Float) (id : NodeId) :
    view (net.relaxNode s cooling id).2 = view net :=
  relaxNode_invariant (P := fun next => view next = view net) (fun _ _ _ _ _ h => (hView ..).trans h) s cooling id rfl

theorem view_nextPass (net : Network) (s : SolverSettings) (cooling : Float) :
    view (net.nextPass s cooling).network = view net :=
  nextPass_invariant (P := fun next => view next = view net) (fun _ _ _ _ _ h => (hView ..).trans h) s cooling rfl

theorem view_relaxWhile (net : Network) (s : SolverSettings) (goOn : GoOn) :
    view (net.relaxWhile s goOn).network = view net :=
  relaxWhile_invariant (P := fun next => view next = view net) (fun _ _ _ _ _ h => (hView ..).trans h) s goOn rfl

end Relaxation

theorem bare_withElevation (net : Network) (n : NodeId) (z : Float) :
    (net.modifyNode n (·.withElevation z)).bare = net.bare := by
  refine bare_modifyNode ?_ net n
  intro j
  rfl

theorem bare_relaxWhile (net : Network) (s : SolverSettings) (goOn : GoOn) :
    (net.relaxWhile s goOn).network.bare = net.bare := view_relaxWhile bare_withElevation net s goOn

/-! ## Importing -/

section Import

variable {s : ImportState}

theorem changes_nodeOfKey (s : ImportState) (n : WayNode) :
    Changes s.network (s.nodeOfKey n).2.network := by
  rw [ImportState.nodeOfKey]
  split
  · exact .refl
  · split
    · split
      · exact .refl
      · next hAdd => exact .single (.addNode (addNode_eq_ok hAdd))
    · exact .refl

theorem changes_connectEnds (s : ImportState) (spec : TrackSpec) (start stop : Option NodeId) :
    Changes s.network (s.connectEnds spec start stop).2.network := by
  rw [ImportState.connectEnds.eq_def]
  split
  · split
    · exact .refl
    · split
      · exact .refl
      · next hConnect => exact changes_connect hConnect
  · exact .refl

theorem changes_importSegment (s : ImportState) (spec : TrackSpec) (first second : WayNode) :
    Changes s.network (s.importSegment spec first second).2.network := by
  have hFirst := changes_nodeOfKey s first
  rw [ImportState.importSegment]
  split
  · next h =>
    rw [h] at hFirst
    exact hFirst
  · next start s' h =>
    rw [h] at hFirst
    have hSecond := changes_nodeOfKey s' second
    split
    · next h =>
      rw [h] at hSecond
      exact hFirst.trans hSecond
    · next stop s'' h =>
      rw [h] at hSecond
      exact (hFirst.trans hSecond).trans (changes_connectEnds s'' spec start stop)

theorem changes_addAll {ι : Type} {step : ImportState → ι → ImportStep}
    (h : ∀ s x, Changes s.network (step s x).2.network) (s : ImportState) (xs : List ι) :
    Changes s.network (s.addAll step xs).2.network := by
  induction xs generalizing s with
  | nil => exact .refl
  | cons x rest ih =>
    have hStep := h s x
    rw [ImportState.addAll]
    split
    · next hFail =>
      rw [hFail] at hStep
      exact hStep
    · next s' hDone =>
      rw [hDone] at hStep
      exact hStep.trans (ih s')

theorem changes_importWay (classifier : WayClassifier) (s : ImportState) (w : Way) :
    Changes s.network (ImportState.importWay classifier s w).2.network := by
  rw [ImportState.importWay]
  split
  · exact .refl
  · rw [ImportState.importTrack]
    refine changes_addAll ?_ (s.count _) w.segments
    intro s ends
    exact changes_importSegment s _ ends.1 ends.2

theorem changes_importWays (s : ImportState) (ways : List Way) (classifiers : List WayClassifier) :
    Changes s.network (s.importWays ways classifiers).2.network :=
  changes_addAll (fun s classifier => changes_addAll (changes_importWay classifier) s ways) s classifiers

end Import

/-- Every operation is a chain of changes. -/
theorem changes_after (net : Network) (op : Operation) : Changes net (net.after op) := by
  cases op with
  | addNode position => exact changes_orSelf fun _ hAdd => .single (.addNode (addNode_eq_ok hAdd))
  | connect start stop spec => exact changes_orSelf fun _ hConnect => changes_connect hConnect
  | edit id edit => exact .retouch (bare_modifyConnection (bare_apply · edit) net id)
  | setElevation id elevation => exact changes_orSelf fun _ hEdit => .retouch (bare_editNode hEdit fun _ => rfl)
  | addRule id rule => exact changes_orSelf fun _ hEdit => .retouch (bare_editNode hEdit fun _ => rfl)
  | link a b => exact .retouch (bare_of_unlinked (unlinked_link net a b))
  | extract id => exact changes_orSelf fun _ hExtract => changes_extract hExtract
  | cleanup => exact changes_orSelf fun _ hCleanup => changes_cleanup hCleanup
  | markStraight => exact .retouch (bare_markStraight net)
  | deriveHeights ground s => exact .retouch (bare_deriveHeights net ground s)
  | relaxNode s cooling id => exact .retouch (view_relaxNode bare_withElevation net s cooling id)
  | nextPass s cooling => exact .retouch (view_nextPass bare_withElevation net s cooling)
  | relaxWhile s goOn => exact .retouch (bare_relaxWhile net s goOn)
  | importWay importer classifier way => exact changes_importWay classifier ⟨importer, net⟩ way
  | importWays importer ways classifiers => exact changes_importWays ⟨importer, net⟩ ways classifiers

theorem changes_foldl_after (net : Network) (ops : List Operation) :
    Changes net (ops.foldl after net) := by
  induction ops generalizing net with
  | nil => exact .refl
  | cons op rest ih => exact (changes_after net op).trans (ih (net.after op))

end TrackLayout.Network
