import TrackLayout.Proofs.Network.Operation

/-!
# Reachable networks

Every network that a run of operations makes of the empty one is well-formed,
since every change keeps networks so. Along a run the counters only rise. An
id that was handed out names its node for good: later it names a node at the
same point or none at all. Connections are never removed.
-/
set_option autoImplicit false

namespace TrackLayout.Network

variable {net next later : Network}

theorem Change.wellFormed (h : Change net next) (hNet : net.WellFormed) : next.WellFormed := by
  cases h with
  | retouch h => exact hNet.of_bare h.symm
  | addNode h => exact h.wellFormed hNet
  | connect h => exact h.wellFormed hNet
  | split h => exact (extract_eq_some hNet h).1
  | prune => exact hNet.prune

theorem Changes.wellFormed (h : Changes net next) (hNet : net.WellFormed) : next.WellFormed := by
  induction h with
  | refl => exact hNet
  | tail _ hLast ih => exact hLast.wellFormed ih

theorem wellFormed_run (ops : List Operation) : (run ops).WellFormed :=
  (changes_foldl_after .empty ops).wellFormed empty_wellFormed

/-! ## Ids along a run -/

/-- What `later` may have become of `net`, as far as the ids handed out in `net` go. -/
structure Follows (net later : Network) : Prop where
  nodes : ∀ {id}, net.nodes.HasIssued id → later.nodes.HasIssued id
  connections : ∀ {id}, net.connections.HasIssued id → later.connections.HasIssued id
  node? : ∀ {id}, net.nodes.HasIssued id → later.node? id = none ∨
    (later.node? id).map Junction.point = (net.node? id).map Junction.point
  connection? : ∀ {id}, net.connections.HasIssued id →
    (later.connection? id).map Connection.segment = (net.connection? id).map Connection.segment

namespace Follows

theorem refl (net : Network) : net.Follows net := ⟨id, id, fun _ => .inr rfl, fun _ => rfl⟩

theorem trans (h : net.Follows next) (hNext : next.Follows later) : net.Follows later where
  nodes hId := hNext.nodes (h.nodes hId)
  connections hId := hNext.connections (h.connections hId)
  node? {id} hId := by
    rcases hNext.node? (h.nodes hId) with hGone | hLater
    · exact .inl hGone
    · rcases h.node? hId with hNone | hSame
      · rw [hNone, Option.map_none, Option.map_eq_none_iff] at hLater
        exact .inl hLater
      · exact .inr (hLater.trans hSame)
  connection? hId := (hNext.connection? (h.connections hId)).trans (h.connection? hId)

theorem of_bare (h : next.bare = net.bare) : net.Follows next where
  nodes {id} hId := by
    rw [Table.hasIssued_iff] at hId ⊢
    rwa [Table.slots_size_of_map_eq (congrArg Network.nodes h)]
  connections {id} hId := by
    rw [Table.hasIssued_iff] at hId ⊢
    rwa [Table.slots_size_of_map_eq (congrArg (fun net => net.connections) h)]
  node? {id} _ := .inr (node?_congr_of_bare h Junction.point (fun _ => rfl) id)
  connection? {id} _ := connection?_congr_of_bare h Connection.segment (fun _ => rfl) id

end Follows

theorem hasIssued_add? {kind : IdKind} {α : Type} {t u : Table kind α} {entry : Id kind → α} {new id : Id kind}
    (h : t.add? entry = some (new, u)) (hId : t.HasIssued id) : u.HasIssued id ∧ id ≠ new := by
  have hNew := Table.id_add? h
  have hSize := Table.slots_size_add? h
  rw [Table.hasIssued_iff] at hId ⊢
  refine ⟨by omega, ?_⟩
  rintro rfl
  omega

theorem Added.follows {position : Position} {id : NodeId} (h : Added net position id next) :
    net.Follows next where
  nodes hId := (hasIssued_add? h.add hId).1
  connections hId := h.connections ▸ hId
  node? hId := by
    rw [h.node?, if_neg (hasIssued_add? h.add hId).2]
    exact .inr rfl
  connection? {other} _ := by rw [h.connection?]

theorem Connected.follows {start stop : NodeId} {spec : TrackSpec} {p q : Point} {id : ConnectionId}
    (h : Connected net start stop spec p q id next) : net.Follows next where
  nodes {n} hId := by
    rw [Table.hasIssued_iff] at hId ⊢
    simpa [h.nodes] using hId
  connections hId := (hasIssued_add? h.add hId).1
  node? {n} _ := .inr (h.point n)
  connection? hId := by rw [h.connection?, if_neg (hasIssued_add? h.add hId).2]

theorem Split.follows {n sibling : NodeId} {j : Junction} {ts : List Attachment}
    (h : Split net n j ts sibling next) : net.Follows next where
  nodes {m} hId := by
    have hSize := h.nodeSlots
    rw [Table.hasIssued_iff] at hId ⊢
    omega
  connections {id} hId := by
    rw [Table.hasIssued_iff] at hId ⊢
    rwa [Table.slots_size_of_map_eq h.loose]
  node? {m} hId := .inr <| by
    have hOld : m ≠ sibling := by
      rintro rfl
      have hVal := h.sibling_val
      rw [Table.hasIssued_iff] at hId
      omega
    have hNode := congrArg (Option.map Junction.point) (h.node? m)
    rw [if_neg hOld, Option.map_map, Option.map_map] at hNode
    refine hNode.trans (congrArg (Option.map · (net.node? m)) (funext fun i => ?_))
    dsimp only [Function.comp]
    split
    · have hDetach : ∀ (j : Junction) (t : Attachment), (j.detach t.connection).point = j.point :=
        fun _ _ => rfl
      exact foldl_view Junction.point hDetach i ts
    · rfl
  connection? {id} _ := by
    have hLoose := congrArg (Option.map Connection.segment) (Table.get?_of_map_eq h.loose id)
    rwa [Option.map_map, Option.map_map] at hLoose

theorem follows_prune (net : Network) : net.Follows net.prune where
  nodes {id} hId := by
    rw [Table.hasIssued_iff] at hId ⊢
    simpa [prune] using hId
  connections hId := hId
  node? {id} _ := by
    rw [node?_prune]
    cases net.node? id with
    | none => exact .inl rfl
    | some j => cases hKeep : !j.tracks.isEmpty <;> simp [Option.filter_some, hKeep]
  connection? _ := rfl

theorem Change.follows (h : Change net next) (hNet : net.WellFormed) : net.Follows next := by
  cases h with
  | retouch h => exact .of_bare h
  | addNode h => exact h.follows
  | connect h => exact h.follows
  | split h =>
    obtain ⟨-, j, ts, hSplit⟩ := extract_eq_some hNet h
    exact hSplit.follows
  | prune => exact follows_prune net

theorem Changes.follows (h : Changes net next) (hNet : net.WellFormed) : net.Follows next := by
  induction h with
  | refl => exact .refl net
  | tail hFirst hLast ih => exact ih.trans (hLast.follows (Changes.wellFormed hFirst hNet))

/-- The ids that operations return were never handed out before. -/
structure IssuesNew (net : Network) : Prop where
  addNode : ∀ {position id next}, net.addNode position = .ok (id, next) →
    ¬net.nodes.HasIssued id ∧ next.nodes.HasIssued id
  connect : ∀ {start stop spec id next}, net.connect start stop spec = .ok (id, next) →
    ¬net.connections.HasIssued id ∧ next.connections.HasIssued id
  extract : ∀ {n id next}, net.extract n = .ok (some (id, next)) →
    ¬net.nodes.HasIssued id ∧ next.nodes.HasIssued id

theorem WellFormed.issuesNew (hNet : net.WellFormed) : net.IssuesNew where
  addNode {position id next} h := by
    have hAdd := (addNode_eq_ok h).add
    rw [Table.hasIssued_iff, Table.hasIssued_iff, Table.slots_size_add? hAdd, Table.id_add? hAdd]
    omega
  connect {start stop spec id next} h := by
    obtain ⟨p, q, hConnected⟩ := connect_eq_ok h
    have hAdd := hConnected.add
    rw [Table.hasIssued_iff, Table.hasIssued_iff, Table.slots_size_add? hAdd, Table.id_add? hAdd]
    omega
  extract {n id next} h := by
    obtain ⟨-, j, ts, hSplit⟩ := extract_eq_some hNet h
    rw [Table.hasIssued_iff, Table.hasIssued_iff, hSplit.nodeSlots, hSplit.sibling_val]
    omega

/-- After any run the network is well-formed, both tables go through their ids in increasing order,
below their counters, and the ids handed out so far keep their meaning in all that follows. -/
theorem run_invariant (ops more : List Operation) :
    (run ops).WellFormed ∧
    ((run ops).nodes.ids.Pairwise (·.val < ·.val) ∧
      ∀ id ∈ (run ops).nodes.ids, id.val < (run ops).nodes.counter.next) ∧
    ((run ops).connections.ids.Pairwise (·.val < ·.val) ∧
      ∀ id ∈ (run ops).connections.ids, id.val < (run ops).connections.counter.next) ∧
    (run ops).IssuesNew ∧ (run ops).Follows (run (ops ++ more)) := by
  have hNet := wellFormed_run ops
  refine ⟨hNet, ⟨Table.ids_pairwise _, fun id hId => ?_⟩, ⟨Table.ids_pairwise _, fun id hId => ?_⟩,
    hNet.issuesNew, ?_⟩
  · obtain ⟨j, hj⟩ := Table.mem_ids.mp hId
    exact Table.hasIssued_of_get? hj
  · obtain ⟨c, hc⟩ := Table.mem_ids.mp hId
    exact Table.hasIssued_of_get? hc
  · rw [run, run, List.foldl_append]
    exact (changes_foldl_after _ more).follows hNet

end TrackLayout.Network
