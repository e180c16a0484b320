import TrackLayout.Proofs.Network.Cleanup
import TrackLayout.Proofs.Network.Links
import TrackLayout.Proofs.Network.Selection

/-!
# Cleaning up one height plane

A cleanup works on a selected part as it works on the whole network. The queue
of the part is what the selection leaves of the queue of the whole, a split of
a selected node is the same split there, and a split of any other node does not
show. So the part of a network that was cleaned up is the part, cleaned up.
-/
set_option autoImplicit false

namespace TrackLayout.Network

variable {S : Selection} {net next part : Network} {n m id sibling : NodeId} {j : Junction}
  {ts : List Attachment}

/-- Two runs stay related if they do so step by step. -/
theorem foldl_related {β γ ι κ : Type} {R : β → γ → Prop} {f : β → ι → β} {g : γ → κ → γ} {ρ : ι → κ}
    {xs : List ι} (hStep : ∀ x ∈ xs, ∀ b c, R b c → R (f b x) (g c (ρ x))) {b : β} {c : γ} (h : R b c) :
    R (xs.foldl f b) ((xs.map ρ).foldl g c) := by
  induction xs generalizing b c with
  | nil => exact h
  | cons x rest ih =>
    obtain ⟨hx, hRest⟩ := List.forall_mem_cons.mp hStep
    exact ih hRest (hx b c h)

/-- The same where only some steps of the first run are made in the second one and the others do not show. -/
theorem foldl_filter_related {β γ ι κ : Type} {R : β → γ → Prop} {f : β → ι → β} {g : γ → κ → γ} {ρ : ι → κ}
    {keep : ι → Bool} (hKept : ∀ x b c, keep x = true → R b c → R (f b x) (g c (ρ x)))
    (hDropped : ∀ x b c, keep x = false → R b c → R (f b x) c) (xs : List ι) {b : β} {c : γ} (h : R b c) :
    R (xs.foldl f b) (((xs.filter keep).map ρ).foldl g c) := by
  induction xs generalizing b c with
  | nil => exact h
  | cons x rest ih =>
    cases hx : keep x with
    | true =>
      rw [List.filter_cons_of_pos hx]
      exact ih (hKept x b c hx h)
    | false =>
      rw [List.filter_cons_of_neg (by simp [hx])]
      exact ih (hDropped x b c hx h)

namespace Selects

/-! ## Links -/

section Links

variable (h : net.Selects S part)
include h

theorem of_linksOf : ∀ m ∈ net.linksOf n, S.node m = S.node n := by
  intro m hm
  rw [linksOf] at hm
  cases hj : net.node? n with
  | none => simp [hj] at hm
  | some j =>
    rw [hj] at hm
    exact h.links hj m hm

theorem of_linkClosure : ∀ m ∈ net.linkClosure n, S.node m = S.node n := by
  refine forall_mem_followLinks (fun a ha m hm => (h.of_linksOf m hm).trans ha) ?_ _ _
  simp

theorem linksOf (hn : S.node n = true) : part.linksOf (S.nodeId n) = (net.linksOf n).map S.nodeId := by
  rw [Network.linksOf, h.node? hn, Network.linksOf]
  cases net.node? n with
  | none => rfl
  | some j => exact Selection.linked_junction j

omit h in
theorem appendNew_map {found more : List NodeId} (hFound : ∀ m ∈ found, S.node m = true)
    (hMore : ∀ m ∈ more, S.node m = true) :
    appendNew (found.map S.nodeId) (more.map S.nodeId) = (appendNew found more).map S.nodeId := by
  induction more generalizing found with
  | nil => rfl
  | cons a rest ih =>
    obtain ⟨ha, hRest⟩ := List.forall_mem_cons.mp hMore
    have hContains : (found.map S.nodeId).contains (S.nodeId a) = found.contains a :=
      contains_map_renumber hFound ha
    rw [List.map_cons, appendNew_cons, appendNew_cons, hContains, ← ih ?_ hRest]
    · split <;> simp
    · split
      · exact hFound
      · simpa [or_imp, forall_and, ha] using hFound

theorem followLinks {found : List NodeId} (hFound : ∀ m ∈ found, S.node m = true) (fuel place : Nat) :
    part.followLinks (found.map S.nodeId) fuel place = (net.followLinks found fuel place).map S.nodeId := by
  induction fuel generalizing found place with
  | zero => rfl
  | succ fuel ih =>
    rw [Network.followLinks, Network.followLinks, List.getElem?_map]
    cases hNext : found[place]? with
    | none => rfl
    | some a =>
      have ha := hFound a (List.mem_of_getElem? hNext)
      have hMore : ∀ m ∈ net.linksOf a, S.node m = true := fun m hm => (h.of_linksOf m hm).trans ha
      simp only [Option.map_some]
      rw [h.linksOf ha, appendNew_map hFound hMore, ih]
      intro m hm
      rcases mem_appendNew.mp hm with hOld | hNew
      · exact hFound m hOld
      · exact hMore m hNew

theorem linkClosure (hn : S.node n = true) :
    part.linkClosure (S.nodeId n) = (net.linkClosure n).map S.nodeId := by
  have hFirst : ∀ m ∈ [n], S.node m = true := by simpa using hn
  have hFuel := h.followLinks hFirst (part.linkCount + net.linkCount + 1) 0
  rwa [List.map_singleton, followLinks_eq_linkClosure _ (by omega), followLinks_eq_linkClosure _ (by omega)]
    at hFuel

/-- A link between nodes that are both selected, or both not, keeps links among their own kind. -/
theorem links_linkTo (hSame : S.node m = S.node n) (hj : net.node? n = some j) :
    ∀ a ∈ Junction.linked (if j.linked.contains m then j else j.addRule (.linkedTo m)), S.node a = S.node n := by
  intro a ha
  split at ha
  · exact h.links hj a ha
  · simp only [Junction.linked, Junction.addRule, List.filterMap_append, List.mem_append] at ha
    rcases ha with hOld | hNew
    · exact h.links hj a hOld
    · simp only [List.filterMap_cons, HeightRule.linked?, List.filterMap_nil, List.mem_singleton] at hNew
      rw [hNew, hSame]

theorem linkTo (hn : S.node n = true) (hm : S.node m = true) :
    (net.linkTo n m).Selects S (part.linkTo (S.nodeId n) (S.nodeId m)) := by
  refine h.modifyNode hn (fun j => ?_) (fun j => ?_) (fun j hj => ?_) (fun j hj => ?_) (fun j hj => ?_)
  · split <;> rfl
  · split <;> rfl
  · have hContains : (S.junction j).linked.contains (S.nodeId m) = j.linked.contains m := by
      rw [Selection.linked_junction]
      exact contains_map_renumber (fun b hb => (h.links hj b hb).trans hn) hm
    rw [hContains]
    split
    · rfl
    · simp [Selection.junction, Junction.addRule, HeightRule.rename]
  · exact h.links_linkTo (hm.trans hn.symm) hj
  · intro r hr
    split at hr
    · exact h.read hj hn r hr
    · rcases List.mem_append.mp hr with hOld | hNew
      · exact h.read hj hn r hOld
      · rw [List.mem_singleton.mp hNew]
        intro m hm
        exact absurd hm List.not_mem_nil

theorem linkTo_dropped (hn : S.node n = false) (hm : S.node m = false) :
    (net.linkTo n m).Selects S part := by
  refine h.modifyNode_dropped hn (fun j => ?_) fun j hj => h.links_linkTo (hm.trans hn.symm) hj
  split <;> rfl

theorem linkPair (hn : S.node n = true) (hm : S.node m = true) :
    (net.linkPair n m).Selects S (part.linkPair (S.nodeId n) (S.nodeId m)) := by
  rw [Network.linkPair, Network.linkPair]
  simp only [renumber_inj hn hm]
  split
  · exact h
  · exact (h.linkTo hn hm).linkTo hm hn

theorem linkPair_dropped (hn : S.node n = false) (hm : S.node m = false) :
    (net.linkPair n m).Selects S part := by
  rw [Network.linkPair]
  split
  · exact h
  · exact (h.linkTo_dropped hn hm).linkTo_dropped hm hn

theorem link (hn : S.node n = true) (hm : S.node m = true) :
    (net.link n m).Selects S (part.link (S.nodeId n) (S.nodeId m)) := by
  have hNear := h.of_linkClosure (n := n)
  have hFar := h.of_linkClosure (n := m)
  rw [Network.link, Network.link, h.linkClosure hn, h.linkClosure hm]
  refine foldl_related (fun x hx b c hb => ?_) h
  refine foldl_related (fun y hy b c hb => ?_) hb
  exact hb.linkPair ((hNear x hx).trans hn) ((hFar y hy).trans hm)

theorem link_dropped (hn : S.node n = false) (hm : S.node m = false) : (net.link n m).Selects S part := by
  have hNear := h.of_linkClosure (n := n)
  have hFar := h.of_linkClosure (n := m)
  rw [Network.link]
  refine List.foldlRecOn (motive := fun b : Network => b.Selects S part) _ _ h fun b hb x hx => ?_
  refine List.foldlRecOn (motive := fun b : Network => b.Selects S part) _ _ hb fun b hb y hy => ?_
  exact hb.linkPair_dropped ((hNear x hx).trans hn) ((hFar y hy).trans hm)

end Links

/-! ## Moves -/

section Moves

variable {mid out mid' out' : Network}

theorem junction_foldl_detach (hTracks : ∀ t ∈ j.tracks, S.connection t.connection = true)
    (hMoved : ∀ t ∈ ts, S.connection t.connection = true) :
    S.junction (ts.foldl (fun j t => j.detach t.connection) j) =
      (ts.map S.attachment).foldl (fun j t => j.detach t.connection) (S.junction j) := by
  induction ts generalizing j with
  | nil => rfl
  | cons t rest ih =>
    obtain ⟨ht, hRest⟩ := List.forall_mem_cons.mp hMoved
    rw [List.foldl_cons, ih (fun u hu => hTracks u (List.mem_of_mem_eraseP hu)) hRest,
      Selection.junction_detach ht hTracks, List.map_cons, List.foldl_cons]
    rfl

theorem junction_foldl_attach (j : Junction) (ts : List Attachment) :
    S.junction (ts.foldl Junction.attach j) = (ts.map S.attachment).foldl Junction.attach (S.junction j) := by
  induction ts generalizing j with
  | nil => rfl
  | cons t rest ih => rw [List.foldl_cons, ih, Selection.junction_attach, List.map_cons, List.foldl_cons]

/-- Moving tracks leaves the rules where they are. -/
theorem rules_of_moved (hMoved : Moved mid n sibling ts out) {i : Junction} (hi : out.node? m = some i) :
    ∃ b, mid.node? m = some b ∧ i.rules = b.rules := by
  rw [hMoved.node?] at hi
  obtain ⟨b, hb, rfl⟩ := Option.map_eq_some_iff.mp hi
  refine ⟨b, hb, ?_⟩
  have hDetach : ∀ (j : Junction) (t : Attachment), (j.detach t.connection).rules = j.rules := fun _ _ => rfl
  have hAttach : ∀ (j : Junction) (t : Attachment), (j.attach t).rules = j.rules := fun _ _ => rfl
  split
  · exact foldl_view Junction.rules hDetach b ts
  · split
    · exact foldl_view Junction.rules hAttach b ts
    · rfl

/-- What a connection is made of moves along, and its ends stay selected or not. -/
theorem connection_of_moved (h : mid.Selects S part) (hMoved : Moved mid n sibling ts out)
    (hSame : S.node sibling = S.node n) {id : ConnectionId} {c : Connection}
    (hc : out.connection? id = some c) : ∃ d, mid.connection? id = some d ∧ c.plane = d.plane ∧
      S.node c.start = S.node d.start ∧ S.node c.stop = S.node d.stop := by
  rw [hMoved.connection?] at hc
  obtain ⟨d, hd, rfl⟩ := Option.map_eq_some_iff.mp hc
  refine ⟨d, hd, ?_⟩
  split
  · have hLoose := Connection.loose_eq_iff.mp
      (Connection.loose_handOver : (d.handOver n sibling).loose = d.loose)
    rw [Connection.start_handOver, Connection.stop_handOver (h.whole.ends_ne hd)]
    refine ⟨hLoose.2.2.2.2.2.2.2, ?_, ?_⟩
    · split
      · next hStart => rw [hSame, hStart]
      · rfl
    · split
      · next hStop => rw [hSame, hStop]
      · rfl
  · exact ⟨rfl, rfl, rfl⟩

/-- The tables decide whether moves are selected: what they leave where it is stays selected or not. -/
theorem of_moved (h : mid.Selects S mid') (hMoved : Moved mid n sibling ts out)
    (hSame : S.node sibling = S.node n) (hWhole : out.WellFormed) (hOwn : out'.WellFormed)
    (hNodes : out.nodes.Selects S.node S.junction out'.nodes)
    (hConnections : out.connections.Selects S.connection S.track out'.connections) : out.Selects S out' where
  nodes := hNodes
  connections := hConnections
  whole := hWhole
  own := hOwn
  plane {id c} hc := by
    obtain ⟨d, hd, hPlane, -⟩ := connection_of_moved h hMoved hSame hc
    rw [hPlane]
    exact h.plane hd
  start {id c} hc := by
    obtain ⟨d, hd, -, hStart, -⟩ := connection_of_moved h hMoved hSame hc
    rw [hStart]
    exact h.start hd
  stop {id c} hc := by
    obtain ⟨d, hd, -, -, hStop⟩ := connection_of_moved h hMoved hSame hc
    rw [hStop]
    exact h.stop hd
  links {m i} hi := by
    obtain ⟨b, hb, hRules⟩ := rules_of_moved hMoved hi
    rw [Junction.linked, hRules]
    exact h.links hb
  read {m i} hi := by
    obtain ⟨b, hb, hRules⟩ := rules_of_moved hMoved hi
    rw [hRules]
    exact h.read hb

theorem nodes_of_moved (h : mid.Selects S mid') (hMoved : Moved mid n sibling ts out)
    (hMoved' : Moved mid' (S.nodeId n) (S.nodeId sibling) (ts.map S.attachment) out') (hn : S.node n = true)
    (hSibling : S.node sibling = true) (hTracks : ∀ t ∈ ts, S.connection t.connection = true) :
    out.nodes.Selects S.node S.junction out'.nodes := by
  refine h.nodes.update
    (fun m j => if m = n then ts.foldl (fun (j : Junction) (t : Attachment) => j.detach t.connection) j
      else if m = sibling then ts.foldl Junction.attach j else j)
    (fun m j => if m = n then
        (ts.map S.attachment).foldl (fun (j : Junction) (t : Attachment) => j.detach t.connection) j
      else if m = sibling then (ts.map S.attachment).foldl Junction.attach j else j)
    hMoved.nodeSlots hMoved'.nodeSlots (fun m _ => hMoved.node? m) (fun m hm => ?_) (fun m j hm hj => ?_)
  · refine (hMoved'.node? (S.nodeId m)).trans ?_
    simp only [renumber_inj hm hn, renumber_inj hm hSibling]
    rfl
  · split
    · exact junction_foldl_detach (h.tracks hj hm) hTracks
    · split
      · exact junction_foldl_attach j ts
      · rfl

theorem connections_of_moved (h : mid.Selects S mid') (hMoved : Moved mid n sibling ts out)
    (hMoved' : Moved mid' (S.nodeId n) (S.nodeId sibling) (ts.map S.attachment) out') (hn : S.node n = true)
    (hTracks : ∀ t ∈ ts, S.connection t.connection = true) :
    out.connections.Selects S.connection S.track out'.connections := by
  refine h.connections.update
    (fun id c => if id ∈ ts.map Attachment.connection then c.handOver n sibling else c)
    (fun id c => if id ∈ ts.map Attachment.connection then c.handOver (S.nodeId n) (S.nodeId sibling) else c)
    hMoved.connectionSlots hMoved'.connectionSlots (fun id _ => hMoved.connection? id) (fun id hId => ?_)
    (fun id c hId hc => ?_)
  · refine (hMoved'.connection? (S.connectionId id)).trans ?_
    have hMem : S.connectionId id ∈ (ts.map S.attachment).map (·.connection) ↔
        id ∈ ts.map (·.connection) := by
      simp only [List.map_map, List.mem_map, Function.comp]
      constructor
      · rintro ⟨t, ht, hSame⟩
        exact ⟨t, ht, (renumber_inj (hTracks t ht) hId).mp hSame⟩
      · rintro ⟨t, ht, rfl⟩
        exact ⟨t, ht, rfl⟩
    simp only [hMem]
    rfl
  · split
    · exact Selection.track_handOver hn (h.ends hId hc).1 (h.ends hId hc).2
    · rfl

/-- The same moves made in the part, if the nodes were selected. -/
theorem moved (h : mid.Selects S mid') (hMoved : Moved mid n sibling ts out)
    (hMoved' : Moved mid' (S.nodeId n) (S.nodeId sibling) (ts.map S.attachment) out')
    (hWhole : out.WellFormed) (hOwn : out'.WellFormed) (hn : S.node n = true)
    (hSibling : S.node sibling = true) (hTracks : ∀ t ∈ ts, S.connection t.connection = true) :
    out.Selects S out' :=
  of_moved h hMoved (hSibling.trans hn.symm) hWhole hOwn (nodes_of_moved h hMoved hMoved' hn hSibling hTracks)
    (connections_of_moved h hMoved hMoved' hn hTracks)

/-- Moves between other nodes do not show. -/
theorem moved_dropped (h : mid.Selects S part) (hMoved : Moved mid n sibling ts out)
    (hWhole : out.WellFormed) (hn : S.node n = false) (hSibling : S.node sibling = false)
    (hTracks : ∀ t ∈ ts, S.connection t.connection = false) : out.Selects S part := by
  refine of_moved h hMoved (hSibling.trans hn.symm) hWhole h.own ⟨?_, fun m hm => ?_⟩ ⟨?_, fun id hId => ?_⟩
  · rw [h.nodes.size, hMoved.nodeSlots]
  · have hNode : out.nodes.get? m = mid.nodes.get? m := by
      refine (hMoved.node? m).trans ?_
      have hNotSource : m ≠ n := fun hSame => by rw [hSame, hn] at hm; cases hm
      have hNotTarget : m ≠ sibling := fun hSame => by rw [hSame, hSibling] at hm; cases hm
      simp [hNotSource, hNotTarget, Network.node?]
    rw [h.nodes.get? m hm, hNode]
  · rw [h.connections.size, hMoved.connectionSlots]
  · have hConnection : out.connections.get? id = mid.connections.get? id := by
      refine (hMoved.connection? id).trans ?_
      have hNot : id ∉ ts.map (·.connection) := fun hMem => by
        obtain ⟨t, ht, rfl⟩ := List.mem_map.mp hMem
        rw [hTracks t ht] at hId
        cases hId
      simp [hNot, Network.connection?]
    rw [h.connections.get? id hId, hConnection]

end Moves

/-! ## New nodes -/

section Nodes

variable (h : net.Selects S part) {position : Position} {mid : Network}
include h

omit h in
theorem node_of_added (hAdd : Added net position id mid) {i : Junction} (hi : mid.node? m = some i) :
    i.rules = [] ∨ net.node? m = some i := by
  rw [hAdd.node?] at hi
  split at hi
  · exact .inl (by rw [← Option.some.inj hi])
  · exact .inr hi

theorem added (hAdd : Added net position id mid) {mid' : Network}
    (hNodes : mid.nodes.Selects S.node S.junction mid'.nodes) (hConnections : mid'.connections = part.connections)
    (hOwn : mid'.WellFormed) : mid.Selects S mid' where
  nodes := hNodes
  connections := by
    rw [hAdd.connections, hConnections]
    exact h.connections
  whole := hAdd.wellFormed h.whole
  own := hOwn
  plane {id c} hc := h.plane (hAdd.connection? id ▸ hc)
  start {id c} hc := h.start (hAdd.connection? id ▸ hc)
  stop {id c} hc := h.stop (hAdd.connection? id ▸ hc)
  links {m i} hi := by
    rcases node_of_added hAdd hi with hNew | hOld
    · rw [Junction.linked, hNew]
      intro m hm
      exact absurd hm List.not_mem_nil
    · exact h.links hOld
  read {m i} hi hm := by
    rcases node_of_added hAdd hi with hNew | hOld
    · rw [hNew]
      intro r hr
      exact absurd hr List.not_mem_nil
    · exact h.read hOld hm

theorem addNode (hAdd : net.addNode position = .ok (id, mid)) (hId : S.node id = true) :
    ∃ mid', part.addNode position = .ok (S.nodeId id, mid') ∧ mid.Selects S mid' := by
  have hNew := addNode_eq_ok hAdd
  obtain ⟨nodes, hNodes, hSelects⟩ := h.nodes.add? (fun id => { id, position }) hNew.add hId rfl
  have hPart : part.addNode position = .ok (S.nodeId id, { part with nodes }) := by
    rw [Network.addNode, hNodes]
  exact ⟨_, hPart, h.added hNew hSelects rfl ((addNode_eq_ok hPart).wellFormed h.own)⟩

theorem addNode_dropped (hAdd : net.addNode position = .ok (id, mid)) (hId : S.node id = false) :
    mid.Selects S part :=
  have hNew := addNode_eq_ok hAdd
  h.added hNew (h.nodes.add?_dropped hNew.add hId) rfl h.own

end Nodes

/-! ## Splits -/

section Splits

variable (h : net.Selects S part)
include h

theorem extract_of_none (hn : S.node n = true) (hExtract : net.extract n = .ok none) :
    part.extract (S.nodeId n) = .ok none := by
  rw [extract_eq_none_iff] at hExtract ⊢
  intro i hi
  rw [h.node? hn] at hi
  obtain ⟨j, hj, rfl⟩ := Option.map_eq_some_iff.mp hi
  rw [h.misfits hj hn, hExtract j hj, List.map_nil]

/-- A split of a selected node is a split of the same tracks in the part. -/
theorem extract (hn : S.node n = true) (hSibling : S.node sibling = true)
    (hExtract : net.extract n = .ok (some (sibling, next))) :
    ∃ next', part.extract (S.nodeId n) = .ok (some (S.nodeId sibling, next')) ∧ next.Selects S next' := by
  cases hj : net.node? n with
  | none => simp [extract_of_absent hj] at hExtract
  | some j =>
    obtain ⟨hMisfitsNe, mid, hAddNode, rfl⟩ := (extract_eq_some_iff hj).mp hExtract
    obtain ⟨ts, hLater, hMisfits⟩ := h.whole.misfits_eq hj
    obtain ⟨mid', hAddNode', hMid⟩ := h.addNode hAddNode hSibling
    have hj' : part.node? (S.nodeId n) = some (S.junction j) := by rw [h.node? hn, hj, Option.map_some]
    have hLater' : (ts.map S.attachment).Sublist (S.junction j).tracks.tail := by
      have hTail : (S.junction j).tracks.tail = j.tracks.tail.map S.attachment := List.map_tail.symm
      rw [hTail]
      exact hLater.map _
    have hMisfits' : part.misfits (S.junction j) = (ts.map S.attachment).map (·.connection) := by
      rw [h.misfits hj hn, hMisfits, List.map_map, List.map_map]
      rfl
    obtain ⟨hMoved, hWhole⟩ := (addNode_eq_ok hAddNode).moved h.whole hj hLater
    obtain ⟨hMoved', hOwn⟩ := Added.moved (j := S.junction j) (addNode_eq_ok hAddNode') h.own hj' hLater'
    have hTracks : ∀ t ∈ ts, S.connection t.connection = true := fun t ht =>
      h.tracks hj hn t (List.mem_of_mem_tail (hLater.subset ht))
    have hNext := (hMid.moved hMoved hMoved' hWhole hOwn hn hSibling hTracks).link hn hSibling
    rw [← hMisfits, ← hMisfits'] at hNext
    refine ⟨_, (extract_eq_some_iff hj').mpr ⟨?_, mid', hAddNode', rfl⟩, hNext⟩
    rw [h.misfits hj hn]
    simpa using hMisfitsNe

theorem extract_dropped (hn : S.node n = false) (hSibling : S.node sibling = false)
    (hExtract : net.extract n = .ok (some (sibling, next))) : next.Selects S part := by
  cases hj : net.node? n with
  | none => simp [extract_of_absent hj] at hExtract
  | some j =>
    obtain ⟨-, mid, hAddNode, rfl⟩ := (extract_eq_some_iff hj).mp hExtract
    obtain ⟨ts, hLater, hMisfits⟩ := h.whole.misfits_eq hj
    obtain ⟨hMoved, hWhole⟩ := (addNode_eq_ok hAddNode).moved h.whole hj hLater
    have hTracks : ∀ t ∈ ts, S.connection t.connection = false := fun t ht =>
      (h.of_attached hj (List.mem_map_of_mem (List.mem_of_mem_tail (hLater.subset ht)))).trans hn
    have hMid := h.addNode_dropped hAddNode hSibling
    have hNext := (hMid.moved_dropped hMoved hWhole hn hSibling hTracks).link_dropped hn hSibling
    rwa [← hMisfits] at hNext

end Splits

/-! ## The queue -/

/-- Every node is selected with what is attached to it. -/
def Agrees (S : Selection) (net : Network) : Prop :=
  ∀ m i, net.node? m = some i → ∀ id ∈ i.connections, S.connection id = S.node m

/-- What was split off is selected with the node it was split off from. -/
theorem node_sibling (h : net.Selects S part) (hTracked : net.Tracked)
    (hExtract : net.extract n = .ok (some (sibling, next))) {queue : List NodeId} {k : Nat} {out : Network}
    (hRest : Repairs next queue k out) (hOut : Agrees S out) : S.node sibling = S.node n := by
  -- the sibling keeps a track to the end, and had it from the node
  obtain ⟨hNext, j, ts, hSplit⟩ := extract_eq_some h.whole hExtract
  obtain ⟨i, hi, hTracks⟩ : ∃ i, next.node? sibling = some i ∧ i.tracks = ts := by
    have hNode := hSplit.node? sibling
    rw [if_pos rfl] at hNode
    obtain ⟨i, hi, hUnlinked⟩ := Option.map_eq_some_iff.mp hNode
    exact ⟨i, hi, congrArg Junction.tracks hUnlinked⟩
  obtain ⟨last, hLast, -⟩ := Option.map_eq_some_iff.mp (hRest.site hNext hi)
  obtain ⟨t, ht⟩ := List.exists_mem_of_ne_nil _
    (hRest.tracked hNext (hSplit.tracked h.whole hTracked) hLast)
  have hAttached : t.connection ∈ last.connections := List.mem_map_of_mem ht
  obtain ⟨o, c, hc, -, hSub, hSame⟩ := hRest.exists_origin hNext hLast
  rw [hSame (Table.hasIssued_of_get? hi), hi, Option.some.injEq] at hc
  have hMoved : t.connection ∈ ts.map (·.connection) := by
    rw [← hTracks, ← Junction.connections, hc]
    exact hSub hAttached
  have hOld : t.connection ∈ j.connections :=
    ((hSplit.later.trans (List.tail_sublist _)).map _).subset hMoved
  rw [← hOut sibling last hLast _ hAttached]
  exact h.of_attached hSplit.node hOld

/-- The part of a queue of nodes to look at. -/
def queue (S : Selection) (queue : List NodeId) : List NodeId := (queue.filter S.node).map S.nodeId

theorem repairs {out : Network} {todo : List NodeId} {k : Nat} (hRepairs : Repairs net todo k out)
    (h : net.Selects S part) (hTracked : net.Tracked) (hOut : Agrees S out) :
    ∃ k' out', Repairs part (queue S todo) k' out' ∧ out.Selects S out' := by
  induction hRepairs generalizing part with
  | done => exact ⟨0, part, .done, h⟩
  | @keep net out n todo k hExtract _ ih =>
    obtain ⟨k', out', hRest, hSelects⟩ := ih h hTracked hOut
    cases hn : S.node n with
    | false => exact ⟨k', out', by simpa [queue, hn] using hRest, hSelects⟩
    | true =>
      refine ⟨k', out', ?_, hSelects⟩
      rw [queue, List.filter_cons_of_pos hn]
      exact .keep (h.extract_of_none hn hExtract) hRest
  | @split net next out n sibling todo k hExtract hRest ih =>
    obtain ⟨-, j, ts, hSplit⟩ := extract_eq_some h.whole hExtract
    have hSibling := h.node_sibling hTracked hExtract hRest hOut
    have hNextTracked := hSplit.tracked h.whole hTracked
    cases hn : S.node n with
    | false =>
      rw [hn] at hSibling
      obtain ⟨k', out', hRest', hSelects⟩ := ih (h.extract_dropped hn hSibling hExtract) hNextTracked hOut
      exact ⟨k', out', by simpa [queue, hn, hSibling] using hRest', hSelects⟩
    | true =>
      rw [hn] at hSibling
      obtain ⟨next', hExtract', hNext⟩ := h.extract hn hSibling hExtract
      obtain ⟨k', out', hRest', hSelects⟩ := ih hNext hNextTracked hOut
      refine ⟨k' + 1, out', ?_, hSelects⟩
      rw [queue, List.filter_cons_of_pos hn]
      exact .split hExtract' (by simpa [queue, hn, hSibling] using hRest')

theorem prune (h : net.Selects S part) : net.prune.Selects S part.prune where
  nodes := h.nodes.filter fun j => by simp [Selection.junction]
  connections := h.connections
  whole := h.whole.prune
  own := h.own.prune
  plane := h.plane
  start := h.start
  stop := h.stop
  links hj := h.links (node?_of_prune hj).1
  read hj := h.read (node?_of_prune hj).1

/-- Where the whole can be cleaned up, so can the part, and stays the part. -/
theorem cleanup (h : net.Selects S part) {report : CleanupReport} {clean : Network}
    (hCleanup : net.cleanup = .ok (report, clean)) (hClean : Agrees S clean) :
    ∃ report' clean', part.cleanup = .ok (report', clean') ∧ clean.Selects S clean' := by
  have hRepairs := h.whole.repairs_of_cleanup hCleanup
  obtain ⟨k', clean', hRepairs', hSelects⟩ := repairs hRepairs h.prune (tracked_prune net) hClean
  rw [queue, ← h.prune.nodes.ids_eq] at hRepairs'
  obtain ⟨report', hCleanup'⟩ := h.own.cleanup_of_repairs hRepairs'
  exact ⟨report', clean', hCleanup', hSelects⟩

end Selects

end TrackLayout.Network
