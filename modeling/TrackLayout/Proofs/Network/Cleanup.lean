import TrackLayout.Proofs.Network.Attachments
import TrackLayout.Proofs.Network.Reachable

/-!
# Cleanups come to an end

The queue of a cleanup runs empty: a split adds a node and no connection, and
every node keeps a track, so no more nodes can be split off than there are
attachments to spare. A node that was found in order stays so while others are
split, since nothing of it and of its connections' subnetworks changes. What is
left is in order everywhere, and cleaning up again finds nothing to do.
-/
set_option autoImplicit false

namespace TrackLayout

/-- A junction without tracks and links: where it is, and what else rates its height. -/
def Junction.site (j : Junction) : Junction := { j.unlinked with tracks := [], sides := {} }

namespace Network

variable {net next : Network} {n m sibling : NodeId} {j : Junction} {ts : List Attachment}

/-! ## What a split leaves -/

namespace Split

variable (h : Split net n j ts sibling next)
include h

theorem ne_of_present {i : Junction} (hm : net.node? m = some i) : m ≠ sibling := by
  rintro rfl
  have hIssued := Table.hasIssued_iff.mp (Table.hasIssued_of_get? hm)
  have hVal := h.sibling_val
  omega

/-- The tracks of a node afterwards: what was moved, what stayed, or all it had. -/
theorem tracks_of_node? {i : Junction} (hm : next.node? m = some i) :
    (m = sibling ∧ i.tracks = ts) ∨
    (m = n ∧ i.tracks = (ts.foldl (fun j t => j.detach t.connection) j).tracks) ∨
    (m ≠ sibling ∧ m ≠ n ∧ ∃ b, net.node? m = some b ∧ i.tracks = b.tracks ∧ i.sides = b.sides) := by
  have hNode := h.node? m
  rw [hm, Option.map_some] at hNode
  obtain hSibling | hSibling := eq_or_ne m sibling
  · rw [if_pos hSibling, Option.some.injEq] at hNode
    exact .inl ⟨hSibling, congrArg Junction.tracks hNode⟩
  · rw [if_neg hSibling] at hNode
    obtain ⟨b, hb, hUnlinked⟩ := Option.map_eq_some_iff.mp hNode.symm
    obtain hn | hn := eq_or_ne m n
    · rw [if_pos hn] at hUnlinked
      rw [hn, h.node, Option.some.injEq] at hb
      rw [← hb] at hUnlinked
      exact .inr (.inl ⟨hn, (congrArg Junction.tracks hUnlinked).symm⟩)
    · rw [if_neg hn] at hUnlinked
      exact .inr (.inr ⟨hSibling, hn, b, hb, (congrArg Junction.tracks hUnlinked).symm,
        (congrArg Junction.sides hUnlinked).symm⟩)

theorem tracked (hNet : net.WellFormed) (hTracked : net.Tracked) : next.Tracked := by
  intro m i hm
  rcases h.tracks_of_node? hm with ⟨-, hMoved⟩ | ⟨-, hStayed⟩ | ⟨-, -, b, hb, hSame, -⟩
  · rw [hMoved]
    exact h.moved_ne_nil
  · rw [hStayed]
    have hNodup := hNet.connections_nodup h.node
    have hLater := h.later
    rw [Junction.connections] at hNodup
    cases hTracks : j.tracks with
    | nil => exact absurd hTracks (hTracked h.node)
    | cons first rest =>
      rw [hTracks, List.map_cons, List.nodup_cons] at hNodup
      rw [hTracks, List.tail_cons] at hLater
      have hStays : first.connection ∉ ts.map (·.connection) := fun hMem =>
        hNodup.1 ((hLater.map _).subset hMem)
      exact List.ne_nil_of_mem (mem_foldl_detach (by rw [hTracks]; exact List.mem_cons_self) hStays)
  · rw [hSame]
    exact hTracked hb

theorem subnetwork? (id : ConnectionId) : next.subnetwork? id = net.subnetwork? id := by
  have hLoose := congrArg (Option.map (·.trackType.subnetwork)) (Table.get?_of_map_eq h.loose id)
  rwa [Option.map_map, Option.map_map] at hLoose

theorem connections_size : next.connections.size = net.connections.size := Table.size_of_map_eq h.loose

theorem nodes_size : next.nodes.size = net.nodes.size + 1 := by
  have hPerm : next.nodes.ids.Perm (sibling :: net.nodes.ids) := by
    have hNew : sibling ∉ net.nodes.ids := fun hMem => by
      obtain ⟨i, hi⟩ := Table.mem_ids.mp hMem
      exact h.ne_of_present hi rfl
    rw [List.perm_ext_iff_of_nodup next.nodes.ids_nodup (List.nodup_cons.mpr ⟨hNew, net.nodes.ids_nodup⟩)]
    intro m
    have hPresent := congrArg Option.isSome (h.node? m)
    rw [List.mem_cons, Table.mem_ids, Table.mem_ids, ← Option.isSome_iff_exists, ← Option.isSome_iff_exists]
    obtain hSibling | hSibling := eq_or_ne m sibling <;> simp_all [Network.node?]
  rw [Table.size_eq_length, hPerm.length_eq, List.length_cons, Table.size_eq_length]

theorem site {i : Junction} (hm : net.node? m = some i) :
    (next.node? m).map Junction.site = some i.site := by
  have hUnlinked : Junction.site ∘ Junction.unlinked = Junction.site := by
    funext j
    simp [Junction.site, Junction.unlinked]
  have hDetach : ∀ (j : Junction) (t : Attachment), (j.detach t.connection).site = j.site := fun _ _ => rfl
  have hNode := congrArg (Option.map Junction.site) (h.node? m)
  rw [if_neg (h.ne_of_present hm), hm, Option.map_map, hUnlinked] at hNode
  rw [hNode, Option.map_some, Option.map_some, ← Function.comp_apply (f := Junction.site), hUnlinked]
  split
  · rw [foldl_view Junction.site hDetach]
  · rfl

/-- A node of the split network has the place and only tracks of a node there was before. -/
theorem exists_origin {i : Junction} (hm : next.node? m = some i) : ∃ o c, net.node? o = some c ∧
    i.point = c.point ∧ i.connections ⊆ c.connections ∧ (net.nodes.HasIssued m → o = m) := by
  have hDetach : ∀ (b : Junction) (t : Attachment), (b.detach t.connection).point = b.point := fun _ _ => rfl
  have hSub : ∀ b : Junction, (ts.foldl (fun b t => b.detach t.connection) b).tracks ⊆ b.tracks := by
    intro b
    refine List.foldlRecOn (motive := fun c : Junction => c.tracks ⊆ b.tracks) ts _ (List.Subset.refl _) ?_
    intro c hc t _
    exact fun u hu => hc (List.mem_of_mem_eraseP hu)
  have hNode := h.node? m
  rw [hm, Option.map_some] at hNode
  obtain hSibling | hSibling := eq_or_ne m sibling
  · rw [if_pos hSibling, Option.some.injEq] at hNode
    have hPoint : i.unlinked.point = j.point := by rw [hNode]; rfl
    refine ⟨n, j, h.node, hPoint, ?_, fun hIssued => ?_⟩
    · have hTracks : i.tracks = ts := congrArg Junction.tracks hNode
      rw [Junction.connections, hTracks]
      exact ((h.later.trans (List.tail_sublist _)).map _).subset
    · have hVal := h.sibling_val
      rw [hSibling, Table.hasIssued_iff] at hIssued
      omega
  · rw [if_neg hSibling] at hNode
    obtain ⟨b, hb, hUnlinked⟩ := Option.map_eq_some_iff.mp hNode.symm
    have hPoint := congrArg Junction.point hUnlinked
    have hTracks := congrArg Junction.tracks hUnlinked
    refine ⟨m, b, hb, ?_, ?_, fun _ => rfl⟩
    · rw [show i.point = i.unlinked.point from rfl, ← hPoint]
      split
      · exact foldl_view Junction.point hDetach b ts
      · rfl
    · rw [Junction.connections, show i.tracks = i.unlinked.tracks from rfl, ← hTracks]
      split
      · exact List.map_subset _ (hSub b)
      · exact List.Subset.refl _

end Split

/-! ## The queue -/

/-- Working off a queue splits `k` times and leaves the last network. No bound is set on the steps. -/
inductive Repairs : Network → List NodeId → Nat → Network → Prop where
  | done {net : Network} : Repairs net [] 0 net
  | keep {net out : Network} {n : NodeId} {queue : List NodeId} {k : Nat}
      (h : net.extract n = .ok none) (hRest : Repairs net queue k out) : Repairs net (n :: queue) k out
  | split {net next out : Network} {n sibling : NodeId} {queue : List NodeId} {k : Nat}
      (h : net.extract n = .ok (some (sibling, next)))
      (hRest : Repairs next (queue ++ [sibling, n]) k out) : Repairs net (n :: queue) (k + 1) out

/-- A split only fails for want of an id, and only where there is a track to spare. -/
theorem extract_eq_error {e : NetworkError} (hNet : net.WellFormed) (h : net.extract n = .error e) :
    e = .idsExhausted ∧ UInt32.size ≤ net.nodes.slots.size + 1 ∧
      ∃ j, net.node? n = some j ∧ 1 < j.tracks.length := by
  cases hj : net.node? n with
  | none => simp [extract_of_absent hj] at h
  | some j =>
    have hMisfitsNe : net.misfits j ≠ [] := fun hFits => by simp [extract_of_fitting hj hFits] at h
    rw [extract_of_misfits hj hMisfitsNe] at h
    obtain ⟨ts, hLater, hMisfits⟩ := hNet.misfits_eq hj
    cases hAdd : net.addNode j.position with
    | ok added => simp [hAdd, Except.map] at h
    | error e' =>
      rw [hAdd] at h
      obtain rfl := Except.error.inj h
      obtain ⟨hExhausted, hSize⟩ := addNode_eq_error hAdd
      refine ⟨hExhausted, hSize, j, rfl, ?_⟩
      have hMoved : ts ≠ [] := by
        rintro rfl
        exact hMisfitsNe hMisfits
      have hLength := hLater.length_le
      rw [List.length_tail] at hLength
      have hPos := List.length_pos_iff.mpr hMoved
      omega

/-- What working off a queue may come to: the queue ran empty, or there were more nodes to split off
than ids left. -/
def Outcome (net : Network) (k : Nat) (queue : List NodeId) : Except NetworkError (Nat × Network) → Prop
  | .error e => e = .idsExhausted ∧
      UInt32.size ≤ net.nodes.slots.size + (2 * net.connections.size - net.nodes.size)
  | .ok (k', out) => ∃ s, k' = k + s ∧ Repairs net queue s out

namespace Outcome

variable {k : Nat} {queue : List NodeId} {result : Except NetworkError (Nat × Network)}

theorem keep (hExtract : net.extract n = .ok none) (hRest : Outcome net k queue result) :
    Outcome net k (n :: queue) result := by
  cases result with
  | error e => exact hRest
  | ok out =>
    obtain ⟨s, hs, hRepairs⟩ := hRest
    exact ⟨s, hs, .keep hExtract hRepairs⟩

theorem split (hExtract : net.extract n = .ok (some (sibling, next))) (hSplit : Split net n j ts sibling next)
    (hSpare : next.nodes.size ≤ 2 * next.connections.size)
    (hRest : Outcome next (k + 1) (queue ++ [sibling, n]) result) : Outcome net k (n :: queue) result := by
  have hConnections := hSplit.connections_size
  have hNodes := hSplit.nodes_size
  have hSlots := hSplit.nodeSlots
  cases result with
  | error e =>
    obtain ⟨hExhausted, hSize⟩ := hRest
    exact ⟨hExhausted, by omega⟩
  | ok out =>
    obtain ⟨s, hs, hRepairs⟩ := hRest
    exact ⟨s + 1, by omega, .split hExtract hRepairs⟩

end Outcome

/-- With enough fuel the queue runs empty, unless the ids run out before. -/
theorem repair_of_le_fuel {fuel k : Nat} {queue : List NodeId} (hNet : net.WellFormed)
    (hTracked : net.Tracked)
    (hFuel : queue.length + 2 * (2 * net.connections.size - net.nodes.size) ≤ fuel) :
    Outcome net k queue (net.repair k fuel queue) := by
  -- each step takes a node off the queue; a split puts two back, but leaves one split less to spare
  induction fuel generalizing net k queue with
  | zero =>
    have hNil : queue = [] := List.length_eq_zero_iff.mp (by omega)
    subst hNil
    exact ⟨0, rfl, .done⟩
  | succ fuel ih =>
    cases queue with
    | nil => exact ⟨0, rfl, .done⟩
    | cons n queue =>
      rw [List.length_cons] at hFuel
      rw [repair]
      cases hExtract : net.extract n with
      | error e =>
        obtain ⟨hExhausted, hSize, j, hj, hMany⟩ := extract_eq_error hNet hExtract
        have hSpare := hTracked.size_lt hj hMany
        rw [hNet.attachments_eq] at hSpare
        exact ⟨hExhausted, by omega⟩
      | ok split =>
        cases split with
        | none =>
          have hEnough : queue.length + 2 * (2 * net.connections.size - net.nodes.size) ≤ fuel := by omega
          exact (ih hNet hTracked hEnough).keep hExtract
        | some split =>
          obtain ⟨sibling, next⟩ := split
          obtain ⟨hNext, j, ts, hSplit⟩ := extract_eq_some hNet hExtract
          have hNextTracked := hSplit.tracked hNet hTracked
          have hSpare := hNextTracked.size_le
          rw [hNext.attachments_eq] at hSpare
          have hEnough : (queue ++ [sibling, n]).length +
              2 * (2 * next.connections.size - next.nodes.size) ≤ fuel := by
            have hConnections := hSplit.connections_size
            have hNodes := hSplit.nodes_size
            simp only [List.length_append, List.length_cons, List.length_nil]
            omega
          exact (ih hNext hNextTracked hEnough).split hExtract hSplit hSpare

/-! ## What working off a queue leaves -/

namespace Repairs

variable {out : Network} {queue : List NodeId} {k : Nat}

theorem changes (h : Repairs net queue k out) : Changes net out := by
  induction h with
  | done => exact .refl
  | keep _ _ ih => exact ih
  | split h _ ih => exact .head (.split h) ih

/-- What every split keeps, working off a queue keeps. -/
theorem invariant {P : Network → Prop} (h : Repairs net queue k out)
    (hStep : ∀ {net next n j ts sibling}, net.WellFormed → Split net n j ts sibling next → P net → P next)
    (hNet : net.WellFormed) (hStart : P net) : P out := by
  induction h with
  | done => exact hStart
  | keep _ _ ih => exact ih hNet hStart
  | split h _ ih =>
    obtain ⟨hNext, j, ts, hSplit⟩ := extract_eq_some hNet h
    exact ih hNext (hStep hNet hSplit hStart)

theorem tracked (h : Repairs net queue k out) (hNet : net.WellFormed) (hTracked : net.Tracked) :
    out.Tracked := h.invariant (fun hNet hSplit => hSplit.tracked hNet) hNet hTracked

theorem loose (h : Repairs net queue k out) (hNet : net.WellFormed) :
    out.connections.map Connection.loose = net.connections.map Connection.loose :=
  h.invariant (P := fun next => next.connections.map Connection.loose = net.connections.map Connection.loose)
    (fun _ hSplit hLoose => hSplit.loose.trans hLoose) hNet rfl

theorem nodes_size (h : Repairs net queue k out) (hNet : net.WellFormed) :
    out.nodes.size = net.nodes.size + k := by
  induction h with
  | done => rfl
  | keep _ _ ih => exact ih hNet
  | split h _ ih =>
    obtain ⟨hNext, j, ts, hSplit⟩ := extract_eq_some hNet h
    have hSize := ih hNext
    rw [hSplit.nodes_size] at hSize
    omega

theorem site (h : Repairs net queue k out) (hNet : net.WellFormed) {m : NodeId} {i : Junction}
    (hm : net.node? m = some i) : (out.node? m).map Junction.site = some i.site := by
  induction h generalizing i with
  | done => rw [hm, Option.map_some]
  | keep _ _ ih => exact ih hNet hm
  | split h _ ih =>
    obtain ⟨hNext, j, ts, hSplit⟩ := extract_eq_some hNet h
    obtain ⟨b, hb, hSite⟩ := Option.map_eq_some_iff.mp (hSplit.site hm)
    rw [← hSite]
    exact ih hNext hb

/-- The nodes that are not in the queue are in order all the time. -/
theorem misfits_eq_nil (h : Repairs net queue k out) (hNet : net.WellFormed)
    (hFits : ∀ m i, net.node? m = some i → m ∉ queue → net.misfits i = []) :
    ∀ m i, out.node? m = some i → out.misfits i = [] := by
  -- after a split both its nodes are in the queue, and the others have not changed
  induction h with
  | done => exact fun m i hm => hFits m i hm List.not_mem_nil
  | @keep net out n queue k h _ ih =>
    refine ih hNet fun m i hm hQueue => ?_
    obtain hn | hn := eq_or_ne m n
    · exact extract_eq_none_iff.mp h i (hn ▸ hm)
    · exact hFits m i hm (by rw [List.mem_cons, not_or]; exact ⟨hn, hQueue⟩)
  | @split net next out n sibling queue k h _ ih =>
    obtain ⟨hNext, j, ts, hSplit⟩ := extract_eq_some hNet h
    refine ih hNext fun m i hm hQueue => ?_
    simp only [List.mem_append, List.mem_cons, List.not_mem_nil, or_false, not_or] at hQueue
    obtain ⟨hQueue, hSibling, hn⟩ := hQueue
    rcases hSplit.tracks_of_node? hm with ⟨h, -⟩ | ⟨h, -⟩ | ⟨-, -, b, hb, hTracks, hSides⟩
    · exact absurd h hSibling
    · exact absurd h hn
    · rw [misfits_congr hTracks hSides hSplit.subnetwork?]
      exact hFits m b hb (by rw [List.mem_cons, not_or]; exact ⟨hn, hQueue⟩)

/-- Where the queue can be worked off, no amount of fuel leads to an error. -/
theorem repair_ne_error (h : Repairs net queue k out) (split fuel : Nat) (e : NetworkError) :
    net.repair split fuel queue ≠ .error e := by
  induction h generalizing split fuel with
  | done => cases fuel <;> exact nofun
  | keep h _ ih =>
    cases fuel with
    | zero => exact nofun
    | succ fuel =>
      rw [repair, h]
      exact ih split fuel
  | split h _ ih =>
    cases fuel with
    | zero => exact nofun
    | succ fuel =>
      rw [repair, h]
      exact ih (split + 1) fuel

theorem unique (h : Repairs net queue k out) {k' : Nat} {out' : Network} (h' : Repairs net queue k' out') :
    k = k' ∧ out = out' := by
  induction h generalizing k' with
  | done =>
    cases h'
    exact ⟨rfl, rfl⟩
  | keep h _ ih =>
    cases h' with
    | keep _ hRest => exact ih hRest
    | split hSplit _ =>
      rw [h] at hSplit
      cases hSplit
  | split h _ ih =>
    cases h' with
    | keep hKeep _ =>
      rw [h] at hKeep
      cases hKeep
    | split hSplit hRest =>
      rw [h] at hSplit
      cases hSplit
      obtain ⟨rfl, rfl⟩ := ih hRest
      exact ⟨rfl, rfl⟩

/-- Every node stands where some node stood before and has only tracks of that one, which is the node
itself unless it was split off. -/
theorem exists_origin (h : Repairs net queue k out) (hNet : net.WellFormed) {m : NodeId} {i : Junction}
    (hm : out.node? m = some i) : ∃ n j, net.node? n = some j ∧ i.point = j.point ∧
      i.connections ⊆ j.connections ∧ (net.nodes.HasIssued m → n = m) := by
  induction h with
  | done => exact ⟨m, i, hm, rfl, List.Subset.refl _, fun _ => rfl⟩
  | keep _ _ ih => exact ih hNet hm
  | @split net next out a sibling queue k h _ ih =>
    obtain ⟨hNext, j, ts, hSplit⟩ := extract_eq_some hNet h
    obtain ⟨n, b, hb, hPoint, hTracks, hSame⟩ := ih hNext hm
    obtain ⟨o, c, hc, hPoint', hTracks', hSame'⟩ := hSplit.exists_origin hb
    refine ⟨o, c, hc, hPoint.trans hPoint', List.Subset.trans hTracks hTracks', fun hIssued => ?_⟩
    have hn := hSame (hSplit.follows.nodes hIssued)
    rw [hn] at hSame'
    exact hSame' hIssued

end Repairs

theorem tracked_prune (net : Network) : net.prune.Tracked := fun _ _ hj => (node?_of_prune hj).2

theorem Tracked.prune_eq (hTracked : net.Tracked) : net.prune = net := by
  have hFilter : net.nodes.filter (!·.tracks.isEmpty) = net.nodes :=
    Table.filter_eq_self fun n j hj => by simpa using hTracked hj
  rw [prune, hFilter]

theorem size_prune (net : Network) :
    net.prune.nodes.size + net.nodes.values.countP (·.tracks.isEmpty) = net.nodes.size := by
  have hValues : net.prune.nodes.values = net.nodes.values.filter (!·.tracks.isEmpty) := by
    rw [prune, ← Table.map_snd_toList, ← Table.map_snd_toList, Table.toList_filter, List.filter_map]
    rfl
  rw [Table.size, hValues, ← List.countP_eq_length_filter, Nat.add_comm, Table.size]
  have hLength := List.length_eq_countP_add_countP (fun j : Junction => j.tracks.isEmpty)
    (l := net.nodes.values)
  simp only [Bool.not_eq_true, Bool.decide_eq_false] at hLength
  exact hLength.symm

theorem cleanup_eq (net : Network) : net.cleanup =
    (net.prune.repair 0 (net.prune.nodes.size + 2 * net.prune.attachments) net.prune.nodes.ids).map
      fun result => (⟨net.nodes.size - net.prune.nodes.size, result.1⟩, result.2) := by
  rw [cleanup]
  cases net.prune.repair 0 (net.prune.nodes.size + 2 * net.prune.attachments) net.prune.nodes.ids <;> rfl

/-- Nothing to split leaves the network as it is. -/
theorem repair_of_extract_eq_none (h : ∀ n, net.extract n = .ok none) (k fuel : Nat)
    (queue : List NodeId) : net.repair k fuel queue = .ok (k, net) := by
  induction fuel generalizing queue with
  | zero => cases queue <;> rfl
  | succ fuel ih =>
    cases queue with
    | nil => rfl
    | cons n queue =>
      rw [repair, h]
      exact ih queue

/-- What a cleanup that reported `report` made of `net`. -/
structure CleanedUp (net : Network) (report : CleanupReport) (clean : Network) : Prop where
  /-- The queue of all nodes with tracks was worked off to its end. -/
  repairs : Repairs net.prune net.prune.nodes.ids report.split clean
  tracked : ∀ {n j}, clean.node? n = some j → j.tracks ≠ []
  extract : ∀ n, clean.extract n = .ok none
  fits : ∀ {n j first}, clean.node? n = some j → j.tracks.head? = some first → clean.Fits j first
  connectionIds : clean.connections.ids = net.connections.ids
  /-- Of a connection only its nodes may have changed. -/
  connection? : ∀ id,
    (clean.connection? id).map Connection.loose = (net.connection? id).map Connection.loose
  survivor : ∀ {n j}, net.node? n = some j → j.tracks ≠ [] →
    (clean.node? n).map Junction.site = some j.site
  removed : ∀ {n j}, net.node? n = some j → j.tracks = [] → clean.node? n = none
  pruned : report.pruned = net.nodes.values.countP (·.tracks.isEmpty)
  size : clean.nodes.size + report.pruned = net.nodes.size + report.split
  split_le : report.split + (net.nodes.size - report.pruned) ≤ 2 * net.connections.size
  again : clean.cleanup = .ok ({ pruned := 0, split := 0 }, clean)

theorem Repairs.cleanedUp {clean : Network} {k : Nat} (h : Repairs net.prune net.prune.nodes.ids k clean)
    (hNet : net.WellFormed) : CleanedUp net ⟨net.nodes.size - net.prune.nodes.size, k⟩ clean := by
  have hKept := hNet.prune
  have hClean := h.changes.wellFormed hKept
  have hTracked := h.tracked hKept (tracked_prune net)
  have hLoose := h.loose hKept
  have hMisfits := h.misfits_eq_nil hKept fun m i hm hNot => absurd (Table.mem_ids.mpr ⟨i, hm⟩) hNot
  have hExtract : ∀ n, clean.extract n = .ok none := fun n => extract_eq_none_iff.mpr (hMisfits n)
  have hSize := h.nodes_size hKept
  have hPruned := size_prune net
  exact {
    repairs := h
    tracked := fun hj => hTracked hj
    extract := hExtract
    fits := fun {n j first} hj hFirst => (hClean.misfits_eq_nil_iff hj hFirst).mp (hMisfits n j hj)
    connectionIds := Table.ids_of_map_eq hLoose
    connection? := Table.get?_of_map_eq hLoose
    survivor := fun {n j} hj hTracks => h.site hKept (by
      rw [node?_prune, hj, Option.filter_some, if_pos (by simpa using hTracks)])
    removed := fun {n j} hj hTracks => by
      have hIssued := (follows_prune net).nodes (Table.hasIssued_of_get? hj)
      have hGone : net.prune.node? n = none := by simp [node?_prune, hj, hTracks]
      rcases (h.changes.follows hKept).node? hIssued with hNone | hSame
      · exact hNone
      · rwa [hGone, Option.map_none, Option.map_eq_none_iff] at hSame
    pruned := by
      dsimp only
      omega
    size := by
      dsimp only
      omega
    split_le := by
      have hLe := hTracked.size_le
      have hConnections : clean.connections.size = net.connections.size := Table.size_of_map_eq hLoose
      rw [hClean.attachments_eq, hConnections] at hLe
      dsimp only
      omega
    again := by
      rw [cleanup_eq, hTracked.prune_eq, repair_of_extract_eq_none hExtract, Except.map, Nat.sub_self] }

theorem WellFormed.outcome_prune (hNet : net.WellFormed) : Outcome net.prune 0 net.prune.nodes.ids
    (net.prune.repair 0 (net.prune.nodes.size + 2 * net.prune.attachments) net.prune.nodes.ids) := by
  have hKept := hNet.prune
  refine repair_of_le_fuel hKept (tracked_prune net) ?_
  rw [hKept.attachments_eq, ← Table.size_eq_length]
  omega

theorem WellFormed.repairs_of_cleanup (hNet : net.WellFormed) {report : CleanupReport} {clean : Network}
    (h : net.cleanup = .ok (report, clean)) : Repairs net.prune net.prune.nodes.ids report.split clean := by
  have hOutcome := hNet.outcome_prune
  rw [cleanup_eq] at h
  cases hRepair : net.prune.repair 0 (net.prune.nodes.size + 2 * net.prune.attachments)
      net.prune.nodes.ids with
  | error e =>
    rw [hRepair] at h
    cases h
  | ok out =>
    rw [hRepair] at h hOutcome
    obtain ⟨s, hSplit, hRepairs⟩ := hOutcome
    cases h
    dsimp only
    rwa [hSplit, Nat.zero_add]

theorem WellFormed.cleanup_of_repairs (hNet : net.WellFormed) {k : Nat} {clean : Network}
    (h : Repairs net.prune net.prune.nodes.ids k clean) : ∃ report, net.cleanup = .ok (report, clean) := by
  have hOutcome := hNet.outcome_prune
  rw [cleanup_eq]
  cases hRepair : net.prune.repair 0 (net.prune.nodes.size + 2 * net.prune.attachments)
      net.prune.nodes.ids with
  | error e => exact absurd hRepair (h.repair_ne_error 0 _ e)
  | ok out =>
    rw [hRepair] at hOutcome
    obtain ⟨s, -, hRepairs⟩ := hOutcome
    obtain ⟨-, rfl⟩ := h.unique hRepairs
    exact ⟨_, rfl⟩

/-- A cleanup comes to an end, unless there are more nodes to split off than ids left. -/
theorem WellFormed.cleanup_outcome (hNet : net.WellFormed) :
    match net.cleanup with
    | .error e => e = .idsExhausted ∧
        UInt32.size ≤ net.nodes.slots.size + (2 * net.connections.size - net.prune.nodes.size)
    | .ok (report, clean) => CleanedUp net report clean := by
  have hRepair := hNet.outcome_prune
  rw [cleanup_eq]
  cases hOut : net.prune.repair 0 (net.prune.nodes.size + 2 * net.prune.attachments)
      net.prune.nodes.ids with
  | error e =>
    rw [hOut] at hRepair
    exact ⟨hRepair.1, by simpa [Network.prune] using hRepair.2⟩
  | ok out =>
    obtain ⟨split, clean⟩ := out
    rw [hOut] at hRepair
    obtain ⟨s, hSplit, hRepairs⟩ := hRepair
    rw [Nat.zero_add] at hSplit
    subst hSplit
    exact hRepairs.cleanedUp hNet

/-- A cleanup of a network that some run made comes to an end, and leaves it clean with the same
connections. It fails only if there are more nodes to split off than ids left. -/
theorem cleanup_run (ops : List Operation) :
    match (run ops).cleanup with
    | .error e => e = .idsExhausted ∧ UInt32.size ≤ (run ops).nodes.slots.size +
        (2 * (run ops).connections.size - (run ops).prune.nodes.size)
    | .ok (report, clean) => CleanedUp (run ops) report clean := (wellFormed_run ops).cleanup_outcome

end Network

end TrackLayout
