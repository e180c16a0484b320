import TrackLayout.Proofs.Network.Splits

/-!
# Every junction is repaired on its own

Which tracks of a junction stay together is decided by the tracks alone: what
does not fit with the first track is taken out, and both parts are gone through
in the same way. However the splits of many junctions are mixed, each junction
comes apart into the same blocks. The first one stays at the node; every other
one is at a node of its own that was split off from it, at the same place.
-/
set_option autoImplicit false

namespace TrackLayout

/-- A track with the subnetwork of its connection, which is all that a cleanup looks at. -/
structure Lane where
  track : Attachment
  subnetwork : Subnetwork
  deriving DecidableEq

namespace Lane

def connection (l : Lane) : ConnectionId := l.track.connection

/-- Lanes of another subnetwork. -/
def foreign (lanes : List Lane) (subnetwork : Subnetwork) : List Lane :=
  lanes.filter (·.subnetwork != subnetwork)

/-- Lanes off an axis. -/
def offAxis (lanes : List Lane) (axis : Float) : List Lane :=
  lanes.filter fun l => Network.axisTolerance < Angle.fromAxis l.track.direction axis

/-- A first lane and the lanes after it: those that stand in on the backward side, or from the fifth on. -/
def surplus (first : Lane) (rest : List Lane) : List Lane :=
  let sides := Sides.ofTracks ((first :: rest).map (·.track))
  if sides.backwardDesiresForward then rest.filter (sides.backward.contains ·.connection)
  else (first :: rest).drop Network.maxAligned

/-- The lanes that do not fit with the first one, for the first reason that applies to any. -/
def misfits : List Lane → List Lane
  | [] => []
  | first :: rest =>
    let foreign := foreign (first :: rest) first.subnetwork
    let offAxis := offAxis (first :: rest) first.track.direction
    if foreign ≠ [] then foreign else if offAxis ≠ [] then offAxis else surplus first rest

theorem misfits_sublist (lanes : List Lane) : (misfits lanes).Sublist lanes.tail := by
  cases lanes with
  | nil => exact List.Sublist.refl _
  | cons first rest =>
    have hForeign : foreign (first :: rest) first.subnetwork = rest.filter (·.subnetwork != first.subnetwork) := by
      simp [foreign]
    have hOffAxis : offAxis (first :: rest) first.track.direction = rest.filter fun l =>
        Network.axisTolerance < Angle.fromAxis l.track.direction first.track.direction := by
      simp [offAxis, Network.along_own_axis]
    rw [misfits, List.tail_cons]
    split
    · rw [hForeign]
      exact List.filter_sublist
    · split
      · rw [hOffAxis]
        exact List.filter_sublist
      · rw [surplus]
        split
        · exact List.filter_sublist
        · exact List.drop_sublist 3 rest

theorem length_misfits_lt {lanes : List Lane} (h : misfits lanes ≠ []) :
    (misfits lanes).length < lanes.length := by
  have hLength := (misfits_sublist lanes).length_le
  cases lanes with
  | nil => exact absurd rfl h
  | cons first rest => exact Nat.lt_succ_of_le hLength

/-- All other lanes, in their order. -/
def fitting (lanes : List Lane) : List Lane := lanes.filter (· ∉ misfits lanes)

theorem length_fitting_lt {lanes : List Lane} (h : misfits lanes ≠ []) :
    (fitting lanes).length < lanes.length := by
  obtain ⟨l, hl⟩ := List.exists_mem_of_ne_nil _ h
  have hMem := List.mem_of_mem_tail ((misfits_sublist lanes).subset hl)
  exact List.length_filter_lt_length_iff_exists.mpr ⟨l, hMem, by simpa using hl⟩

/-- The lanes that stay together: all of them, or the blocks of what fits and the blocks of what does not. -/
def blocks (lanes : List Lane) : List (List Lane) :=
  if misfits lanes = [] then [lanes]
  else blocks (fitting lanes) ++ blocks (misfits lanes)
termination_by lanes.length
decreasing_by
  · exact length_fitting_lt ‹_›
  · exact length_misfits_lt ‹_›

theorem blocks_of_fitting {lanes : List Lane} (h : misfits lanes = []) : blocks lanes = [lanes] := by
  rw [blocks, if_pos h]

theorem blocks_of_misfits {lanes : List Lane} (h : misfits lanes ≠ []) :
    blocks lanes = blocks (fitting lanes) ++ blocks (misfits lanes) := by
  rw [blocks, if_neg h]

end Lane

/-- A part of a list is told by its keys, where no key comes twice. -/
theorem filter_mem_map_eq {α β : Type} [DecidableEq β] {key : α → β} {xs us : List α} (h : xs.Sublist us)
    (hNodup : (us.map key).Nodup) : us.filter (fun u => key u ∈ xs.map key) = xs := by
  induction h with
  | slnil => rfl
  | @cons xs us u hSub ih =>
    rw [List.map_cons, List.nodup_cons] at hNodup
    have hNot : key u ∉ xs.map key := fun hMem => hNodup.1 ((hSub.map key).subset hMem)
    rw [List.filter_cons_of_neg (by simpa using hNot), ih hNodup.2]
  | @cons_cons xs us u hSub ih =>
    rw [List.map_cons, List.nodup_cons] at hNodup
    have hRest : us.filter (fun v => key v ∈ (u :: xs).map key) = us.filter (fun v => key v ∈ xs.map key) := by
      apply List.filter_congr
      intro v hv
      have hNe : key v ≠ key u := fun hSame => hNodup.1 (hSame ▸ List.mem_map_of_mem hv)
      simp [hNe]
    rw [List.filter_cons_of_pos (by simp), hRest, ih hNodup.2]

namespace Network

variable {net next out : Network} {n m sibling : NodeId} {i j : Junction} {ts : List Attachment}
  {log : List (NodeId × NodeId)}

/-- The lanes of some tracks. -/
def lanes (net : Network) (ts : List Attachment) : List Lane :=
  ts.filterMap fun t => (net.subnetwork? t.connection).map fun subnetwork => ⟨t, subnetwork⟩

theorem map_track_filter_lanes (net : Network) (p : Attachment → Subnetwork → Bool) (ts : List Attachment) :
    ((net.lanes ts).filter fun l => p l.track l.subnetwork).map (·.track) =
      ts.filter fun t => (net.subnetwork? t.connection).any (p t) := by
  induction ts with
  | nil => rfl
  | cons t rest ih =>
    rw [lanes] at ih ⊢
    cases hSub : net.subnetwork? t.connection with
    | none => simpa [hSub] using ih
    | some sub => by_cases hp : p t sub <;> simpa [hSub, hp] using ih

theorem lanes_filter (p : ConnectionId → Bool) (ts : List Attachment) :
    net.lanes (ts.filter (p ·.connection)) = (net.lanes ts).filter (p ·.connection) := by
  induction ts with
  | nil => rfl
  | cons t rest ih =>
    rw [lanes, lanes] at ih ⊢
    by_cases hp : p t.connection <;> cases hSub : net.subnetwork? t.connection <;>
      simpa [hSub, hp, Lane.connection] using ih

namespace WellFormed

variable (hNet : net.WellFormed) (hj : net.node? n = some j)
include hNet hj

theorem isSome_subnetwork? {t : Attachment} (ht : t ∈ j.tracks) : (net.subnetwork? t.connection).isSome = true := by
  obtain ⟨c, hc, -⟩ := hNet.exists_connection hj ht
  rw [subnetwork?, hc]
  rfl

theorem map_track_lanes (hSub : ts ⊆ j.tracks) : (net.lanes ts).map (·.track) = ts := by
  have hAll := net.map_track_filter_lanes (fun _ _ => true) ts
  rw [List.filter_eq_self.mpr fun _ _ => rfl] at hAll
  rw [hAll, List.filter_eq_self]
  intro t ht
  obtain ⟨s, hs⟩ := Option.isSome_iff_exists.mp (hNet.isSome_subnetwork? hj (hSub ht))
  rw [hs]
  rfl

theorem map_connection_lanes (hSub : ts ⊆ j.tracks) :
    (net.lanes ts).map Lane.connection = ts.map (·.connection) := by
  rw [← congrArg (List.map (·.connection)) (hNet.map_track_lanes hj hSub), List.map_map]
  rfl

theorem surplus_lanes {first : Lane} {rest : List Lane} (hLanes : net.lanes j.tracks = first :: rest) :
    (Lane.surplus first rest).map Lane.connection = Network.surplus j := by
  have hTracks := hNet.map_track_lanes hj (List.Subset.refl _)
  have hConnections := hNet.map_connection_lanes hj (List.Subset.refl _)
  have hNodup := hNet.connections_nodup hj
  obtain ⟨ts, hLater, hSurplus⟩ := hNet.surplus_eq hj
  rw [hLanes] at hTracks hConnections
  rw [Lane.surplus, hTracks, ← hNet.sides hj]
  rw [Network.surplus] at hSurplus ⊢
  split at hSurplus
  · next hDesires =>
    have hRest : rest.map Lane.connection = j.tracks.tail.map (·.connection) := by
      have hTail := congrArg List.tail hConnections
      rwa [List.map_cons, List.tail_cons, ← List.map_tail] at hTail
    have hTailNodup : (j.tracks.tail.map (·.connection)).Nodup :=
      ((List.tail_sublist j.tracks).map _).nodup hNodup
    have hBackward : (j.tracks.tail.filter fun t => j.sides.backward.contains t.connection) = ts := by
      rw [← filter_mem_map_eq hLater hTailNodup, ← hSurplus]
      simp
    have hFilter := congrArg (List.filter j.sides.backward.contains) hRest
    rw [List.filter_map, List.filter_map] at hFilter
    rw [if_pos hDesires, if_pos hDesires]
    exact hFilter.trans ((congrArg (List.map _) hBackward).trans hSurplus.symm)
  · next hDesires =>
    rw [if_neg hDesires, if_neg hDesires, List.map_drop, hConnections, Junction.connections]

/-- The misfits of a junction, as its lanes tell them. -/
theorem misfits_lanes : (Lane.misfits (net.lanes j.tracks)).map Lane.connection = net.misfits j := by
  have hKeep (p : Attachment → Subnetwork → Bool) :
      ((net.lanes j.tracks).filter fun l => p l.track l.subnetwork).map Lane.connection =
        (j.tracks.filter fun t => (net.subnetwork? t.connection).any (p t)).map (·.connection) := by
    rw [← map_track_filter_lanes, List.map_map]
    rfl
  have hForeign (s : Subnetwork) :
      (Lane.foreign (net.lanes j.tracks) s).map Lane.connection = net.foreign j s := by
    rw [Lane.foreign, hKeep fun _ other => other != s, foreign, Junction.connections, List.filter_map]
    rfl
  have hOffAxis (axis : Float) :
      (Lane.offAxis (net.lanes j.tracks) axis).map Lane.connection = Network.offAxis j axis := by
    rw [Lane.offAxis, hKeep fun t _ => axisTolerance < Angle.fromAxis t.direction axis, Network.offAxis]
    congr 1
    apply List.filter_congr
    intro t ht
    obtain ⟨s, hs⟩ := Option.isSome_iff_exists.mp (hNet.isSome_subnetwork? hj ht)
    rw [hs, Option.any_some]
  cases hTracks : j.tracks with
  | nil => simp [Network.misfits, Lane.misfits, lanes, hTracks]
  | cons first rest =>
    obtain ⟨s, hs⟩ := Option.isSome_iff_exists.mp
      (hNet.isSome_subnetwork? hj (hTracks ▸ List.mem_cons_self : first ∈ j.tracks))
    have hLanes : net.lanes (first :: rest) = ⟨first, s⟩ :: net.lanes rest := by simp [lanes, hs]
    have hSurplus := hNet.surplus_lanes hj (hTracks ▸ hLanes)
    rw [hTracks, hLanes] at hForeign hOffAxis
    rw [hLanes, Lane.misfits, Network.misfits, hTracks]
    simp only [List.head?_cons, hs, ← hForeign, ← hOffAxis, ← hSurplus, List.isEmpty_map]
    split
    · next hSome => simp [hSome]
    · next hNone =>
      rw [ne_eq, not_not] at hNone
      split
      · next hSome => simp [hNone, hSome]
      · next hAxis =>
        rw [ne_eq, not_not] at hAxis
        simp [hNone, hAxis]

end WellFormed

/-! ## One split -/

theorem eraseP_connection {tracks : List Attachment} (h : (tracks.map (·.connection)).Nodup)
    (c : ConnectionId) : tracks.eraseP (·.connection == c) = tracks.filter fun t => t.connection ≠ c := by
  induction tracks with
  | nil => rfl
  | cons t rest ih =>
    rw [List.map_cons, List.nodup_cons] at h
    by_cases hHere : t.connection = c
    · have hRest : rest.filter (fun t => t.connection ≠ c) = rest := by
        apply List.filter_eq_self.mpr
        intro u hu
        have hOther : u.connection ≠ c := fun hSame => h.1 (hHere ▸ hSame ▸ List.mem_map_of_mem hu)
        simpa using hOther
      rw [List.eraseP_cons_of_pos (by simpa using hHere), List.filter_cons_of_neg (by simpa using hHere), hRest]
    · rw [List.eraseP_cons_of_neg (by simpa using hHere), List.filter_cons_of_pos (by simpa using hHere), ih h.2]

theorem tracks_foldl_detach (h : j.connections.Nodup) (ts : List Attachment) :
    (ts.foldl (fun j t => j.detach t.connection) j).tracks =
      j.tracks.filter fun t => t.connection ∉ ts.map (·.connection) := by
  induction ts generalizing j with
  | nil => simp
  | cons t rest ih =>
    have hTracks : (j.detach t.connection).tracks = j.tracks.filter fun u => u.connection ≠ t.connection :=
      eraseP_connection h t.connection
    have hDetached : (j.detach t.connection).connections.Nodup := by
      rw [Junction.connections, hTracks]
      exact (List.filter_sublist.map _).nodup h
    rw [List.foldl_cons, ih hDetached, hTracks, List.filter_filter]
    apply List.filter_congr
    intro u _
    simp [Bool.and_comm]

/-- A split leaves a node the lanes that fit, and moves the misfits to its sibling. -/
theorem Split.lanes (hNet : net.WellFormed) (h : Split net n j ts sibling next)
    (hMisfits : net.misfits j = ts.map (·.connection)) :
    Lane.misfits (net.lanes j.tracks) = net.lanes ts ∧
      Lane.fitting (net.lanes j.tracks) = net.lanes (ts.foldl (fun j t => j.detach t.connection) j).tracks := by
  have hj := h.node
  have hAll : ts.Sublist j.tracks := h.later.trans (List.tail_sublist _)
  have hNodup : ((net.lanes j.tracks).map Lane.connection).Nodup := by
    rw [hNet.map_connection_lanes hj (List.Subset.refl _)]
    exact hNet.connections_nodup hj
  have hKeys : (Lane.misfits (net.lanes j.tracks)).map Lane.connection = ts.map (·.connection) := by
    rw [hNet.misfits_lanes hj, hMisfits]
  have hMoved := filter_mem_map_eq ((Lane.misfits_sublist _).trans (List.tail_sublist _)) hNodup
  have hSub : (net.lanes ts).Sublist (net.lanes j.tracks) := hAll.filterMap _
  constructor
  · rw [← hMoved, hKeys, ← hNet.map_connection_lanes hj hAll.subset]
    exact filter_mem_map_eq hSub hNodup
  · rw [tracks_foldl_detach (hNet.connections_nodup hj), lanes_filter (· ∉ ts.map (·.connection)), ← hKeys,
      Lane.fitting]
    apply List.filter_congr
    intro l hl
    have hMem : l ∈ Lane.misfits (net.lanes j.tracks) ↔
        l.connection ∈ (Lane.misfits (net.lanes j.tracks)).map Lane.connection := by
      constructor
      · exact List.mem_map_of_mem
      · intro hKey
        rw [← hMoved]
        exact List.mem_filter.mpr ⟨hl, decide_eq_true hKey⟩
    simp only [hMem]

theorem Split.lanes_eq (h : Split net n j ts sibling next) : next.lanes = net.lanes := by
  funext us
  simp only [Network.lanes, h.subnetwork?]

/-! ## All splits -/

/-- A node stands at a place and has the tracks of a block, in their order. -/
def Holds (net : Network) (position : Position) (n : NodeId) (block : List Lane) : Prop :=
  ∃ j, net.node? n = some j ∧ j.position = position ∧ j.tracks = block.map (·.track)

/-- What has become of the node `n`, which was `j`: it and its siblings hold the blocks of its lanes. -/
structure Family (net out : Network) (log : List (NodeId × NodeId)) (n : NodeId) (j : Junction)
    (siblings : List NodeId) : Prop where
  nodup : (n :: siblings).Nodup
  mem_iff : ∀ {m}, m ∈ n :: siblings ↔ (out.node? m).isSome = true ∧ origin log m = n
  fresh : ∀ {m}, m ∈ siblings → ¬net.nodes.HasIssued m
  blocks : List.Forall₂ (out.Holds j.position) (n :: siblings) (Lane.blocks (net.lanes j.tracks))
  first : (out.node? n).bind (·.tracks.head?) = j.tracks.head?

theorem Family.of_fitting (hNet : net.WellFormed) (hj : net.node? n = some j) (hFits : net.misfits j = []) :
    Family net net [] n j [] where
  nodup := List.nodup_singleton n
  mem_iff {m} := by
    rw [List.mem_singleton, origin]
    constructor
    · rintro rfl
      exact ⟨present_iff.mpr ⟨j, hj⟩, rfl⟩
    · exact And.right
  fresh hm := nomatch hm
  blocks := by
    have hNone : Lane.misfits (net.lanes j.tracks) = [] := by
      rw [← List.map_eq_nil_iff (f := Lane.connection), hNet.misfits_lanes hj, hFits]
    rw [Lane.blocks_of_fitting hNone]
    exact .cons ⟨j, hj, rfl, (hNet.map_track_lanes hj (List.Subset.refl _)).symm⟩ .nil
  first := by rw [hj, Option.bind_some]

/-- A split of another node makes no difference. -/
theorem Family.step_other {a : NodeId} {b i : Junction} {siblings : List NodeId}
    (hSplit : Split net a b ts sibling next) (hNe : n ≠ a) (hj : net.node? n = some j)
    (hPosition : i.position = j.position) (hTracks : i.tracks = j.tracks)
    (h : Family next out log n i siblings) : Family net out ((a, sibling) :: log) n j siblings where
  nodup := h.nodup
  mem_iff {m} := by
    have hSibling : n ≠ sibling := hSplit.ne_of_present hj
    rw [h.mem_iff, origin]
    grind
  fresh hm hIssued := h.fresh hm (hSplit.follows.nodes hIssued)
  blocks := by
    rw [← hPosition, ← hTracks, ← hSplit.lanes_eq]
    exact h.blocks
  first := by rw [h.first, hTracks]

/-- A split node and its sibling have between them what the node had. -/
theorem Family.step (hNet : net.WellFormed) {stays moved : Junction} {siblings others : List NodeId}
    (hSplit : Split net n j ts sibling next) (hExtract : net.extract n = .ok (some (sibling, next)))
    (hMisfits : net.misfits j = ts.map (·.connection))
    (hStays : stays.position = j.position ∧ stays.tracks = (ts.foldl (fun j t => j.detach t.connection) j).tracks)
    (hMoved : moved.position = j.position ∧ moved.tracks = ts)
    (h : Family next out log n stays siblings) (hOthers : Family next out log sibling moved others) :
    Family net out ((n, sibling) :: log) n j (siblings ++ sibling :: others) where
  nodup := by
    rw [← List.cons_append, List.nodup_append]
    refine ⟨h.nodup, hOthers.nodup, ?_⟩
    rintro x hx y hy rfl
    have hOrigin := (h.mem_iff.mp hx).2.symm.trans (hOthers.mem_iff.mp hy).2
    exact hSplit.ne_of_present hSplit.node hOrigin
  mem_iff {m} := by
    rw [← List.cons_append, List.mem_append, h.mem_iff, hOthers.mem_iff, origin]
    grind
  fresh {m} hm hIssued := by
    rcases List.mem_append.mp hm with hm | hm
    · exact h.fresh hm (hSplit.follows.nodes hIssued)
    · rcases List.mem_cons.mp hm with rfl | hm
      · exact (hNet.issuesNew.extract hExtract).1 hIssued
      · exact hOthers.fresh hm (hSplit.follows.nodes hIssued)
  blocks := by
    obtain ⟨hOut, hIn⟩ := hSplit.lanes hNet hMisfits
    have hSome : Lane.misfits (net.lanes j.tracks) ≠ [] := by
      intro hNone
      have hKeys := hNet.misfits_lanes hSplit.node
      rw [hNone, hMisfits] at hKeys
      exact hSplit.moved_ne_nil (List.map_eq_nil_iff.mp hKeys.symm)
    have hFirst := h.blocks
    have hSecond := hOthers.blocks
    rw [hStays.1, hStays.2, hSplit.lanes_eq, ← hIn] at hFirst
    rw [hMoved.1, hMoved.2, hSplit.lanes_eq, ← hOut] at hSecond
    rw [Lane.blocks_of_misfits hSome, ← List.cons_append]
    exact List.rel_append hFirst hSecond
  first := by
    have hNodup := hNet.connections_nodup hSplit.node
    rw [h.first, hStays.2, tracks_foldl_detach hNodup]
    rw [Junction.connections] at hNodup
    have hLater := hSplit.later
    cases hTracks : j.tracks with
    | nil => rfl
    | cons t rest =>
      rw [hTracks, List.map_cons, List.nodup_cons] at hNodup
      rw [hTracks, List.tail_cons] at hLater
      have hKeep : t.connection ∉ ts.map (·.connection) := fun hMem => hNodup.1 ((hLater.map _).subset hMem)
      rw [List.filter_cons_of_pos (by simpa using hKeep)]
      rfl

/-- Whatever order the nodes are split in, until all fit, each one comes apart into its blocks. -/
theorem Splits.exists_family (h : Splits net log out) (hNet : net.WellFormed) (hOut : ∀ n, out.extract n = .ok none)
    (hj : net.node? n = some j) : ∃ siblings, Family net out log n j siblings := by
  induction h generalizing n j with
  | done => exact ⟨[], .of_fitting hNet hj (extract_eq_none_iff.mp (hOut n) j hj)⟩
  | @step net next out a sibling log hExtract _ ih =>
    obtain ⟨hNext, b, ts, hSplit, hMisfits⟩ := extract_eq_split hNet hExtract
    obtain ⟨i, hi⟩ := hSplit.present hj
    obtain ⟨c, hc, hPosition⟩ := hSplit.position hi
    rw [if_neg (hSplit.ne_of_present hj), hj, Option.some.injEq] at hc
    subst hc
    obtain ⟨siblings, hFamily⟩ := ih hNext hOut hi
    rcases hSplit.tracks_of_node? hi with ⟨hSame, -⟩ | ⟨rfl, hStays⟩ | ⟨-, hNe, d, hd, hTracks, -⟩
    · exact absurd hSame (hSplit.ne_of_present hj)
    · obtain rfl : b = j := Option.some.inj (hSplit.node.symm.trans hj)
      obtain ⟨k, hk⟩ := hSplit.present_sibling
      obtain ⟨c, hc, hPlace⟩ := hSplit.position hk
      rw [if_pos rfl, hj, Option.some.injEq] at hc
      subst hc
      have hMoved : k.tracks = ts := by
        rcases hSplit.tracks_of_node? hk with ⟨-, hMoved⟩ | ⟨hSame, -⟩ | ⟨hNe, -⟩
        · exact hMoved
        · exact absurd hSame.symm (hSplit.ne_of_present hj)
        · exact absurd rfl hNe
      obtain ⟨others, hOthers⟩ := ih hNext hOut hk
      exact ⟨_, hFamily.step hNet hSplit hExtract hMisfits ⟨hPosition, hStays⟩ ⟨hPlace, hMoved⟩ hOthers⟩
    · obtain rfl : d = j := Option.some.inj (hd.symm.trans hj)
      exact ⟨siblings, hFamily.step_other hSplit hNe hj hPosition hTracks⟩

theorem Family.of_prune {siblings : List NodeId} (h : Family net.prune out log n j siblings) :
    Family net out log n j siblings where
  nodup := h.nodup
  mem_iff := h.mem_iff
  fresh hm hIssued := h.fresh hm ((follows_prune net).nodes hIssued)
  blocks := h.blocks
  first := h.first

/-- A cleanup splits nodes until all fit. Whatever order they are split in, each node with tracks comes
apart into the blocks of its own lanes, and keeps the first one. -/
theorem family_run (ops : List Operation) :
    (match (run ops).cleanup with
      | .error e => e = .idsExhausted
      | .ok (report, clean) => (∃ log, Splits (run ops).prune log clean ∧ log.length = report.split) ∧
        ∀ n, clean.extract n = .ok none) ∧
    ∀ log out, Splits (run ops).prune log out → (∀ n, out.extract n = .ok none) →
      ∀ n j, (run ops).node? n = some j → j.tracks ≠ [] → ∃ siblings, Family (run ops) out log n j siblings := by
  have hNet := wellFormed_run ops
  constructor
  · have hCleanup := hNet.cleanup_outcome
    cases hOut : (run ops).cleanup with
    | error e =>
      rw [hOut] at hCleanup
      exact hCleanup.1
    | ok out =>
      rw [hOut] at hCleanup
      exact ⟨(hNet.repairs_of_cleanup hOut).exists_splits, hCleanup.extract⟩
  · intro log out hSplits hOut n j hj hTracks
    have hKept : (run ops).prune.node? n = some j := by
      rw [node?_prune, hj, Option.filter_some, if_pos (by simpa using hTracks)]
    obtain ⟨siblings, hFamily⟩ := hSplits.exists_family hNet.prune hOut hKept
    exact ⟨siblings, hFamily.of_prune⟩

theorem family_run_bend : ∃ report clean log siblings j, (run bend).cleanup = .ok (report, clean) ∧
    (run bend).node? ⟨0⟩ = some j ∧ j.tracks.length = 2 ∧ Splits (run bend).prune log clean ∧
    Family (run bend) clean log ⟨0⟩ j siblings := by
  obtain ⟨hClean, hFamily⟩ := family_run bend
  have hDone : (run bend).cleanup.toOption.isSome = true := by decide +kernel
  have hTracks : ((run bend).node? ⟨0⟩).map (·.tracks.length) = some 2 := by decide +kernel
  obtain ⟨j, hj, hTwo⟩ := Option.map_eq_some_iff.mp hTracks
  cases hOut : (run bend).cleanup with
  | error e =>
    rw [hOut] at hDone
    cases hDone
  | ok out =>
    rw [hOut] at hClean
    obtain ⟨⟨log, hSplits, -⟩, hFits⟩ := hClean
    have hSome : j.tracks ≠ [] := by
      rw [← List.length_pos_iff, hTwo]
      decide
    obtain ⟨siblings, hBlocks⟩ := hFamily log out.2 hSplits hFits ⟨0⟩ j hj hSome
    exact ⟨out.1, out.2, log, siblings, j, rfl, hj, hTwo, hSplits, hBlocks⟩

end Network

end TrackLayout
