import TrackLayout.Proofs.Binary64.Hypotenuse
import TrackLayout.Proofs.Heights.Derived
import TrackLayout.Proofs.Network.Reachable

/-!
# Tracks drawn straight

All decisions are made before the first flag is written, so they do not depend
on flags, and flags that are written one after the other are as if written at
once. A connection that continues into another one at both ends is straight
only if it is much longer than either. Of two straight connections that
continue into each other and nothing else, one therefore ends or branches at
its far end, whatever is rounded in their lengths.
-/
set_option autoImplicit false

namespace TrackLayout

open Binary64

def Connection.flagged (straight : Bool) (c : Connection) : Connection := { c with straight }

namespace Network

variable {net next : Network} {n : NodeId} {a b : ConnectionId} {c d : Connection}

/-! ## Flags written one after the other -/

/-- What the flags of some connections come to, each of which is counted if it is there. -/
structure Writes (flag : ConnectionId → Bool) (ids : List ConnectionId) (f g : Flagging) : Prop where
  nodes : g.network.nodes = f.network.nodes
  index : g.network.index = f.network.index
  slots : g.network.connections.slots.size = f.network.connections.slots.size
  connection? : ∀ id, g.network.connection? id =
    if id ∈ ids then (f.network.connection? id).map (·.flagged (flag id)) else f.network.connection? id
  straight : g.straight = f.straight + ids.countP fun id => (f.network.connection? id).isSome && flag id

section Writing

variable {flag : ConnectionId → Bool} {f : Flagging} {id : ConnectionId}

theorem write_eq (f : Flagging) (id : ConnectionId) (straight : Bool) : f.write (id, straight) =
    { network := f.network.modifyConnection id (·.flagged straight)
      straight := f.straight + ((f.network.connection? id).isSome && straight).toNat } := by
  have hContains : f.network.connections.contains id = (f.network.connection? id).isSome := rfl
  rw [Flagging.write]
  dsimp only
  rw [hContains]
  cases hId : f.network.connection? id with
  | none =>
    rw [if_neg (by simp), modifyConnection, Table.modify_of_absent hId]
    rfl
  | some c =>
    rw [if_pos Option.isSome_some, Option.isSome_some, Bool.true_and]
    rfl

theorem connection?_modifyConnection (net : Network) (target : ConnectionId) (change : Connection → Connection) :
    (net.modifyConnection target change).connection? id =
      if id = target then (net.connection? id).map change else net.connection? id := Table.get?_modify ..

theorem Writes.nil (f : Flagging) : Writes flag [] f f where
  nodes := rfl
  index := rfl
  slots := rfl
  connection? _ := by rw [if_neg List.not_mem_nil]
  straight := rfl

theorem writes_foldl (flag : ConnectionId → Bool) (ids : List ConnectionId) (f : Flagging) :
    Writes flag ids f ((ids.map fun id => (id, flag id)).foldl Flagging.write f) := by
  induction ids generalizing f with
  | nil => exact .nil f
  | cons first rest ih =>
    have h := ih (f.write (first, flag first))
    rw [write_eq] at h
    rw [List.map_cons, List.foldl_cons, write_eq]
    refine ⟨h.nodes, h.index, h.slots.trans (Table.slots_size_modify ..), fun id => ?_, ?_⟩
    · rw [h.connection?, connection?_modifyConnection]
      by_cases hFirst : id = first
      · -- a flag that is written again is the same flag
        subst hFirst
        rw [if_pos rfl, if_pos List.mem_cons_self, Option.map_map]
        split <;> rfl
      · rw [if_neg hFirst]
        simp only [List.mem_cons, hFirst, false_or]
    · have hPresent (id : ConnectionId) :
          ((f.network.modifyConnection first (·.flagged (flag first))).connection? id).isSome =
            (f.network.connection? id).isSome := by
        rw [connection?_modifyConnection]
        split
        · exact Option.isSome_map
        · rfl
      rw [h.straight, List.countP_cons]
      simp only [hPresent]
      cases (f.network.connection? first).isSome && flag first with
      | false => rfl
      | true =>
        simp
        omega

end Writing

theorem connection?_markStraight (net : Network) (id : ConnectionId) :
    net.markStraight.connection? id = (net.connection? id).map fun c => c.flagged (net.isStraight c) :=
  Table.get?_map ..

theorem WellFormed.markByEdits_eq (hNet : net.WellFormed) :
    net.markByEdits = ⟨net.markStraight, net.markStraight.straightCount⟩ := by
  let flag (id : ConnectionId) : Bool := (net.connection? id).any net.isStraight
  have hDecisions : (net.connections.values.map fun c => (c.id, net.isStraight c)) =
      net.connections.ids.map fun id => (id, flag id) := by
    rw [← Table.map_snd_toList, Table.ids, List.map_map, List.map_map]
    apply List.map_congr_left
    rintro ⟨id, c⟩ hc
    have hId : net.connection? id = some c := Table.mem_toList.mp hc
    simp [flag, hNet.connection_id hId, hId]
  have h := writes_foldl flag net.connections.ids { network := net }
  rw [← hDecisions] at h
  change Writes flag _ _ net.markByEdits at h
  generalize net.markByEdits = f at h
  obtain ⟨⟨nodes, connections, index⟩, straight⟩ := f
  have hConnections : connections = net.markStraight.connections := by
    refine Table.ext_get? (h.slots.trans (Table.slots_size_map ..).symm) fun id => ?_
    have hId := h.connection? id
    change connections.get? id = _ at hId
    rw [hId]
    change _ = net.markStraight.connection? id
    rw [connection?_markStraight]
    cases hc : net.connection? id with
    | none => split <;> rfl
    | some c =>
      rw [if_pos (Table.mem_ids.mpr ⟨c, hc⟩)]
      simp [flag, hc]
  have hStraight : straight = net.markStraight.straightCount := by
    rw [show straight = _ from h.straight, straightCount, markStraight, Table.values_map, List.countP_map,
      ← Table.map_snd_toList, List.countP_map, Table.ids, List.countP_map, Nat.zero_add]
    apply List.countP_congr
    rintro ⟨id, c⟩ hc
    have hId : net.connection? id = some c := Table.mem_toList.mp hc
    simp [flag, hId]
  have hNodes : nodes = net.nodes := h.nodes
  have hIndex : index = net.index := h.index
  subst hConnections hStraight hNodes hIndex
  rfl

/-! ## Flags that were there before -/

def unflagged (net : Network) : Network := { net with connections := net.connections.map (·.flagged false) }

theorem continuation?_unflagged (net : Network) (n : NodeId) (id : ConnectionId) :
    net.unflagged.continuation? n id = net.continuation? n id := by
  have hLength (single : ConnectionId) : (do return (← net.unflagged.connection? single).length : Option Float) =
      do return (← net.connection? single).length := by
    rw [show net.unflagged.connection? single = _ from Table.get?_map ..]
    change ((net.connection? single).map _).bind _ = (net.connection? single).bind _
    cases net.connection? single <;> rfl
  rw [continuation?, continuation?]
  simp only [hLength]
  rfl

theorem markStraight_unflagged (net : Network) : net.unflagged.markStraight = net.markStraight := by
  have hStraight (c : Connection) : net.unflagged.isStraight (c.flagged false) = net.isStraight c := by
    rw [isStraight, isStraight, continuation?_unflagged, continuation?_unflagged]
    rfl
  have hConnections : net.unflagged.markStraight.connections = net.markStraight.connections := by
    change (net.connections.map (·.flagged false)).map (fun c => c.flagged (net.unflagged.isStraight c)) = _
    rw [Table.map_comp]
    refine congrArg net.connections.map (funext fun c => ?_)
    rw [Function.comp_apply, hStraight]
    rfl
  exact congrArg (fun cs => ({ net with connections := cs } : Network)) hConnections

theorem unflagged_markStraight (net : Network) : net.markStraight.unflagged = net.unflagged := by
  have hConnections : net.markStraight.connections.map (·.flagged false) = net.connections.map (·.flagged false) :=
    Table.map_map (f := fun c : Connection => c.flagged (net.isStraight c)) (fun _ => rfl) net.connections
  exact congrArg (fun cs => ({ net with connections := cs } : Network)) hConnections

theorem bare_unflagged (net : Network) : net.unflagged.bare = net.bare := by
  have hConnections : (net.connections.map (·.flagged false)).map Connection.bare =
      net.connections.map Connection.bare := Table.map_map (f := Connection.flagged false) (fun _ => rfl) net.connections
  exact congrArg (fun cs => ({ net.bare with connections := cs } : Network)) hConnections

theorem WellFormed.markByEdits_congr (hNet : net.WellFormed) (h : next.unflagged = net.unflagged) :
    next.markByEdits = net.markByEdits := by
  have hBare : net.bare = next.bare := by rw [← bare_unflagged, ← h, bare_unflagged]
  have hMarked : next.markStraight = net.markStraight := by
    rw [← markStraight_unflagged, h, markStraight_unflagged]
  rw [(hNet.of_bare hBare).markByEdits_eq, hNet.markByEdits_eq, hMarked]

/-! ## Connections that continue into each other -/

/-- A connection continues into another one at a node, and into no third. -/
def ContinuesAs (net : Network) (n : NodeId) (a b : ConnectionId) : Prop :=
  (net.node? n).bind (·.continuations? a) = some [b]

/-- The far end of a connection, seen from a node, does not continue into exactly one other. -/
def EndsBeyond (net : Network) (n : NodeId) (c : Connection) : Prop :=
  ∃ far, c.farEnd? n = some far ∧ ∀ b, ¬net.ContinuesAs far c.id b

theorem mem_sides_of_continuations? {j : Junction} (h : j.continuations? a = some [b]) :
    (a ∈ j.sides.forward ∨ a ∈ j.sides.backward) ∧ (b ∈ j.sides.forward ∨ b ∈ j.sides.backward) := by
  rw [Junction.continuations?] at h
  split at h
  · next hForward =>
    refine ⟨.inl (List.contains_iff_mem.mp hForward), .inr ?_⟩
    rw [Option.some.inj h]
    exact List.mem_singleton_self b
  · split at h
    · next hBackward =>
      refine ⟨.inr (List.contains_iff_mem.mp hBackward), .inl ?_⟩
      rw [Option.some.inj h]
      exact List.mem_singleton_self b
    · cases h

theorem ContinuesAs.unique {other : ConnectionId} (h : net.ContinuesAs n a b) (hOther : net.ContinuesAs n a other) :
    other = b := by
  simpa using Option.some.inj (hOther.symm.trans h)

theorem continuation?_eq_length (h : net.ContinuesAs n a b) (hb : net.connection? b = some d) :
    net.continuation? n a = some d.length := by
  obtain ⟨j, hj, hIds⟩ := Option.bind_eq_some_iff.mp h
  simp [continuation?, hj, hIds, hb]

theorem continuation?_eq_none (h : ∀ b, ¬net.ContinuesAs n a b) : net.continuation? n a = none := by
  rw [continuation?]
  cases hj : net.node? n with
  | none => rfl
  | some j =>
    dsimp only [bind, Option.bind]
    match hIds : j.continuations? a with
    | none => rfl
    | some [] => rfl
    | some [single] =>
      refine absurd ?_ (h single)
      rw [ContinuesAs, hj]
      exact hIds
    | some (_ :: _ :: _) => rfl

theorem isStraight_of_end {here : ConnectionEnd} (h : ∀ b, ¬net.ContinuesAs (c.node here) c.id b) :
    net.isStraight c = true := by
  cases here with
  | start => rw [isStraight, continuation?_eq_none (n := c.start) h]
  | stop =>
    rw [isStraight, continuation?_eq_none (n := c.stop) h]
    split
    · next hSome => cases hSome
    · rfl

namespace WellFormed

variable (hNet : net.WellFormed)
include hNet

theorem touches_of_continuesAs (h : net.ContinuesAs n a b) :
    (net.connection? a).any (·.touches n) = true ∧ (net.connection? b).any (·.touches n) = true := by
  obtain ⟨j, hj, hIds⟩ := Option.bind_eq_some_iff.mp h
  obtain ⟨ha, hb⟩ := mem_sides_of_continuations? hIds
  exact ⟨(hNet.mem_connections hj a).mp (hNet.mem_sides hj ha), (hNet.mem_connections hj b).mp (hNet.mem_sides hj hb)⟩

theorem exists_continuation (h : net.ContinuesAs n a b) : ∃ d, net.connection? b = some d := by
  obtain ⟨d, hd, -⟩ := (Option.any_eq_true _ _).mp (hNet.touches_of_continuesAs h).2
  exact ⟨d, hd⟩

/-- A connection is straight if an end of it does not continue into exactly one other, and else if it is
much longer than both continuations. -/
theorem isStraight_iff (c : Connection) : net.isStraight c = true ↔
    (∃ here, ∀ b, ¬net.ContinuesAs (c.node here) c.id b) ∨
      ∀ here b d, net.ContinuesAs (c.node here) c.id b → net.connection? b = some d →
        d.length < c.length / longFactor := by
  by_cases hEnds : ∃ here, ∀ b, ¬net.ContinuesAs (c.node here) c.id b
  · obtain ⟨here, hNone⟩ := hEnds
    exact ⟨fun _ => .inl ⟨here, hNone⟩, fun _ => isStraight_of_end hNone⟩
  · have hBoth (here : ConnectionEnd) : ∃ b, net.ContinuesAs (c.node here) c.id b :=
      not_forall_not.mp fun hNone => hEnds ⟨here, hNone⟩
    obtain ⟨a, ha⟩ : ∃ a, net.ContinuesAs c.start c.id a := hBoth .start
    obtain ⟨b, hb⟩ : ∃ b, net.ContinuesAs c.stop c.id b := hBoth .stop
    obtain ⟨before, hBefore⟩ := hNet.exists_continuation ha
    obtain ⟨behind, hBehind⟩ := hNet.exists_continuation hb
    rw [or_iff_right hEnds, isStraight, continuation?_eq_length ha hBefore, continuation?_eq_length hb hBehind]
    simp only [Bool.and_eq_true, decide_eq_true_eq]
    constructor
    · rintro ⟨hShortBefore, hShortBehind⟩ (_ | _) other d hOther hd
      · obtain rfl := ha.unique hOther
        cases hBefore.symm.trans hd
        exact hShortBefore
      · obtain rfl := hb.unique hOther
        cases hBehind.symm.trans hd
        exact hShortBehind
    · intro hShort
      exact ⟨hShort .start a before ha hBefore, hShort .stop b behind hb hBehind⟩

theorem length_lt (ha : net.connection? a = some c) (hb : net.connection? b = some d)
    (h : net.ContinuesAs n a b) (hStraight : net.isStraight c = true) (hEnds : ¬net.EndsBeyond n c) :
    d.length < c.length / longFactor := by
  have hId : c.id = a := hNet.connection_id ha
  obtain ⟨c', hc', hTouches⟩ := (Option.any_eq_true _ _).mp (hNet.touches_of_continuesAs h).1
  cases ha.symm.trans hc'
  obtain ⟨near, rfl⟩ := Connection.touches_iff.mp hTouches
  have hFar : c.farEnd? (c.node near) = some (c.node near.other) := by
    rw [Connection.farEnd?_eq, Connection.endOf?_node (hNet.ends_ne ha)]
    rfl
  have hBeyond : ∃ b, net.ContinuesAs (c.node near.other) c.id b :=
    not_forall_not.mp fun hNone => hEnds ⟨_, hFar, hNone⟩
  rcases (hNet.isStraight_iff c).mp hStraight with ⟨here, hNone⟩ | hShort
  · -- both ends continue
    have hHere : here = near ∨ here = near.other := by cases here <;> cases near <;> simp [ConnectionEnd.other]
    rcases hHere with rfl | rfl
    · exact absurd (hId ▸ h) (hNone b)
    · obtain ⟨b, hb⟩ := hBeyond
      exact absurd hb (hNone b)
  · exact hShort near b d (hId ▸ h) hb

end WellFormed

theorem not_length_lt_length (c d : Connection) :
    ¬(d.length < c.length / longFactor ∧ c.length < d.length / longFactor) := by
  rintro ⟨hLess, hGreater⟩
  have hFactor : Denotes longFactor (2.5 : ℝ) := by
    have h := denotes_rational (show rational? longFactor = some (5 / 2) by decide +kernel)
    norm_num at h ⊢
    exact h
  have hShrinks (x : Float) (hx : Amount x) : x / longFactor ≤ x := hx.div_le hFactor (by norm_num)
  have hc : c.length.isNaN = false := (Binary64.lt_iff.mp hGreater).1.1
  have hd : d.length.isNaN = false := (Binary64.lt_iff.mp hLess).1.1
  have hAbove := Binary64.lt_of_lt_of_le hLess (hShrinks c.length (amount_hypot hc))
  have hBelow := Binary64.lt_of_lt_of_le hGreater (hShrinks d.length (amount_hypot hd))
  exact lt_asymm (Binary64.lt_iff.mp hAbove).2 (Binary64.lt_iff.mp hBelow).2

/-! ## What flagging comes to -/

/-- The flags of a network are those the rule gives, whatever they were before. -/
structure Flagging.Settled (f : Flagging) : Prop where
  count : f.straight = f.network.straightCount
  again : f.network.markByEdits = f
  straight_iff : ∀ {id c}, f.network.connection? id = some c → (c.straight = true ↔
    (∃ here, ∀ b, ¬f.network.ContinuesAs (c.node here) id b) ∨
      ∀ here b d, f.network.ContinuesAs (c.node here) id b → f.network.connection? b = some d →
        d.length < c.length / longFactor)
  /-- Of two straight connections that continue into each other, one ends or branches beyond. -/
  bends : ∀ {n a b c d}, f.network.ContinuesAs n a b → f.network.ContinuesAs n b a →
    f.network.connection? a = some c → f.network.connection? b = some d →
    c.straight = true → d.straight = true → f.network.EndsBeyond n c ∨ f.network.EndsBeyond n d

theorem WellFormed.settled (hNet : net.WellFormed) : net.markByEdits.Settled := by
  rw [hNet.markByEdits_eq]
  have hMarked : net.markStraight.WellFormed := by
    refine hNet.of_bare ?_
    rw [← bare_unflagged net, ← unflagged_markStraight, bare_unflagged]
  have hAgain : net.markStraight.markStraight = net.markStraight := by
    rw [← markStraight_unflagged net.markStraight, unflagged_markStraight, markStraight_unflagged]
  have hStraight {id : ConnectionId} {c : Connection} (hc : net.markStraight.connection? id = some c) :
      c.straight = net.markStraight.isStraight c := by
    rw [← hAgain, connection?_markStraight] at hc
    obtain ⟨c', hc', rfl⟩ := Option.map_eq_some_iff.mp hc
    rfl
  refine ⟨rfl, ?_, fun {id c} hc => ?_, fun {n a b c d} hab hba ha hb hc hd => ?_⟩
  · rw [hMarked.markByEdits_eq, hAgain]
  · rw [hStraight hc, ← hMarked.connection_id hc]
    exact hMarked.isStraight_iff c
  · rw [hStraight ha] at hc
    rw [hStraight hb] at hd
    by_contra! hNot
    exact not_length_lt_length c d
      ⟨hMarked.length_lt ha hb hab hc hNot.1, hMarked.length_lt hb ha hba hd hNot.2⟩

/-- After any run the flags that are set are settled, and depend on nothing but what is flagged. -/
theorem settled_run (ops : List Operation) : (run ops).markByEdits.Settled ∧
    (run ops).markByEdits.network = run (ops ++ [.markStraight]) ∧
    (run ops).markByEdits.network.unflagged = (run ops).unflagged ∧
    ∀ next : Network, next.unflagged = (run ops).unflagged → next.markByEdits = (run ops).markByEdits := by
  have hNet := wellFormed_run ops
  refine ⟨hNet.settled, ?_, ?_, fun next => hNet.markByEdits_congr⟩
  · rw [hNet.markByEdits_eq, run, run, List.foldl_append]
    rfl
  · rw [hNet.markByEdits_eq, unflagged_markStraight]

/-- A long track between short ones. The last but one is flagged before the last one is built. -/
def train : List Operation :=
  [.addNode { point := ⟨0.0, 0.0⟩ }, .addNode { point := ⟨10.0, 0.0⟩ }, .addNode { point := ⟨110.0, 0.0⟩ },
    .addNode { point := ⟨120.0, 0.0⟩ }, .addNode { point := ⟨130.0, 0.0⟩ }, .connect ⟨0⟩ ⟨1⟩ {},
    .connect ⟨1⟩ ⟨2⟩ {}, .connect ⟨2⟩ ⟨3⟩ {}, .markStraight, .connect ⟨3⟩ ⟨4⟩ {}]

theorem settled_train :
    (run train).connections.values.map (·.straight) = [true, true, true, false] ∧
    (run train).markByEdits.network.connections.values.map (·.straight) = [true, true, false, true] ∧
    (run train).markByEdits.straight = 3 ∧
    (run train).markByEdits.network.markByEdits = (run train).markByEdits ∧
    ∃ c d, (run train).markByEdits.network.connection? ⟨0⟩ = some c ∧ c.straight = true ∧
      (run train).markByEdits.network.connection? ⟨1⟩ = some d ∧ d.straight = true ∧
      ((run train).markByEdits.network.EndsBeyond ⟨1⟩ c ∨ (run train).markByEdits.network.EndsBeyond ⟨1⟩ d) := by
  obtain ⟨hSettled, -, hBefore, hAlike⟩ := settled_run train
  have hForth : (run train).markByEdits.network.ContinuesAs ⟨1⟩ ⟨0⟩ ⟨1⟩ := by
    rw [ContinuesAs]
    decide +kernel
  have hBack : (run train).markByEdits.network.ContinuesAs ⟨1⟩ ⟨1⟩ ⟨0⟩ := by
    rw [ContinuesAs]
    decide +kernel
  have hFlag (id : ConnectionId) (h : ((run train).markByEdits.network.connection? id).any (·.straight) = true) :
      ∃ c, (run train).markByEdits.network.connection? id = some c ∧ c.straight = true :=
    (Option.any_eq_true _ _).mp h
  obtain ⟨c, hc, hcStraight⟩ := hFlag ⟨0⟩ (by decide +kernel)
  obtain ⟨d, hd, hdStraight⟩ := hFlag ⟨1⟩ (by decide +kernel)
  refine ⟨by decide +kernel, by decide +kernel, by decide +kernel, hAlike _ hBefore, c, d, hc, hcStraight,
    hd, hdStraight, ?_⟩
  exact hSettled.bends hForth hBack hc hd hcStraight hdStraight

end Network

end TrackLayout
