import TrackLayout.Proofs.Import
import TrackLayout.Proofs.Network.Links
import TrackLayout.Proofs.Network.Splits

/-!
# Links form cliques

Among the nodes that are present, the nodes that are linked to one node are
linked to each other. Linking two nodes joins two such groups to one. All else
that is done to a network leaves the links of the nodes that stay as they are,
and a new node has none.
-/
set_option autoImplicit false

namespace TrackLayout

/-- A junction with nothing but its links. -/
def Junction.ties (j : Junction) : Junction :=
  { id := j.id, position := default, rules := j.rules.filter (·.isLink) }

theorem Junction.linked_ties (j : Junction) : j.ties.linked = j.linked := by
  rw [linked, linked, ties, List.filterMap_filter]
  congr
  funext r
  cases r <;> rfl

theorem Junction.linked_addRule_linkedTo (j : Junction) (target : NodeId) :
    (j.addRule (.linkedTo target)).linked = j.linked ++ [target] := by
  rw [linked, addRule, List.filterMap_append]
  rfl

namespace Network

variable {net next : Network} {a b k m x y z : NodeId} {i j : Junction}

/-- One node has a link to another one, and both are present. -/
def Joined (net : Network) (x y : NodeId) : Prop := y ∈ net.linksOf x ∧ (net.node? y).isSome = true

theorem linksOf_of_node? (h : net.node? x = some i) : net.linksOf x = i.linked := by
  rw [linksOf, h]
  rfl

theorem Joined.present (h : net.Joined x y) : (net.node? x).isSome = true := by
  obtain ⟨i, hi, -⟩ := mem_linksOf.mp h.1
  rw [hi]
  rfl

/-! ## Linking -/

section Linking

variable {source target : NodeId}

theorem linksOf_linkTo (net : Network) (source target k : NodeId) : (net.linkTo source target).linksOf k =
    if k = source ∧ (net.node? k).isSome = true ∧ target ∉ net.linksOf k then net.linksOf k ++ [target]
    else net.linksOf k := by
  rw [linksOf, linksOf, linkTo, modifyNode, node?, node?, Table.get?_modify]
  by_cases hSource : k = source
  · subst hSource
    cases net.nodes.get? k with
    | none => simp
    | some j =>
      by_cases hOld : target ∈ j.linked
      · simp [hOld]
      · simp [hOld, Junction.linked_addRule_linkedTo]
  · simp [hSource]

theorem mem_linksOf_linkTo : m ∈ (net.linkTo source target).linksOf k ↔
    m ∈ net.linksOf k ∨ k = source ∧ m = target ∧ (net.node? k).isSome = true := by
  rw [linksOf_linkTo]
  split
  · next hNew =>
    obtain ⟨rfl, hPresent, -⟩ := hNew
    simp [hPresent]
  · grind

theorem nodup_linksOf_linkTo (h : ∀ k, (net.linksOf k).Nodup) (k : NodeId) :
    ((net.linkTo source target).linksOf k).Nodup := by
  rw [linksOf_linkTo]
  split
  · next hNew => simpa [List.nodup_append, h k] using fun m hm => ne_of_mem_of_not_mem hm hNew.2.2
  · exact h k

theorem isSome_node?_linkTo (net : Network) (source target k : NodeId) :
    ((net.linkTo source target).node? k).isSome = (net.node? k).isSome := by
  simpa using congrArg Option.isSome (node?_of_unlinked (unlinked_linkTo net source target) k)

theorem isSome_node?_linkPair (net : Network) (x y k : NodeId) :
    ((net.linkPair x y).node? k).isSome = (net.node? k).isSome := by
  rw [linkPair]
  split
  · rfl
  · rw [isSome_node?_linkTo, isSome_node?_linkTo]

theorem isSome_node?_link (net : Network) (a b k : NodeId) :
    ((net.link a b).node? k).isSome = (net.node? k).isSome := by
  simpa using congrArg Option.isSome (node?_of_unlinked (unlinked_link net a b) k)

theorem mem_linksOf_linkPair : m ∈ (net.linkPair x y).linksOf k ↔ m ∈ net.linksOf k ∨
    k ≠ m ∧ (net.node? k).isSome = true ∧ ((k, m) = (x, y) ∨ (m, k) = (x, y)) := by
  rw [linkPair]
  split
  · grind
  · rw [mem_linksOf_linkTo, mem_linksOf_linkTo, isSome_node?_linkTo]
    grind

/-- Pairs linked one after the other. -/
def linkPairs (net : Network) (pairs : List (NodeId × NodeId)) : Network :=
  pairs.foldl (fun net e => net.linkPair e.1 e.2) net

theorem link_eq_linkPairs (net : Network) (a b : NodeId) : net.link a b =
    net.linkPairs ((net.linkClosure a).flatMap fun x => (net.linkClosure b).map fun y => (x, y)) := by
  rw [linkPairs, List.foldl_flatMap]
  simp only [List.foldl_map]
  rfl

theorem mem_linksOf_linkPairs {pairs : List (NodeId × NodeId)} :
    m ∈ (net.linkPairs pairs).linksOf k ↔ m ∈ net.linksOf k ∨
      k ≠ m ∧ (net.node? k).isSome = true ∧ ((k, m) ∈ pairs ∨ (m, k) ∈ pairs) := by
  induction pairs generalizing net with
  | nil => simp [linkPairs]
  | cons e rest ih =>
    have hRest : net.linkPairs (e :: rest) = (net.linkPair e.1 e.2).linkPairs rest := rfl
    rw [hRest, ih, mem_linksOf_linkPair, isSome_node?_linkPair, List.mem_cons, List.mem_cons]
    grind

theorem nodup_linksOf_linkPairs (h : ∀ k, (net.linksOf k).Nodup) (pairs : List (NodeId × NodeId)) :
    ∀ k, ((net.linkPairs pairs).linksOf k).Nodup := by
  induction pairs generalizing net with
  | nil => exact h
  | cons e rest ih =>
    have hFirst : ∀ k, ((net.linkPair e.1 e.2).linksOf k).Nodup := by
      rw [linkPair]
      split
      · exact h
      · exact nodup_linksOf_linkTo (nodup_linksOf_linkTo h)
    exact ih hFirst

theorem mem_linksOf_link : m ∈ (net.link a b).linksOf k ↔ m ∈ net.linksOf k ∨
    k ≠ m ∧ (net.node? k).isSome = true ∧ (k ∈ net.linkClosure a ∧ m ∈ net.linkClosure b ∨
      m ∈ net.linkClosure a ∧ k ∈ net.linkClosure b) := by
  rw [link_eq_linkPairs, mem_linksOf_linkPairs]
  simp [List.mem_flatMap]

end Linking

/-! ## Cliques -/

/-- The nodes that are present fall into groups in which all are linked to each other. -/
structure Cliques (net : Network) : Prop where
  irrefl : ∀ {x}, ¬net.Joined x x
  symm : ∀ {x y}, net.Joined x y → net.Joined y x
  trans : ∀ {x y z}, net.Joined x y → net.Joined y z → x ≠ z → net.Joined x z
  nodup : ∀ x, (net.linksOf x).Nodup
  /-- A link names a node that is or was there. -/
  issued : ∀ {x y}, y ∈ net.linksOf x → net.nodes.HasIssued y

theorem cliques_of_unlinked (h : ∀ x, net.linksOf x = []) : net.Cliques where
  irrefl {x} hJoined := by simp [Joined, h] at hJoined
  symm {x y} hJoined := by simp [Joined, h] at hJoined
  trans {x y z} hJoined := by simp [Joined, h] at hJoined
  nodup x := by simp [h]
  issued {x y} hLink := by simp [h] at hLink

/-- A node or one that is linked to it. -/
def Near (net : Network) (a x : NodeId) : Prop := x = a ∨ net.Joined a x

namespace Cliques

variable (h : net.Cliques)
include h

theorem near_of_joined (hNear : net.Near a x) (hJoined : net.Joined x y) : net.Near a y := by
  rcases hNear with rfl | hNear
  · exact .inr hJoined
  · by_cases hSame : a = y
    · exact .inl hSame.symm
    · exact .inr (h.trans hNear hJoined hSame)

theorem joined_of_near (hx : net.Near a x) (hy : net.Near a y) (hNe : x ≠ y) : net.Joined x y := by
  rcases hx with rfl | hx
  · exact hy.resolve_left hNe.symm
  · rcases hy with rfl | hy
    · exact h.symm hx
    · exact h.trans (h.symm hx) hy hNe

/-- Following links leads to the nodes near by, and to nodes that are gone. -/
theorem mem_linkClosure (hm : (net.node? m).isSome = true) : m ∈ net.linkClosure a ↔ net.Near a m := by
  constructor
  · have hStep : ∀ n, ((net.node? n).isSome = true → net.Near a n) →
        ∀ l ∈ net.linksOf n, (net.node? l).isSome = true → net.Near a l := by
      intro n hn l hl hPresent
      have hJoined : net.Joined n l := ⟨hl, hPresent⟩
      exact h.near_of_joined (hn hJoined.present) hJoined
    intro hMem
    refine forall_mem_followLinks hStep ?_ _ 0 m hMem hm
    intro l hl _
    exact .inl (List.mem_singleton.mp hl)
  · rintro (rfl | hJoined)
    · exact mem_linkClosure_self m
    · exact linksOf_subset_linkClosure a hJoined.1

theorem joined_link : (net.link a b).Joined x y ↔ net.Joined x y ∨
    x ≠ y ∧ (net.node? x).isSome = true ∧ (net.node? y).isSome = true ∧
      (net.Near a x ∧ net.Near b y ∨ net.Near a y ∧ net.Near b x) := by
  rw [Joined, Joined, mem_linksOf_link, isSome_node?_link]
  by_cases hx : (net.node? x).isSome = true
  · by_cases hy : (net.node? y).isSome = true
    · rw [h.mem_linkClosure hx, h.mem_linkClosure hx, h.mem_linkClosure hy, h.mem_linkClosure hy]
      grind
    · grind
  · grind

theorem link (ha : (net.node? a).isSome = true) (hb : (net.node? b).isSome = true) : (net.link a b).Cliques where
  irrefl {x} hJoined := by
    rcases h.joined_link.mp hJoined with hOld | ⟨hNe, -⟩
    · exact h.irrefl hOld
    · exact hNe rfl
  symm {x y} hJoined := by
    apply h.joined_link.mpr
    rcases h.joined_link.mp hJoined with hOld | ⟨hNe, hx, hy, hNear⟩
    · exact .inl (h.symm hOld)
    · exact .inr ⟨hNe.symm, hy, hx, hNear.symm⟩
  trans {x y z} hxy hyz hNe := by
    apply h.joined_link.mpr
    rcases h.joined_link.mp hxy with hxy | ⟨-, hx, hy, hxy⟩
    · rcases h.joined_link.mp hyz with hyz | ⟨-, hy, hz, hyz⟩
      · exact .inl (h.trans hxy hyz hNe)
      · have hBack := h.symm hxy
        refine .inr ⟨hNe, hxy.present, hz, ?_⟩
        exact hyz.imp (fun ⟨hy, hz⟩ => ⟨h.near_of_joined hy hBack, hz⟩)
          fun ⟨hz, hy⟩ => ⟨hz, h.near_of_joined hy hBack⟩
    · rcases h.joined_link.mp hyz with hyz | ⟨-, hy, hz, hyz⟩
      · refine .inr ⟨hNe, hx, hyz.2, ?_⟩
        exact hxy.imp (fun ⟨hx, hy⟩ => ⟨hx, h.near_of_joined hy hyz⟩)
          fun ⟨hy, hx⟩ => ⟨h.near_of_joined hy hyz, hx⟩
      · rcases hxy with ⟨hxa, hyb⟩ | ⟨hya, hxb⟩
        · rcases hyz with ⟨-, hzb⟩ | ⟨hza, -⟩
          · exact .inr ⟨hNe, hx, hz, .inl ⟨hxa, hzb⟩⟩
          · exact .inl (h.joined_of_near hxa hza hNe)
        · rcases hyz with ⟨-, hzb⟩ | ⟨hza, -⟩
          · exact .inl (h.joined_of_near hxb hzb hNe)
          · exact .inr ⟨hNe, hx, hz, .inr ⟨hza, hxb⟩⟩
  nodup := by
    rw [link_eq_linkPairs]
    exact nodup_linksOf_linkPairs h.nodup _
  issued {x y} hLink := by
    have hSize : (net.link a b).nodes.slots.size = net.nodes.slots.size :=
      Table.slots_size_of_map_eq (congrArg Network.nodes (unlinked_link net a b))
    have hClosure {c l : NodeId} (hc : (net.node? c).isSome = true) (hl : l ∈ net.linkClosure c) :
        net.nodes.HasIssued l := by
      obtain ⟨j, hj⟩ := present_iff.mp hc
      refine forall_mem_followLinks (fun _ _ _ hm => h.issued hm) ?_ _ 0 l hl
      intro m hm
      rw [List.mem_singleton.mp hm]
      exact Table.hasIssued_of_get? hj
    rw [Table.hasIssued_iff, hSize, ← Table.hasIssued_iff]
    rcases mem_linksOf_link.mp hLink with hOld | ⟨-, -, ⟨-, hy⟩ | ⟨hy, -⟩⟩
    · exact h.issued hOld
    · exact hClosure hb hy
    · exact hClosure ha hy

end Cliques

/-! ## Steps that leave links alone -/

/-- Every node of `next` has the links it had in `net`, and none is back that was gone. -/
structure KeepsLinks (net next : Network) : Prop where
  links : ∀ {x i}, next.node? x = some i → i.linked = net.linksOf x
  issued : ∀ {x}, net.nodes.HasIssued x → next.nodes.HasIssued x
  present : ∀ {x i}, net.nodes.HasIssued x → next.node? x = some i → (net.node? x).isSome = true

theorem KeepsLinks.joined (hKeeps : net.KeepsLinks next) (h : net.Cliques) : next.Joined x y ↔
    net.Joined x y ∧ (next.node? x).isSome = true ∧ (next.node? y).isSome = true := by
  constructor
  · intro hJoined
    obtain ⟨i, hi, hMem⟩ := mem_linksOf.mp hJoined.1
    obtain ⟨j, hj⟩ := present_iff.mp hJoined.2
    rw [hKeeps.links hi] at hMem
    exact ⟨⟨hMem, hKeeps.present (h.issued hMem) hj⟩, hJoined.present, hJoined.2⟩
  · rintro ⟨hJoined, hx, hy⟩
    obtain ⟨i, hi⟩ := present_iff.mp hx
    refine ⟨?_, hy⟩
    rw [linksOf_of_node? hi, hKeeps.links hi]
    exact hJoined.1

theorem KeepsLinks.cliques (hKeeps : net.KeepsLinks next) (h : net.Cliques) : next.Cliques where
  irrefl {x} hJoined := h.irrefl ((hKeeps.joined h).mp hJoined).1
  symm {x y} hJoined := by
    obtain ⟨hOld, hx, hy⟩ := (hKeeps.joined h).mp hJoined
    exact (hKeeps.joined h).mpr ⟨h.symm hOld, hy, hx⟩
  trans {x y z} hxy hyz hNe := by
    obtain ⟨hxy, hx, -⟩ := (hKeeps.joined h).mp hxy
    obtain ⟨hyz, -, hz⟩ := (hKeeps.joined h).mp hyz
    exact (hKeeps.joined h).mpr ⟨h.trans hxy hyz hNe, hx, hz⟩
  nodup x := by
    cases hx : next.node? x with
    | none => simp [linksOf, hx]
    | some i =>
      rw [linksOf_of_node? hx, hKeeps.links hx]
      exact h.nodup x
  issued {x y} hLink := by
    obtain ⟨i, hi, hMem⟩ := mem_linksOf.mp hLink
    rw [hKeeps.links hi] at hMem
    exact hKeeps.issued (h.issued hMem)

theorem KeepsLinks.trans {last : Network} (h : net.KeepsLinks next) (hLast : next.KeepsLinks last) :
    net.KeepsLinks last where
  links {x i} hi := by
    rw [hLast.links hi]
    cases hx : next.node? x with
    | some j => rw [linksOf_of_node? hx, h.links hx]
    | none =>
      -- a node that is back was never there before
      have hFresh : net.node? x = none := by
        cases hOld : net.node? x with
        | none => rfl
        | some j =>
          have hBack := hLast.present (h.issued (Table.hasIssued_of_get? hOld)) hi
          rw [hx] at hBack
          cases hBack
      rw [linksOf, linksOf, hx, hFresh]
  issued hx := hLast.issued (h.issued hx)
  present hx hi := by
    obtain ⟨j, hj⟩ := present_iff.mp (hLast.present (h.issued hx) hi)
    exact h.present hx hj

def ties (net : Network) : Table .node Junction := net.nodes.map Junction.ties

theorem KeepsLinks.of_ties (h : next.ties = net.ties) : net.KeepsLinks next where
  links {x i} hi := by
    have hNode := congrArg (Option.map Junction.linked) (Table.get?_of_map_eq h x)
    simp only [Option.map_map, Function.comp_def, Junction.linked_ties] at hNode
    rw [show next.nodes.get? x = some i from hi, Option.map_some] at hNode
    rw [linksOf, node?, ← hNode]
    rfl
  issued {x} hx := by
    rw [Table.hasIssued_iff] at hx ⊢
    rwa [Table.slots_size_of_map_eq h]
  present {x i} _ hi := by
    have hNode := congrArg Option.isSome (Table.get?_of_map_eq h x)
    rw [show next.nodes.get? x = some i from hi] at hNode
    simpa [node?] using hNode.symm

theorem ties_modifyNode {f : Junction → Junction} (hf : ∀ j, (f j).ties = j.ties) (net : Network)
    (n : NodeId) : (net.modifyNode n f).ties = net.ties := Table.map_modify hf ..

theorem ties_editNode {n : NodeId} {f : Junction → Junction} (h : net.editNode n f = .ok next)
    (hf : ∀ j, (f j).ties = j.ties) : next.ties = net.ties := by
  rw [editNode] at h
  split at h
  · cases h
    exact ties_modifyNode hf net n
  · cases h

theorem ties_append_rules {rules : List Rule} (h : ∀ r ∈ rules, r.isLink = false) (j : Junction) :
    { j with rules := j.rules ++ rules }.ties = j.ties := by
  have hNone : rules.filter (·.isLink) = [] := List.filter_eq_nil_iff.mpr fun r hr => by simp [h r hr]
  simp [Junction.ties, hNone]

/-! ### Nodes and connections -/

theorem Added.keepsLinks {position : Position} {n : NodeId} (h : Added net position n next) :
    net.KeepsLinks next where
  links {x i} hi := by
    rw [h.node?] at hi
    split at hi
    · next hx =>
      obtain rfl := Option.some.inj hi
      rw [hx, linksOf, h.fresh]
      rfl
    · exact (linksOf_of_node? hi).symm
  issued := h.follows.nodes
  present {x i} hx hi := by
    rw [h.node?, if_neg (hasIssued_add? h.add hx).2] at hi
    rw [hi]
    rfl

theorem Connected.keepsLinks {start stop : NodeId} {spec : TrackSpec} {p q : Point} {id : ConnectionId}
    (h : Connected net start stop spec p q id next) : net.KeepsLinks next := by
  apply KeepsLinks.of_ties
  rw [ties, h.nodes, Table.map_modify, Table.map_modify, ties]
  · exact fun j => rfl
  · exact fun j => rfl

theorem keepsLinks_prune (net : Network) : net.KeepsLinks net.prune where
  links hi := (linksOf_of_node? (node?_of_prune hi).1).symm
  issued := (follows_prune net).nodes
  present _ hi := by
    rw [(node?_of_prune hi).1]
    rfl

theorem ties_moveTrack (source target : NodeId) (point : Point) (net : Network) (c : ConnectionId) :
    (moveTrack source target point net c).ties = net.ties := by
  rw [moveTrack.eq_def]
  split
  · rfl
  · next direction _ =>
    have hDetach (j : Junction) : (j.detach c).ties = j.ties := rfl
    have hAttach (j : Junction) : (j.attach ⟨c, direction⟩).ties = j.ties := rfl
    exact (ties_modifyNode hAttach _ target).trans (ties_modifyNode hDetach net source)

/-- A split links a new node without links to the node it came from, and leaves all other links alone. -/
theorem exists_link_of_extract {n sibling : NodeId} (h : net.extract n = .ok (some (sibling, next))) :
    ∃ moved, net.KeepsLinks moved ∧ next = moved.link n sibling ∧ (net.node? n).isSome = true ∧
      ¬net.nodes.HasIssued sibling ∧
      ∀ m, (moved.node? m).isSome = true ↔ (net.node? m).isSome = true ∨ m = sibling := by
  cases hj : net.node? n with
  | none => simp [extract_of_absent hj] at h
  | some j =>
    obtain ⟨-, mid, hAdd, rfl⟩ := (extract_eq_some_iff hj).mp h
    have hAdded := addNode_eq_ok hAdd
    have hTies := foldl_view ties (ties_moveTrack n sibling j.point) mid (net.misfits j)
    refine ⟨_, hAdded.keepsLinks.trans (.of_ties hTies), rfl, rfl, ?_, ?_⟩
    · intro hIssued
      exact (hasIssued_add? hAdded.add hIssued).2 rfl
    · intro m
      have hNode := congrArg Option.isSome (Table.get?_of_map_eq hTies m)
      rw [Option.isSome_map, Option.isSome_map] at hNode
      rw [node?, hNode, ← node?, hAdded.node?]
      split
      · simp [*]
      · simp [*]

/-! ### Heights -/

/-- No rule that is derived from a network is a link. -/
theorem isLink_of_mem_derive {s : RuleSettings} {ground : Float} {r : Rule} (hr : r ∈ (net.derive s j ground).2) :
    r.isLink = false := by
  simp only [derive, List.mem_append] at hr
  rcases hr with ((hr | hr) | hr) | hr
  · rw [groundRules] at hr
    split at hr
    · rw [List.mem_singleton.mp hr]
      rfl
    · cases hr
  · simp only [smoothingRules, List.mem_flatMap, List.mem_map] at hr
    obtain ⟨_, -, _, -, rfl⟩ := hr
    rfl
  · simp only [inclineRules, List.mem_filterMap, Option.bind_eq_bind, Option.bind_eq_some_iff] at hr
    obtain ⟨_, -, _, -, _, -, hRule⟩ := hr
    cases hRule
    rfl
  · simp only [neighbourRules, List.mem_filterMap, Option.bind_eq_bind, Option.bind_eq_some_iff] at hr
    obtain ⟨_, -, _, -, hRule⟩ := hr
    split at hRule
    · cases hRule
    · cases hRule
      rfl

theorem ties_deriveHeights (net : Network) (ground : Ground) (s : RuleSettings) :
    (net.deriveHeights ground s).network.ties = net.ties := by
  refine foldl_view (fun d : Derivation => d.network.ties) (fun d n => ?_) { network := net } net.nodes.ids
  rw [Derivation.visit]
  split
  · rfl
  · apply ties_modifyNode
    intro j
    exact ties_append_rules (fun r hr => isLink_of_mem_derive hr) (j.withElevation _)

theorem ties_withElevation (net : Network) (n : NodeId) (z : Float) :
    (net.modifyNode n (·.withElevation z)).ties = net.ties := by
  refine ties_modifyNode ?_ net n
  intro j
  rfl

/-! ## Runs -/

/-- A link that is made by hand joins nodes that are present, and a rule that is added by hand is none. -/
def Operation.Lawful (net : Network) : Operation → Prop
  | .link a b => (net.node? a).isSome = true ∧ (net.node? b).isSome = true
  | .addRule _ rule => rule.isLink = false
  | _ => True

/-- All operations of a run are lawful where they are done. -/
def Lawful (net : Network) : List Operation → Prop
  | [] => True
  | op :: rest => op.Lawful net ∧ (net.after op).Lawful rest

namespace Cliques

variable (h : net.Cliques)
include h

theorem of_ties (hTies : next.ties = net.ties) : next.Cliques := (KeepsLinks.of_ties hTies).cliques h

theorem extract {n sibling : NodeId} (hExtract : net.extract n = .ok (some (sibling, next))) : next.Cliques := by
  obtain ⟨moved, hKeeps, rfl, hn, -, hPresent⟩ := exists_link_of_extract hExtract
  exact (hKeeps.cliques h).link ((hPresent n).mpr (.inl hn)) ((hPresent sibling).mpr (.inr rfl))

theorem splits {log : List (NodeId × NodeId)} (hSplits : Splits net log next) : next.Cliques := by
  induction hSplits with
  | done => exact h
  | step hExtract _ ih => exact ih (h.extract hExtract)

theorem orSelf {ε α : Type} {result : α → Network} {e : Except ε α} (hResult : ∀ a, e = .ok a → (result a).Cliques) :
    (net.orSelf result e).Cliques := by
  cases e with
  | error _ => exact h
  | ok a => exact hResult a rfl

theorem after {op : Operation} (hNet : net.WellFormed) (hLawful : op.Lawful net) : (net.after op).Cliques := by
  have hImport (ways : List Way) (classifiers : List WayClassifier) :
      ImportState.Kept Cliques ways classifiers :=
    ⟨fun _ _ hAdded h => hAdded.keepsLinks.cliques h, fun _ _ _ hConnected h => hConnected.keepsLinks.cliques h⟩
  cases op with
  | addNode position => exact h.orSelf fun _ hAdd => (addNode_eq_ok hAdd).keepsLinks.cliques h
  | connect start stop spec =>
    refine h.orSelf fun _ hConnect => ?_
    obtain ⟨p, q, hConnected⟩ := connect_eq_ok hConnect
    exact hConnected.keepsLinks.cliques h
  | edit id edit => exact h.of_ties rfl
  | setElevation n z => exact h.orSelf fun _ hEdit => h.of_ties (ties_editNode hEdit fun _ => rfl)
  | addRule n rule =>
    have hRule : ∀ r ∈ [rule], r.isLink = false := by
      intro r hr
      rw [List.mem_singleton.mp hr]
      exact hLawful
    exact h.orSelf fun _ hEdit => h.of_ties (ties_editNode hEdit (ties_append_rules hRule))
  | link a b => exact h.link hLawful.1 hLawful.2
  | extract n =>
    refine h.orSelf fun split hExtract => ?_
    cases split with
    | none => exact h
    | some split => exact h.extract hExtract
  | cleanup =>
    refine h.orSelf fun out hCleanup => ?_
    obtain ⟨log, hSplits, -⟩ := (hNet.repairs_of_cleanup hCleanup).exists_splits
    exact ((keepsLinks_prune net).cliques h).splits hSplits
  | markStraight => exact h.of_ties rfl
  | deriveHeights ground s => exact h.of_ties (ties_deriveHeights net ground s)
  | relaxNode s cooling n => exact h.of_ties (view_relaxNode ties_withElevation net s cooling n)
  | nextPass s cooling => exact h.of_ties (view_nextPass ties_withElevation net s cooling)
  | relaxWhile s goOn => exact h.of_ties (view_relaxWhile ties_withElevation net s goOn)
  | importWay importer classifier way =>
    exact (hImport [way] [classifier]).importWay (List.mem_singleton_self way) (List.mem_singleton_self classifier) h
  | importWays importer ways classifiers => exact (hImport ways classifiers).importWays h

/-- Links form cliques all along a lawful run. -/
theorem foldl_after {ops : List Operation} (hNet : net.WellFormed) (hLawful : net.Lawful ops) :
    (ops.foldl Network.after net).Cliques := by
  induction ops generalizing net with
  | nil => exact h
  | cons op rest ih =>
    exact ih (h.after hNet hLawful.1) ((changes_after net op).wellFormed hNet) hLawful.2

end Cliques

theorem cliques_empty : empty.Cliques := cliques_of_unlinked fun x => by rw [linksOf, node?_empty]; rfl

end Network

end TrackLayout
