import TrackLayout.Proofs.Network.Drawing

/-!
# Plans of imports

What an import should make of some segments, told without an importer: by the
keys in the segments and where each key is met first. A plan for more segments
says the same of a key that has been met, and has the same connections first.
-/
set_option autoImplicit false

namespace TrackLayout

/-- The legs of a way, one from each node but the last to the node after it. -/
def Way.legs (w : Way) : List (WayNode × WayNode) :=
  List.ofFn fun k : Fin (w.nodes.length - 1) => (w.nodes[k.val], w.nodes[k.val + 1])

theorem Way.segments_eq_legs (w : Way) : w.segments = w.legs := by
  have hLength : w.segments.length = w.nodes.length - 1 := by
    rw [segments, List.length_zip, List.length_tail]
    omega
  apply List.ext_getElem
  · rw [hLength, legs, List.length_ofFn]
  · intro k _ _
    simp [segments, legs]

/-- A segment of a way that is handled, and the track it is to become. -/
structure Piece where
  first : WayNode
  second : WayNode
  spec : Network.TrackSpec

namespace ImportState

open Network

/-! ## The plan -/

/-- A way with the track it is to become, if a classifier handles it. -/
def handle? (k : WayClassifier) (w : Way) : Option (Way × TrackSpec) :=
  (k.trackType? w).map fun t => (w, ⟨t, k.heightType w, w.plane⟩)

/-- The ways that are handled, classifier by classifier. -/
def accepted (ways : List Way) (classifiers : List WayClassifier) : List (Way × TrackSpec) :=
  classifiers.flatMap fun k => ways.filterMap (handle? k)

def piecesOf (a : Way × TrackSpec) : List Piece := a.1.legs.map fun ends => ⟨ends.1, ends.2, a.2⟩

theorem map_segments (w : Way) (spec : TrackSpec) :
    w.segments.map (fun ends => ⟨ends.1, ends.2, spec⟩) = piecesOf (w, spec) := by
  rw [piecesOf, ← Way.segments_eq_legs]

/-- All segments in the order in which an import goes through them. -/
def allPieces (ways : List Way) (classifiers : List WayClassifier) : List Piece :=
  (accepted ways classifiers).flatMap piecesOf

/-- The way nodes in the order in which they are met. -/
def met (pieces : List Piece) : List WayNode := pieces.flatMap fun x => [x.first, x.second]

/-- Every key where it is met first. -/
def sites (met : List WayNode) : List WayNode :=
  (met.map (·.key)).eraseDups.filterMap fun key => met.find? (·.key == key)

/-- The sites that become nodes. -/
def landed (onLand : Point → Bool) (met : List WayNode) : List WayNode :=
  (sites met).filter fun w => onLand w.position

/-- The node of a key. -/
def nodeAt (nodes : List WayNode) (key : UInt64) : Option NodeId :=
  (nodes.findIdx? (·.key == key)).map fun place => ⟨place.toUInt32⟩

/-- What becomes of a segment: none if its keys are equal or one of them has no node. -/
def edge? (nodes : List WayNode) (x : Piece) : Option Edge :=
  if x.first.key = x.second.key then none
  else do
    let start ← nodeAt nodes x.first.key
    let stop ← nodeAt nodes x.second.key
    return ⟨start, stop, x.spec⟩

def edges (onLand : Point → Bool) (pieces : List Piece) : List Edge :=
  pieces.filterMap (edge? (landed onLand (met pieces)))

def positions (nodes : List WayNode) : List Position := nodes.map fun w => { point := w.position }

/-- There are ids for all nodes and all connections. -/
def Fits (onLand : Point → Bool) (pieces : List Piece) : Prop :=
  (landed onLand (met pieces)).length < UInt32.size ∧ (edges onLand pieces).length < UInt32.size

variable {onLand : Point → Bool} {n : WayNode} {seen more : List WayNode} {key : UInt64} {id : NodeId}

/-! ## One way node more -/

theorem find?_key_isSome (h : key ∈ seen.map (·.key)) : (seen.find? (·.key == key)).isSome = true := by
  obtain ⟨w, hw, rfl⟩ := List.mem_map.mp h
  rw [List.find?_isSome]
  exact ⟨w, hw, beq_self_eq_true _⟩

theorem find?_key_eq_none (h : key ∉ seen.map (·.key)) : seen.find? (·.key == key) = none := by
  rw [List.find?_eq_none]
  intro w hw hSame
  exact h (List.mem_map.mpr ⟨w, hw, beq_iff_eq.mp hSame⟩)

theorem find?_key_concat (h : key ∈ seen.map (·.key)) (n : WayNode) :
    (seen ++ [n]).find? (·.key == key) = seen.find? (·.key == key) := by
  rw [List.find?_append]
  exact Option.or_of_isSome (find?_key_isSome h)

theorem eraseDups_concat_known {keys : List UInt64} (h : key ∈ keys) :
    (keys ++ [key]).eraseDups = keys.eraseDups := by
  rw [List.eraseDups_append]
  simp [List.removeAll, h]

theorem eraseDups_concat_new {keys : List UInt64} (h : key ∉ keys) :
    (keys ++ [key]).eraseDups = keys.eraseDups ++ [key] := by
  rw [List.eraseDups_append]
  simp [List.removeAll, h, List.eraseDups_cons]

theorem sites_concat_known (h : n.key ∈ seen.map (·.key)) : sites (seen ++ [n]) = sites seen := by
  rw [sites, List.map_append, List.map_singleton, eraseDups_concat_known h, sites]
  refine List.filterMap_congr fun key hKey => ?_
  exact find?_key_concat (List.mem_eraseDups.mp hKey) n

theorem sites_concat_new (h : n.key ∉ seen.map (·.key)) : sites (seen ++ [n]) = sites seen ++ [n] := by
  have hLast : (seen ++ [n]).find? (·.key == n.key) = some n := by
    rw [List.find?_append, find?_key_eq_none h]
    simp
  rw [sites, List.map_append, List.map_singleton, eraseDups_concat_new h, List.filterMap_append,
    List.filterMap_cons, hLast, sites]
  congr 1
  refine List.filterMap_congr fun key hKey => ?_
  exact find?_key_concat (List.mem_eraseDups.mp hKey) n

theorem mem_of_mem_landed {w : WayNode} (h : w ∈ landed onLand seen) : w ∈ seen := by
  obtain ⟨hSite, -⟩ := List.mem_filter.mp h
  obtain ⟨key, -, hFind⟩ := List.mem_filterMap.mp hSite
  exact List.mem_of_find?_eq_some hFind

theorem landed_concat_known (h : n.key ∈ seen.map (·.key)) :
    landed onLand (seen ++ [n]) = landed onLand seen := by
  rw [landed, sites_concat_known h, landed]

theorem landed_concat_off (h : n.key ∉ seen.map (·.key)) (hLand : onLand n.position = false) :
    landed onLand (seen ++ [n]) = landed onLand seen := by
  rw [landed, sites_concat_new h, List.filter_append]
  simp [hLand, landed]

theorem landed_concat_new (h : n.key ∉ seen.map (·.key)) (hLand : onLand n.position = true) :
    landed onLand (seen ++ [n]) = landed onLand seen ++ [n] := by
  rw [landed, sites_concat_new h, List.filter_append]
  simp [hLand, landed]

/-- A node more is one of a key that was not met before. -/
theorem landed_concat (onLand : Point → Bool) (seen : List WayNode) (n : WayNode) :
    landed onLand (seen ++ [n]) = landed onLand seen ∨
      (n.key ∉ seen.map (·.key) ∧ landed onLand (seen ++ [n]) = landed onLand seen ++ [n]) := by
  by_cases hKnown : n.key ∈ seen.map (·.key)
  · exact .inl (landed_concat_known hKnown)
  · cases hLand : onLand n.position with
    | false => exact .inl (landed_concat_off hKnown hLand)
    | true => exact .inr ⟨hKnown, landed_concat_new hKnown hLand⟩

theorem nodeAt_eq_none (h : key ∉ seen.map (·.key)) : nodeAt (landed onLand seen) key = none := by
  rw [nodeAt, Option.map_eq_none_iff, List.findIdx?_eq_none_iff]
  intro w hw
  rw [beq_eq_false_iff_ne]
  rintro rfl
  exact h (List.mem_map_of_mem (mem_of_mem_landed hw))

theorem nodeAt_concat_new (h : n.key ∉ seen.map (·.key)) :
    nodeAt (landed onLand seen ++ [n]) n.key = some ⟨(landed onLand seen).length.toUInt32⟩ := by
  have hNone : nodeAt (landed onLand seen) n.key = none := nodeAt_eq_none h
  rw [nodeAt, Option.map_eq_none_iff] at hNone
  rw [nodeAt, List.findIdx?_append, hNone]
  simp

/-- The node of a key does not depend on what is met later. -/
theorem nodeAt_append (h : key ∈ seen.map (·.key)) (more : List WayNode) :
    nodeAt (landed onLand (seen ++ more)) key = nodeAt (landed onLand seen) key := by
  induction more using List.reverseRecOn with
  | nil => rw [List.append_nil]
  | append_singleton more n ih =>
    rw [← ih, ← List.append_assoc]
    rcases landed_concat onLand (seen ++ more) n with hSame | ⟨hNew, hMore⟩
    · rw [hSame]
    · have hOther : n.key ≠ key := by
        rintro rfl
        rw [List.map_append] at hNew
        exact hNew (List.mem_append_left _ h)
      rw [hMore, nodeAt, List.findIdx?_append]
      simp [hOther, nodeAt]

theorem landed_prefix_append (onLand : Point → Bool) (seen more : List WayNode) :
    landed onLand seen <+: landed onLand (seen ++ more) := by
  induction more using List.reverseRecOn with
  | nil => simp only [List.append_nil, List.prefix_rfl]
  | append_singleton more n ih =>
    rw [← List.append_assoc]
    rcases landed_concat onLand (seen ++ more) n with hSame | ⟨-, hMore⟩
    · rw [hSame]
      exact ih
    · rw [hMore]
      exact ih.trans (List.prefix_append ..)

theorem exists_place_of_nodeAt {nodes : List WayNode} (h : nodeAt nodes key = some id) :
    ∃ (place : Nat) (hPlace : place < nodes.length), id = ⟨place.toUInt32⟩ ∧ nodes[place].key = key := by
  obtain ⟨place, hFind, rfl⟩ := Option.map_eq_some_iff.mp h
  obtain ⟨hPlace, hKey, -⟩ := List.findIdx?_eq_some_iff_getElem.mp hFind
  exact ⟨place, hPlace, rfl, beq_iff_eq.mp hKey⟩

/-- As long as there are ids, different keys have different nodes. -/
theorem key_eq_of_nodeAt {nodes : List WayNode} {other : UInt64} (hFits : nodes.length < UInt32.size)
    (h : nodeAt nodes key = some id) (hOther : nodeAt nodes other = some id) : key = other := by
  obtain ⟨place, hPlace, rfl, rfl⟩ := exists_place_of_nodeAt h
  obtain ⟨place', hPlace', hSame, rfl⟩ := exists_place_of_nodeAt hOther
  have hNumbers := congrArg (fun id : NodeId => id.val.toNat) hSame
  have hNumber : ∀ k < nodes.length, k.toUInt32.toNat = k := fun k hk =>
    Nat.mod_eq_of_lt (Nat.lt_trans hk hFits)
  dsimp only at hNumbers
  rw [hNumber place hPlace, hNumber place' hPlace'] at hNumbers
  subst hNumbers
  rfl

/-! ## One segment more -/

variable {pieces : List Piece} {x : Piece}

theorem met_concat (pieces : List Piece) (x : Piece) :
    met (pieces ++ [x]) = met pieces ++ [x.first] ++ [x.second] := by
  simp [met]

theorem keys_mem_met (h : x ∈ pieces) :
    x.first.key ∈ (met pieces).map (·.key) ∧ x.second.key ∈ (met pieces).map (·.key) := by
  constructor
  · refine List.mem_map_of_mem (List.mem_flatMap.mpr ⟨x, h, ?_⟩)
    exact List.mem_cons_self
  · refine List.mem_map_of_mem (List.mem_flatMap.mpr ⟨x, h, ?_⟩)
    exact List.mem_cons_of_mem _ List.mem_cons_self

theorem edge?_eq_none {nodes : List WayNode} (h : x.first.key = x.second.key ∨
    nodeAt nodes x.first.key = none ∨ nodeAt nodes x.second.key = none) : edge? nodes x = none := by
  rw [edge?]
  split
  · rfl
  · next hKeys =>
    rcases h with hSame | hFirst | hSecond
    · exact absurd hSame hKeys
    · rw [hFirst]
      rfl
    · rw [hSecond]
      cases nodeAt nodes x.first.key <;> rfl

theorem edge?_eq_some {nodes : List WayNode} {a b : NodeId} (hNe : a ≠ b)
    (hFirst : nodeAt nodes x.first.key = some a) (hSecond : nodeAt nodes x.second.key = some b) :
    edge? nodes x = some ⟨a, b, x.spec⟩ := by
  have hKeys : x.first.key ≠ x.second.key := by
    intro hKeys
    rw [hKeys, hSecond] at hFirst
    exact hNe (Option.some.inj hFirst).symm
  rw [edge?, if_neg hKeys, hFirst, hSecond]
  rfl

theorem edge?_append (h : x ∈ pieces) (more : List WayNode) :
    edge? (landed onLand (met pieces ++ more)) x = edge? (landed onLand (met pieces)) x := by
  obtain ⟨hFirst, hSecond⟩ := keys_mem_met h
  rw [edge?, nodeAt_append hFirst, nodeAt_append hSecond, edge?]

theorem edges_append (onLand : Point → Bool) (pieces rest : List Piece) :
    edges onLand (pieces ++ rest) =
      edges onLand pieces ++ rest.filterMap (edge? (landed onLand (met (pieces ++ rest)))) := by
  have hMet : met (pieces ++ rest) = met pieces ++ met rest := List.flatMap_append
  rw [edges, List.filterMap_append, edges]
  congr 1
  refine List.filterMap_congr fun x hx => ?_
  rw [hMet]
  exact edge?_append hx (met rest)

theorem edges_concat (onLand : Point → Bool) (pieces : List Piece) (x : Piece) :
    edges onLand (pieces ++ [x]) =
      edges onLand pieces ++ (edge? (landed onLand (met (pieces ++ [x]))) x).toList := by
  rw [edges_append, List.filterMap_eq_flatMap_toList, List.flatMap_singleton]

theorem not_fits_append (h : ¬Fits onLand pieces) (rest : List Piece) : ¬Fits onLand (pieces ++ rest) := by
  intro hAll
  have hNodes := (landed_prefix_append onLand (met pieces) (met rest)).length_le
  have hMet : met (pieces ++ rest) = met pieces ++ met rest := List.flatMap_append
  rw [Fits, hMet, edges_append, List.length_append] at hAll
  apply h
  constructor
  · omega
  · omega

end ImportState

end TrackLayout
