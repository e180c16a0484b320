import TrackLayout.Proofs.MessagePack.Head

/-!
# Values delimit themselves

A reader that meets a written value takes its bytes and nothing behind them,
and has the value complete. A value that was cut short leaves it waiting for
more. Values are read as they were written, but for integers that are not
negative, which are read as unsigned ones.
-/
set_option autoImplicit false

namespace TrackLayout.MessagePack

/-! ## What is read -/

mutual

/-- A written value as it is read. -/
def settled : MessagePack → MessagePack
  | .signed n => if 0 ≤ n.toInt then .unsigned n.toInt.toNat.toUInt64 else .signed n
  | .array items => .array (settledItems items)
  | .map entries => .map (settledEntries entries)
  | v => v

def settledItems : List MessagePack → List MessagePack
  | [] => []
  | v :: rest => v.settled :: settledItems rest

def settledEntries : List (MessagePack × MessagePack) → List (MessagePack × MessagePack)
  | [] => []
  | (key, v) :: rest => (key.settled, v.settled) :: settledEntries rest

end

theorem settledItems_eq_map (items : List MessagePack) : settledItems items = items.map settled := by
  induction items with
  | nil => rfl
  | cons v rest ih => rw [settledItems, ih, List.map_cons]

theorem settledEntries_eq_map (entries : List (MessagePack × MessagePack)) :
    settledEntries entries = entries.map fun e => (e.1.settled, e.2.settled) := by
  induction entries with
  | nil => rfl
  | cons e rest ih => rw [settledEntries, ih, List.map_cons]

/-- All lengths and counts fit into 32 bits, and there are at most so many levels. -/
inductive Writable : Nat → MessagePack → Prop where
  | nil {levels : Nat} : Writable levels .nil
  | bool {levels : Nat} (b : Bool) : Writable levels (.bool b)
  | unsigned {levels : Nat} (n : UInt64) : Writable levels (.unsigned n)
  | signed {levels : Nat} (n : Int64) : Writable levels (.signed n)
  | float {levels : Nat} (x : Float) : Writable levels (.float x)
  | text {levels : Nat} {bytes : Bytes} (h : bytes.length < 2 ^ 32) : Writable levels (.text bytes)
  | binary {levels : Nat} {bytes : Bytes} (h : bytes.length < 2 ^ 32) : Writable levels (.binary bytes)
  | extension {levels : Nat} {bytes : Bytes} (hKind : bytes ≠ []) (h : bytes.length ≤ 2 ^ 32) :
      Writable (levels + 1) (.extension bytes)
  | array {levels : Nat} {items : List MessagePack} (h : items.length < 2 ^ 32)
      (hItems : ∀ v ∈ items, Writable levels v) : Writable (levels + 1) (.array items)
  | map {levels : Nat} {entries : List (MessagePack × MessagePack)} (h : entries.length < 2 ^ 32)
      (hKeys : ∀ e ∈ entries, Writable levels e.1) (hValues : ∀ e ∈ entries, Writable levels e.2) :
      Writable (levels + 1) (.map entries)

/-! ## Reading to the end -/

namespace Reading

/-- More fuel than bytes makes no difference. -/
theorem run_eq_of_le {r : Reading} {bytes : Bytes} {fuel fuel' : Nat} (h : bytes.length ≤ fuel)
    (h' : bytes.length ≤ fuel') : r.run fuel bytes = r.run fuel' bytes := by
  induction fuel generalizing r bytes fuel' with
  | zero =>
    rw [List.length_eq_zero_iff.mp (Nat.le_zero.mp h)]
    cases r <;> cases fuel' <;> rfl
  | succ fuel ih =>
    cases r with
    | done v => cases fuel' <;> rfl
    | within around =>
      cases bytes with
      | nil => cases fuel' <;> rfl
      | cons marker rest =>
        obtain ⟨fuel', rfl⟩ := Nat.exists_eq_succ_of_ne_zero (Nat.ne_of_gt (Nat.lt_of_lt_of_le (Nat.succ_pos _) h'))
        rw [run, run]
        cases hHead : Head.ofMarker? marker rest with
        | none => rfl
        | some out =>
          obtain ⟨head, rest'⟩ := out
          have hLe := (Head.local_ofMarker? marker).length_le hHead
          rw [List.length_cons] at h h'
          dsimp only
          cases accept around head with
          | none => rfl
          | some r => exact ih (by omega) (by omega)

/-- Reads on until the outermost value is complete. -/
def finish (r : Reading) (bytes : Bytes) : Option MessagePack := r.run bytes.length bytes

theorem finish_done (v : MessagePack) (bytes : Bytes) : (done v).finish bytes = some v := by
  rw [finish, run]

theorem finish_within (around : List Frame) (bytes : Bytes) : (within around).finish bytes =
    (Head.ofBytes? bytes).bind fun out => (accept around out.1).bind fun r => r.finish out.2 := by
  cases bytes with
  | nil => rfl
  | cons marker rest =>
    rw [finish, List.length_cons, run, Head.ofBytes?]
    cases hHead : Head.ofMarker? marker rest with
    | none => rfl
    | some out =>
      obtain ⟨head, rest'⟩ := out
      have hLe := (Head.local_ofMarker? marker).length_le hHead
      rw [Option.bind_some]
      dsimp only
      cases accept around head with
      | none => rfl
      | some r => exact run_eq_of_le hLe (Nat.le_refl _)

/-- A reader takes these bytes, whatever follows, and is then a reader of what follows; with fewer of
them it fails. -/
structure Takes (r : Reading) (bytes : Bytes) (next : Reading) : Prop where
  whole : ∀ rest, r.finish (bytes ++ rest) = next.finish rest
  cut : ∀ {p}, p <+: bytes → p ≠ bytes → r.finish p = none

namespace Takes

variable {r mid next : Reading} {bytes more : Bytes} {around : List Frame}

theorem trans (h : r.Takes bytes mid) (hMore : mid.Takes more next) : r.Takes (bytes ++ more) next where
  whole rest := by rw [List.append_assoc, h.whole, hMore.whole]
  cut {p} hPrefix hNe := by
    obtain ⟨q, hq⟩ := hPrefix
    rcases List.append_eq_append_iff.mp hq with ⟨first, rfl, rfl⟩ | ⟨second, rfl, rfl⟩
    · -- cut in the first part, or right behind it
      cases first with
      | nil =>
        rw [List.append_nil] at hNe h
        have hWhole := h.whole []
        rw [List.append_nil] at hWhole
        rw [hWhole]
        exact hMore.cut List.nil_prefix fun hNil => hNe (by rw [← hNil, List.append_nil])
      | cons b first =>
        exact h.cut (List.prefix_append ..) fun hSame => nomatch List.self_eq_append_right.mp hSame
    · rw [h.whole]
      exact hMore.cut (List.prefix_append ..) fun hSame => hNe (congrArg (bytes ++ ·) hSame)

theorem of_head {head : Head} (h : Delimits Head.ofBytes? bytes head)
    (hAccept : accept around head = some next) : (within around).Takes bytes next where
  whole rest := by rw [finish_within, h.whole, Option.bind_some, hAccept, Option.bind_some]
  cut hPrefix hNe := by rw [finish_within, h.cut hPrefix hNe, Option.bind_none]

end Takes

/-! ### One value -/

/-- A written value is taken whole and completes the reading around it, if there is room for its levels. -/
def Completes (levels : Nat) (v : MessagePack) : Prop :=
  ∀ around : List Frame, around.length + levels ≤ maxDepth →
    (within around).Takes v.encode (complete v.settled around)

variable {levels : Nat} {around : List Frame}

/-- The items that are left of an array. -/
theorem takes_items {v : MessagePack} {rest : List MessagePack} (hItems : ∀ w ∈ v :: rest, Completes levels w)
    (hDepth : around.length + 1 + levels ≤ maxDepth) (done : List MessagePack) :
    (within (.array rest.length done :: around)).Takes (encodeItems (v :: rest))
      (complete (.array (done.reverse ++ settledItems (v :: rest))) around) := by
  have hFirst := hItems v List.mem_cons_self (.array rest.length done :: around) hDepth
  induction rest generalizing v done with
  | nil =>
    have hLast : complete v.settled (.array 0 done :: around) =
        complete (.array (done.reverse ++ settledItems [v])) around := by
      rw [complete, List.reverse_cons, settledItems, settledItems]
    rw [encodeItems, encodeItems, List.append_nil, ← hLast]
    exact hFirst
  | cons w rest ih =>
    have hRest := ih (fun u hu => hItems u (List.mem_cons_of_mem v hu)) (v.settled :: done)
      (hItems w (by simp) _ hDepth)
    rw [List.reverse_cons, List.append_assoc, List.singleton_append, ← settledItems] at hRest
    rw [encodeItems]
    exact hFirst.trans hRest

/-- The entries that are left of a map. -/
theorem takes_entries {e : MessagePack × MessagePack} {rest : List (MessagePack × MessagePack)}
    (hKeys : ∀ d ∈ e :: rest, Completes levels d.1) (hValues : ∀ d ∈ e :: rest, Completes levels d.2)
    (hDepth : around.length + 1 + levels ≤ maxDepth) (done : List (MessagePack × MessagePack)) :
    (within (.key rest.length done :: around)).Takes (encodeEntries (e :: rest))
      (complete (.map (done.reverse ++ settledEntries (e :: rest))) around) := by
  have hKey := hKeys e List.mem_cons_self (.key rest.length done :: around) hDepth
  have hValue := hValues e List.mem_cons_self (.entry rest.length done e.1.settled :: around) hDepth
  rw [complete] at hKey
  induction rest generalizing e done with
  | nil =>
    have hLast : complete e.2.settled (.entry 0 done e.1.settled :: around) =
        complete (.map (done.reverse ++ settledEntries [e])) around := by
      rw [complete, List.reverse_cons, settledEntries, settledEntries]
    rw [encodeEntries, encodeEntries, List.append_nil, ← hLast]
    exact hKey.trans hValue
  | cons d rest ih =>
    have hRest := ih (fun c hc => hKeys c (List.mem_cons_of_mem e hc))
      (fun c hc => hValues c (List.mem_cons_of_mem e hc)) ((e.1.settled, e.2.settled) :: done)
      (hKeys d (by simp) _ hDepth) (hValues d (by simp) _ hDepth)
    rw [List.reverse_cons, List.append_assoc, List.singleton_append, ← settledEntries] at hRest
    rw [encodeEntries]
    exact (hKey.trans hValue).trans hRest

end Reading

open Reading

theorem delimits_encode_signed (n : Int64) :
    Delimits Head.ofBytes? (encode (.signed n)) (.value (settled (.signed n))) := by
  rw [encode, settled]
  split
  · next h =>
    have hLt : n.toInt < 2 ^ 63 := n.toInt_lt
    have hSame : n.toInt.toNat.toUInt64.toNat = n.toInt.toNat := UInt64.toNat_ofNat_of_lt' (by
      change n.toInt.toNat < 2 ^ 64
      omega)
    have hRead := delimits_unsigned n.toInt.toNat.toUInt64
    rw [hSame] at hRead
    rwa [signedBytes, if_pos h]
  · next h => exact delimits_signed (Int.not_le.mp h)

theorem Writable.completes {levels : Nat} {v : MessagePack} (h : Writable levels v) : Completes levels v := by
  induction h with
  | nil => exact fun _ _ => .of_head (delimits_cons rfl) rfl
  | bool b => cases b <;> exact fun _ _ => .of_head (delimits_cons rfl) rfl
  | unsigned n => exact fun _ _ => .of_head (delimits_unsigned n) rfl
  | signed n =>
    intro around _
    refine .of_head (delimits_encode_signed n) ?_
    rw [settled]
    split <;> rfl
  | float x => exact fun _ _ => .of_head (delimits_float x) rfl
  | text h => exact fun _ _ => .of_head (delimits_text h) rfl
  | binary h => exact fun _ _ => .of_head (delimits_binary h) rfl
  | extension hKind h =>
    intro around hDepth
    exact .of_head (delimits_extension hKind h) (if_pos (by omega))
  | @array levels items h hItems ih =>
    intro around hDepth
    have hRoom : around.length < maxDepth := by omega
    rw [encode, settled]
    cases items with
    | nil =>
      rw [encodeItems, List.append_nil, settledItems]
      exact .of_head (delimits_array h) (if_pos hRoom)
    | cons v rest =>
      have hHead : (within around).Takes (arrayHead (v :: rest).length) (within (.array rest.length [] :: around)) :=
        .of_head (delimits_array h) (if_pos hRoom)
      exact hHead.trans (takes_items ih (by omega) [])
  | @map levels entries h hKeys hValues ihKeys ihValues =>
    intro around hDepth
    have hRoom : around.length < maxDepth := by omega
    rw [encode, settled]
    cases entries with
    | nil =>
      rw [encodeEntries, List.append_nil, settledEntries]
      exact .of_head (delimits_map h) (if_pos hRoom)
    | cons e rest =>
      have hHead : (within around).Takes (mapHead (e :: rest).length) (within (.key rest.length [] :: around)) :=
        .of_head (delimits_map h) (if_pos hRoom)
      exact hHead.trans (takes_entries ihKeys ihValues (by omega) [])

/-! ## Values at the start of some bytes -/

section

variable {levels : Nat} {v : MessagePack} (h : Writable levels v) (hLevels : levels ≤ maxDepth)
include h hLevels

theorem takes_encode : (within []).Takes v.encode (.done v.settled) :=
  h.completes [] (by rwa [List.length_nil, Nat.zero_add])

/-- What follows a value is not looked at. -/
theorem decode?_encode (t : Bytes) : decode? (v.encode ++ t) = some v.settled := by
  rw [← finish_done v.settled t]
  exact (takes_encode h hLevels).whole t

/-- A value that was cut short is none. -/
theorem decode?_cut {p : Bytes} (hPrefix : p <+: v.encode) (hNe : p ≠ v.encode) : decode? p = none :=
  (takes_encode h hLevels).cut hPrefix hNe

end

end TrackLayout.MessagePack
