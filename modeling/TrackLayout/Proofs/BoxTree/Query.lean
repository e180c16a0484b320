import Mathlib.Data.List.Basic
import TrackLayout.BoxTree
import TrackLayout.Proofs.Geometry.Containment

/-!
# Queries of box trees

A tree holds the items that were inserted, each under its own box, and a query
finds those whose boxes meet the rectangle. Every branch that an insertion
builds has children and the union of their boxes, so a branch that a query
passes over has nothing to find. How a branch was split decides only the order
in which items are found.
-/
set_option autoImplicit false

namespace TrackLayout

variable {α : Type}

namespace BoxNode

mutual

/-- The items below a node with their own boxes, from the first child to the last. -/
def entries : BoxNode α → List (Rect × α)
  | .leaf b item => [(b, item)]
  | .branch _ children => entriesAll children

def entriesAll : List (BoxNode α) → List (Rect × α)
  | [] => []
  | c :: rest => c.entries ++ entriesAll rest

end

theorem entriesAll_eq_flatMap (children : List (BoxNode α)) :
    entriesAll children = children.flatMap entries := by
  induction children with
  | nil => rfl
  | cons c rest ih => rw [entriesAll, ih, List.flatMap_cons]

/-- Leaves have defined boxes; branches have children and the union of their boxes. -/
inductive Tight : BoxNode α → Prop
  | leaf {box : Rect} (item : α) (defined : box.Defined) : Tight (.leaf box item)
  | branch {children : List (BoxNode α)} (inhabited : children ≠ [])
      (tight : ∀ c ∈ children, Tight c) : Tight (ofChildren children)

/-! ## Unions of boxes -/

theorem defined_foldl_union {children : List (BoxNode α)} (h : ∀ c ∈ children, c.box.Defined)
    {r : Rect} (hr : r.Defined) : (children.foldl (fun r c => r.union c.box) r).Defined := by
  induction children generalizing r with
  | nil => exact hr
  | cons c rest ih =>
    obtain ⟨hc, hRest⟩ := List.forall_mem_cons.mp h
    exact ih hRest (hr.union hc)

theorem within_foldl_union {children : List (BoxNode α)} (h : ∀ c ∈ children, c.box.Defined)
    {r : Rect} (hr : r.Defined) :
    r.Within (children.foldl (fun r c => r.union c.box) r) ∧
      ∀ c ∈ children, c.box.Within (children.foldl (fun r c => r.union c.box) r) := by
  induction children generalizing r with
  | nil => exact ⟨.refl hr, by simp⟩
  | cons c rest ih =>
    obtain ⟨hc, hRest⟩ := List.forall_mem_cons.mp h
    obtain ⟨hUnion, hAll⟩ := ih hRest (hr.union hc)
    refine ⟨(Rect.within_union_left hr hc).trans hUnion, List.forall_mem_cons.mpr ⟨?_, hAll⟩⟩
    exact (Rect.within_union_right hr hc).trans hUnion

theorem defined_union {children : List (BoxNode α)} (hNe : children ≠ [])
    (h : ∀ c ∈ children, c.box.Defined) : (union children).Defined := by
  obtain ⟨c, rest, rfl⟩ := List.exists_cons_of_ne_nil hNe
  obtain ⟨hc, hRest⟩ := List.forall_mem_cons.mp h
  exact defined_foldl_union hRest hc

theorem within_union {children : List (BoxNode α)} (h : ∀ c ∈ children, c.box.Defined) :
    ∀ c ∈ children, c.box.Within (union children) := by
  cases children with
  | nil => simp
  | cons c rest =>
    obtain ⟨hc, hRest⟩ := List.forall_mem_cons.mp h
    exact List.forall_mem_cons.mpr (within_foldl_union hRest hc)

theorem Tight.defined {n : BoxNode α} (h : n.Tight) : n.box.Defined := by
  induction h with
  | leaf item defined => exact defined
  | branch inhabited _ ih => exact defined_union inhabited ih

/-- The box of a node covers every item below it. -/
theorem Tight.within_box {n : BoxNode α} (h : n.Tight) : ∀ e ∈ n.entries, e.1.Within n.box := by
  induction h with
  | leaf item defined =>
    intro e he
    rw [entries, List.mem_singleton] at he
    exact he ▸ .refl defined
  | @branch children inhabited tight ih =>
    intro e he
    change e ∈ entriesAll children at he
    rw [entriesAll_eq_flatMap] at he
    obtain ⟨c, hc, hec⟩ := List.mem_flatMap.mp he
    exact (ih c hc e hec).trans (within_union (fun d hd => (tight d hd).defined) c hc)

/-! ## Queries -/

/-- The items of entries whose boxes meet a rectangle. -/
def meeting (r : Rect) (entries : List (Rect × α)) : List α :=
  (entries.filter fun e => e.1.intersects r).map (·.2)

theorem meeting_append (r : Rect) (xs ys : List (Rect × α)) :
    meeting r (xs ++ ys) = meeting r xs ++ meeting r ys := by
  simp [meeting]

theorem Tight.query_eq {n : BoxNode α} (h : n.Tight) (r : Rect) : n.query r = meeting r n.entries := by
  have hCovered := h.within_box
  induction h with
  | leaf item defined =>
    rw [query, entries, meeting, List.filter_singleton]
    split <;> simp_all
  | @branch children inhabited tight ih =>
    have hAll : queryAll r children = meeting r (entriesAll children) := by
      clear hCovered inhabited
      induction children with
      | nil => rfl
      | cons c rest ihRest =>
        obtain ⟨hc, hRest⟩ := List.forall_mem_cons.mp ih
        obtain ⟨tc, tRest⟩ := List.forall_mem_cons.mp tight
        rw [queryAll, entriesAll, meeting_append, hc tc.within_box, ihRest tRest hRest]
    change (if (union children).intersects r then queryAll r children else []) =
      meeting r (entriesAll children)
    split
    · exact hAll
    · next hApart =>
      rw [meeting, List.filter_eq_nil_iff.mpr, List.map_nil]
      exact fun e he hMeets => hApart ((hCovered e he).intersects hMeets)

end BoxNode

end TrackLayout
