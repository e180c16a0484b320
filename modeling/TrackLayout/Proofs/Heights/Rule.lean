import TrackLayout.HeightRule

/-!
# What height rules look at

A rule looks at the heights of the nodes it names, and at nothing else of a
network. If the nodes are renamed and every name leads to the same height as
before, the rule rates and suggests the same as before. A link names a node
without looking at its height.
-/
set_option autoImplicit false

namespace TrackLayout.HeightRule

variable {α : Type}

/-- The nodes whose heights decide what the rule says. -/
def read : HeightRule α → List NodeId
  | .betweenNodes first second _ _ => [first, second]
  | .inclineBetween _ other _ _ => [other]
  | .fixedHeight .. | .linkedTo _ => []

def rename (ρ : NodeId → NodeId) : HeightRule α → HeightRule α
  | .fixedHeight target tolerance weight => .fixedHeight target tolerance weight
  | .betweenNodes first second ratio weight => .betweenNodes (ρ first) (ρ second) ratio weight
  | .inclineBetween inclines other length weight => .inclineBetween inclines (ρ other) length weight
  | .linkedTo other => .linkedTo (ρ other)

@[simp] theorem rename_id (r : HeightRule α) : r.rename id = r := by
  cases r <;> rfl

theorem linked?_rename (ρ : NodeId → NodeId) (r : HeightRule α) :
    (r.rename ρ).linked? = r.linked?.map ρ := by
  cases r <;> rfl

variable [Scalar α]

theorem weight_rename (ρ : NodeId → NodeId) (r : HeightRule α) : (r.rename ρ).weight = r.weight := by
  cases r <;> rfl

section Renamed

variable {ρ : NodeId → NodeId} {before after : NodeId → Option α} {r : HeightRule α}

theorem correction_rename (h : ∀ n ∈ r.read, after (ρ n) = before n) (height : α) :
    (r.rename ρ).correction height after = r.correction height before := by
  cases r with
  | fixedHeight target tolerance weight => rfl
  | betweenNodes first second ratio weight =>
    have hFirst := h first (by simp [read])
    have hSecond := h second (by simp [read])
    simp only [rename, correction, hFirst, hSecond]
  | inclineBetween inclines other length weight =>
    have hOther := h other (by simp [read])
    simp only [rename, correction, hOther]
  | linkedTo other => rfl

theorem cost_rename (h : ∀ n ∈ r.read, after (ρ n) = before n) (height : α) :
    (r.rename ρ).cost height after = r.cost height before := by
  cases r with
  | fixedHeight target tolerance weight => rfl
  | betweenNodes first second ratio weight =>
    have hFirst := h first (by simp [read])
    have hSecond := h second (by simp [read])
    simp only [rename, cost, hFirst, hSecond]
  | inclineBetween inclines other length weight =>
    have hOther := h other (by simp [read])
    simp only [rename, cost, hOther]
  | linkedTo other => rfl

end Renamed

end TrackLayout.HeightRule
