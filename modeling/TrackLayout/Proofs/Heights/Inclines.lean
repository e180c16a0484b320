import TrackLayout.Proofs.Heights.Agreement
import TrackLayout.Proofs.Heights.Simultaneous

/-!
# Both ends judge an incline alike

A connection gives either end a rule about its incline, seen from that end.
From the stop the range is turned round and so are the heights, so in exact
arithmetic the two rules charge the same and suggest opposite changes. Where
the range is not too narrow they charge at most one just inside of it.
-/
set_option autoImplicit false

namespace TrackLayout

open Exact

/-- The two rules that a connection stands for in exact arithmetic, at the heights of its ends. -/
structure Connection.Alike (inclines : InclineRange ℝ) (length a b : ℝ) (atStart atStop : HeightRule ℝ)
    (elevation : NodeId → Option ℝ) : Prop where
  cost : atStop.cost b elevation = atStart.cost a elevation
  correction : atStop.correction b elevation = -atStart.correction a elevation
  le_one_iff : HeightRule.leastHalfWidth ≤ (inclines.greatest - inclines.least) / 2 →
    (atStart.cost a elevation ≤ 1 ↔ inclines.least ≤ (b - a) / length ∧ (b - a) / length ≤ inclines.greatest)

namespace HeightRule

theorem meanIncline_reversed (r : InclineRange ℝ) : meanIncline r.reversed = -meanIncline r := by
  rw [meanIncline_eq, meanIncline_eq]
  change (-r.greatest + -r.least) / 2 = _
  ring

theorem halfWidth_reversed (r : InclineRange ℝ) : halfWidth r.reversed = halfWidth r := by
  rw [halfWidth_eq, halfWidth_eq]
  change max ((-r.least - -r.greatest) / 2) _ = _
  rw [neg_sub_neg]

section Ends

variable {elevation : NodeId → Option ℝ} {start stop : NodeId} {a b length : ℝ} (hLength : 0 < length)
  (inclines : InclineRange ℝ) (weight : ℝ)

include hLength

theorem rates_atStart (hStop : elevation stop = some b) :
    (Connection.inclineRule inclines .start stop length weight).Rates elevation
      (b - meanIncline inclines * length) (length * halfWidth inclines)⁻¹ 4 :=
  rates_inclineBetween hStop hLength inclines weight

theorem rates_atStop (hStart : elevation start = some a) :
    (Connection.inclineRule inclines .stop start length weight).Rates elevation
      (a + meanIncline inclines * length) (length * halfWidth inclines)⁻¹ 4 := by
  have hRates := rates_inclineBetween hStart hLength inclines.reversed weight
  rw [meanIncline_reversed, halfWidth_reversed, neg_mul, sub_neg_eq_add] at hRates
  exact hRates

/-- A cost of one is reached at the ends of the range, unless it was widened. -/
theorem cost_le_one_iff (hStop : elevation stop = some b)
    (hWide : leastHalfWidth ≤ (inclines.greatest - inclines.least) / 2) :
    (Connection.inclineRule inclines .start stop length weight).cost a elevation ≤ 1 ↔
      inclines.least ≤ (b - a) / length ∧ (b - a) / length ≤ inclines.greatest := by
  have hHalf : halfWidth inclines = (inclines.greatest - inclines.least) / 2 := by
    rw [halfWidth_eq, max_eq_left hWide]
  have hArea : 0 < length * halfWidth inclines := mul_pos hLength (halfWidth_pos inclines)
  have hShare : b - meanIncline inclines * length - a = ((b - a) / length - meanIncline inclines) * length := by
    field_simp
    ring
  rw [(rates_atStart hLength inclines weight hStop).cost, pow_le_one_iff_of_nonneg (by positivity) four_ne_zero,
    ← div_eq_mul_inv, div_le_one hArea, hShare, abs_mul, abs_of_pos hLength, mul_comm,
    mul_le_mul_iff_right₀ hLength, abs_le, hHalf, meanIncline_eq]
  constructor
  · rintro ⟨hLow, hHigh⟩
    constructor <;> linarith
  · rintro ⟨hLow, hHigh⟩
    constructor <;> linarith

theorem alike_inclineRule (hStart : elevation start = some a) (hStop : elevation stop = some b) :
    Connection.Alike inclines length a b (Connection.inclineRule inclines .start stop length weight)
      (Connection.inclineRule inclines .stop start length weight) elevation := by
  have hRatesStart := rates_atStart hLength inclines weight hStop
  have hRatesStop := rates_atStop hLength inclines weight hStart
  have hOpposite : a + meanIncline inclines * length - b = -(b - meanIncline inclines * length - a) := by ring
  refine ⟨?_, ?_, cost_le_one_iff hLength inclines weight hStop⟩
  · rw [hRatesStop.cost, hRatesStart.cost, hOpposite, abs_neg]
  · rw [hRatesStop.correction, hRatesStart.correction, hOpposite]

end Ends

end HeightRule

namespace Network

/-- Deriving heights gives every node the incline rules of the connections that end there, each as seen
from the node, and no others. In exact arithmetic the rules of the two ends are alike. -/
theorem alike_deriveByEdits (ops : List Operation) (ground : Ground) (s : RuleSettings) :
    (∃ d, (run ops).deriveByEdits ground s = .ok d ∧ ∀ n j, (run ops).node? n = some j →
      ∃ added, (d.network.node? n).map (·.rules) = some (j.rules ++ added) ∧
        ∀ inclines other length weight, .inclineBetween inclines other length weight ∈ added ↔
          ∃ id c here, (run ops).connection? id = some c ∧ c.node here = n ∧
            .inclineBetween inclines other length weight =
              Connection.inclineRule c.trackType.inclines here (c.node here.other) c.length s.inclineWeight) ∧
    ∀ (inclines : InclineRange ℝ) (length weight : ℝ) (start stop : NodeId) (elevation : NodeId → Option ℝ)
      (a b : ℝ), 0 < length → elevation start = some a → elevation stop = some b →
        Connection.Alike inclines length a b (Connection.inclineRule inclines .start stop length weight)
          (Connection.inclineRule inclines .stop start length weight) elevation := by
  have hNet := wellFormed_run ops
  constructor
  · obtain ⟨d, hd, hAdded⟩ := exists_deriveByEdits (run ops) ground s
    exact ⟨d, hd, fun n j hj => ⟨_, hAdded n j hj, fun _ _ _ _ => hNet.inclineBetween_mem_derive hj⟩⟩
  · intro inclines length weight start stop elevation a b hLength hStart hStop
    exact HeightRule.alike_inclineRule hLength inclines weight hStart hStop

/-- Ten metres of a waterway that fall by three are within the range of either end. -/
theorem alike_weir :
    let elevation : NodeId → Option ℝ := fun n => if n = ⟨0⟩ then some 3 else some 0
    let atStop : HeightRule ℝ := Connection.inclineRule ⟨-0.3, 0⟩ .stop ⟨0⟩ 10 1
    atStop.cost 0 elevation ≤ 1 ∧ atStop.correction 0 elevation = 1.5 := by
  intro elevation atStop
  have hAlike := (alike_deriveByEdits [] (fun _ => 0.0) {}).2 ⟨-0.3, 0⟩ 10 1 ⟨0⟩ ⟨1⟩ elevation 3 0 (by norm_num)
    rfl rfl
  constructor
  · rw [hAlike.cost, hAlike.le_one_iff (by unfold HeightRule.leastHalfWidth; norm_num)]
    norm_num
  · rw [hAlike.correction]
    change -(0 - (-0.3 + 0) / 2.0 * 10 - 3) = _
    norm_num

end Network

end TrackLayout
