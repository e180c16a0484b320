import TrackLayout.Proofs.Heights.Bounds
import TrackLayout.Proofs.Heights.Relaxation

/-!
# How far a node moves

The rules of a node may suggest any height at all, even one that is not a
number. A node moves only to a height whose cost was found below some other
cost, and costs are unbounded far from the nodes it has tracks to. So heights
grow by at most a fixed step with every move, whatever was suggested.

Heights stay within `2 ^ 320`. A suggestion is in range up to `2 ^ 326`: in range
two sums of the same numbers differ by less than a step, out of range nothing
that the search tries comes back to the heights. A step is `2 ^ 282`, and all
steps of a pass together are `2 ^ 314`, for a network has at most `2 ^ 32` nodes.
-/
set_option autoImplicit false

namespace TrackLayout

open Binary64

namespace Jump

variable {cost : Float → Float} {height shrink step : Float} {j : Jump}

/-! ## Suggestions in range -/

/-- Two sums of three numbers, added up from either side. -/
theorem regroup {h d s : ℝ} {x y u w : Float} (hx : Nearest x (h + d))
    (hy : ∀ p, Denotes x p → Nearest y (p + s)) (hu : Nearest u (d + s))
    (hw : ∀ q, Denotes u q → Nearest w (h + q)) (hh : |h| ≤ 2 ^ (330 : ℤ)) (hd : |d| ≤ 2 ^ (330 : ℤ))
    (hs : |s| ≤ 2 ^ (330 : ℤ)) :
    ∃ v, Denotes y v ∧ ∃ z, Denotes w z ∧ |z - v| ≤ 2 ^ (281 : ℤ) := by
  have hDouble (n : ℤ) : (2 : ℝ) ^ (n + 1) = 2 ^ n + 2 ^ n := by rw [zpow_add_one₀ (by norm_num), mul_two]
  have hRound {x : Float} {r : ℝ} (hx : Nearest x r) (hr : |r| ≤ 2 ^ (332 : ℤ)) :
      ∃ v, Denotes x v ∧ |v - r| ≤ 2 ^ (279 : ℤ) := by
    obtain ⟨v, hRounds, hv⟩ := hx.exists_rounds
      (hr.trans (zpow_le_zpow_right₀ (by norm_num) (by decide)))
    refine ⟨v, hv, (hRounds.abs_sub_le hr (zpow_le_zpow_right₀ (by norm_num) (by decide))).trans_eq ?_⟩
    rw [← zpow_add₀ (by norm_num)]
    rfl
  have hSum : (2 : ℝ) ^ (332 : ℤ) = 2 ^ (330 : ℤ) + 2 ^ (330 : ℤ) + (2 ^ (330 : ℤ) + 2 ^ (330 : ℤ)) := by
    rw [show (332 : ℤ) = 330 + 1 + 1 by rfl, hDouble, hDouble]
  have hError : (2 : ℝ) ^ (281 : ℤ) = 2 ^ (279 : ℤ) + 2 ^ (279 : ℤ) + (2 ^ (279 : ℤ) + 2 ^ (279 : ℤ)) := by
    rw [show (281 : ℤ) = 279 + 1 + 1 by rfl, hDouble, hDouble]
  have hSmall : (2 : ℝ) ^ (279 : ℤ) ≤ 2 ^ (330 : ℤ) := zpow_le_zpow_right₀ (by norm_num) (by decide)
  have hPos := (two_zpow_pos 279).le
  rw [hError]
  rw [hSum] at hRound
  clear hSum hError
  generalize (2 : ℝ) ^ (330 : ℤ) = big at *
  generalize (2 : ℝ) ^ (279 : ℤ) = small at *
  obtain ⟨hhLow, hhHigh⟩ := abs_le.mp hh
  obtain ⟨hdLow, hdHigh⟩ := abs_le.mp hd
  obtain ⟨hsLow, hsHigh⟩ := abs_le.mp hs
  obtain ⟨p, hp, hpError⟩ := hRound hx (abs_le.mpr (by constructor <;> linarith))
  obtain ⟨q, hq, hqError⟩ := hRound hu (abs_le.mpr (by constructor <;> linarith))
  obtain ⟨hpLow, hpHigh⟩ := abs_le.mp hpError
  obtain ⟨hqLow, hqHigh⟩ := abs_le.mp hqError
  obtain ⟨v, hv, hvError⟩ := hRound (hy p hp) (abs_le.mpr (by constructor <;> linarith))
  obtain ⟨z, hz, hzError⟩ := hRound (hw q hq) (abs_le.mpr (by constructor <;> linarith))
  obtain ⟨hvLow, hvHigh⟩ := abs_le.mp hvError
  obtain ⟨hzLow, hzHigh⟩ := abs_le.mp hzError
  exact ⟨v, hv, z, hz, abs_le.mpr (by constructor <;> linarith)⟩

/-- The height that a jump stands for is close to the one whose cost was kept. -/
def Settles (cost : Float → Float) (height : Float) (j : Jump) : Prop :=
  ∃ rated v z, j.cost = cost rated ∧ Denotes rated v ∧ Denotes (height + j.delta) z ∧
    |z - v| ≤ 2 ^ (281 : ℤ)

theorem multiple_le {k : ℕ} (hk : k ≤ 8) : (k : ℝ) * 2 ^ (326 : ℤ) ≤ 2 ^ (330 : ℤ) := by
  have hCast : (k : ℝ) ≤ 2 ^ (4 : ℤ) := by
    have hBound : (k : ℝ) ≤ 8 := by exact_mod_cast hk
    exact hBound.trans (by norm_num)
  rw [show (330 : ℤ) = 4 + 326 by rfl, zpow_add₀ (by norm_num)]
  exact mul_le_mul_of_nonneg_right hCast (two_zpow_pos _).le

/-- Rounding keeps a sum of a few steps within as many steps. -/
theorem exists_of_multiple {x : Float} {r : ℝ} {k : ℕ} (hk : k ≤ 8) (hx : Nearest x r)
    (hr : |r| ≤ k * 2 ^ (326 : ℤ)) : ∃ v, Denotes x v ∧ |v| ≤ k * 2 ^ (326 : ℤ) := by
  have hBits : |(k : ℤ)| ≤ 2 ^ 53 := by
    rw [Nat.abs_cast]
    omega
  have hMultiple : Representable ((k : ℝ) * 2 ^ (326 : ℤ)) := by
    have hValue := representable_intCast_mul hBits (by decide : -1074 ≤ (326 : ℤ))
    rwa [Int.cast_natCast] at hValue
  have hGreatest : (k : ℝ) * 2 ^ (326 : ℤ) ≤ 2 ^ (1023 : ℤ) :=
    (multiple_le hk).trans (zpow_le_zpow_right₀ (by norm_num) (by decide))
  obtain ⟨hLow, hHigh⟩ := abs_le.mp hr
  obtain ⟨v, hv, hvLow, hvHigh⟩ := hx.inside hMultiple.neg hMultiple hLow hHigh (neg_le_neg hGreatest) hGreatest
  exact ⟨v, hv, abs_le.mpr ⟨hvLow, hvHigh⟩⟩

theorem settles_refine {h : ℝ} (hHeight : Denotes height h) (hh : |h| ≤ 2 ^ (330 : ℤ))
    (hShrink : ∀ step, Near step 326 → Near (step / shrink) 326) (rounds k : ℕ) (hRounds : k + rounds ≤ 8)
    (hStep : Near step 326) (hDelta : ∃ d, Denotes j.delta d ∧ |d| ≤ k * 2 ^ (326 : ℤ))
    (hj : j.Settles cost height) : (refine cost height shrink rounds step j).Settles cost height := by
  -- each round makes the jump longer by one step at most
  induction rounds generalizing k step j with
  | zero => exact hj
  | succ rounds ih =>
    obtain ⟨s, hs, hsBound⟩ := hStep
    obtain ⟨d, hd, hdBound⟩ := hDelta
    have hNext : ((k + 1 : ℕ) : ℝ) * 2 ^ (326 : ℤ) = k * 2 ^ (326 : ℤ) + 2 ^ (326 : ℤ) := by
      rw [Nat.cast_succ, add_mul, one_mul]
    have hMoved {x : Float} {r : ℝ} (hx : Nearest x (d + r)) (hr : |r| ≤ 2 ^ (326 : ℤ)) :
        ∃ v, Denotes x v ∧ |v| ≤ ((k + 1 : ℕ) : ℝ) * 2 ^ (326 : ℤ) := by
      refine exists_of_multiple (by omega) hx ?_
      rw [hNext]
      exact (abs_add_le d r).trans (add_le_add hdBound hr)
    have hd' : |d| ≤ 2 ^ (330 : ℤ) := hdBound.trans (multiple_le (by omega))
    have hs' : |s| ≤ 2 ^ (330 : ℤ) := hsBound.trans (zpow_le_zpow_right₀ (by norm_num) (by decide))
    rw [refine]
    refine ih (k + 1) (by omega) (hShrink step ⟨s, hs, hsBound⟩) ?_ ?_
    · split
      · exact hMoved (hd.add hs) hsBound
      · split
        · exact hMoved (r := -s) (hd.sub hs) ((abs_neg s).trans_le hsBound)
        · refine ⟨d, hd, hdBound.trans ?_⟩
          rw [hNext]
          exact le_add_of_nonneg_right (two_zpow_pos _).le
    · split
      · obtain ⟨v, hv, z, hz, hClose⟩ := regroup (hHeight.add hd) (fun p hp => hp.add hs) (hd.add hs)
          (fun q hq => hHeight.add hq) hh hd' hs'
        exact ⟨_, v, z, rfl, hv, hz, hClose⟩
      · split
        · obtain ⟨v, hv, z, hz, hClose⟩ := regroup (s := -s) (hHeight.add hd) (fun p hp => hp.sub hs)
            (hd.sub hs) (fun q hq => hHeight.add hq) hh hd' ((abs_neg s).trans_le hs')
          exact ⟨_, v, z, rfl, hv, hz, hClose⟩
        · exact hj

theorem settles_of_near {h d c : ℝ} {delta cooling : Float} (hHeight : Denotes height h)
    (hh : |h| ≤ 2 ^ (320 : ℤ)) (hCooling : Denotes cooling c) (hc : |c| ≤ 13 / 16)
    (hDelta : Denotes delta d) (hd : |d| ≤ 2 ^ (326 : ℤ)) :
    (refine cost height 3.0 4 (cooling * delta) ⟨delta, cost (height + delta)⟩).Settles cost height := by
  obtain ⟨w, hw, hOne, -⟩ : Inside (3.0 : Float) ((1 : ℚ) : ℝ) ((3 : ℚ) : ℝ) :=
    inside_rational (by decide +kernel)
  rw [Rat.cast_one, ← zpow_zero 2] at hOne
  have hWide : |h| ≤ 2 ^ (326 : ℤ) := hh.trans (zpow_le_zpow_right₀ (by norm_num) (by decide))
  have hProduct : |c * d| ≤ 2 ^ (326 : ℤ) := by
    rw [abs_mul]
    exact (mul_le_of_le_one_left (abs_nonneg d) (hc.trans (by norm_num))).trans hd
  have hNear : Near height 326 := ⟨h, hHeight, hWide⟩
  have hNear' : Near delta 326 := ⟨d, hDelta, hd⟩
  have hStep : Near (cooling * delta) 326 := (hCooling.mul hDelta).near hProduct (by decide) (by decide)
  obtain ⟨v, hv, -⟩ := hNear.add hNear' (by decide) (by decide)
  have hJump : Settles cost height ⟨delta, cost (height + delta)⟩ := by
    refine ⟨height + delta, v, v, rfl, hv, hv, ?_⟩
    rw [sub_self, abs_zero]
    exact (two_zpow_pos _).le
  have hBound : |d| ≤ (1 : ℕ) * 2 ^ (326 : ℤ) := by
    rwa [Nat.cast_one, one_mul]
  have hShrink (step : Float) (hStep : Near step 326) : Near (step / 3.0) 326 :=
    hStep.div hw hOne (by decide) (by decide)
  have hRange : |h| ≤ 2 ^ (330 : ℤ) := hh.trans (zpow_le_zpow_right₀ (by norm_num) (by decide))
  exact settles_refine hHeight hRange hShrink 4 1 (by decide) hStep ⟨d, hDelta, hBound⟩ hJump

/-! ## Suggestions out of range -/

/-- A search none of whose candidates can be preferred returns the jump it started with. -/
theorem refine_eq_self (tame : Float → Prop) (hShrink : ∀ step, tame step → tame (step / shrink))
    (hUp : ∀ step, tame step → Unbounded (cost (height + j.delta + step)))
    (hDown : ∀ step, tame step → Unbounded (cost (height + j.delta - step))) (rounds : ℕ)
    (hStep : tame step) : refine cost height shrink rounds step j = j := by
  induction rounds generalizing step with
  | zero => rfl
  | succ rounds ih =>
    have hStays : (if cost (height + j.delta + step) < j.cost &&
          cost (height + j.delta + step) < cost (height + j.delta - step) then
        (⟨j.delta + step, cost (height + j.delta + step)⟩ : Jump)
      else if cost (height + j.delta - step) < j.cost then
        ⟨j.delta - step, cost (height + j.delta - step)⟩
      else j) = j := by
      rw [if_neg, if_neg ((hDown step hStep).not_lt _)]
      simp [(hUp step hStep).not_lt]
    rw [refine, hStays]
    exact ih (hShrink step hStep)

/-- Steps do not bring a very large change of height back into range. -/
def Tame (delta step : Float) : Prop :=
  ∀ d s, Denotes delta d → Denotes step s → |s| ≤ 27 / 32 * |d|

variable {delta : Float} {h : ℝ}

theorem tame_mul {cooling : Float} (hFar : Far delta 326)
    (hCooling : ∃ c, Denotes cooling c ∧ |c| ≤ 13 / 16) : Tame delta (cooling * delta) := by
  intro d s hd hs
  obtain ⟨c, hc, hBound⟩ := hCooling
  have hProduct : |c * d| ≤ 13 / 16 * |d| := by
    rw [abs_mul]
    exact mul_le_mul_of_nonneg_right hBound (abs_nonneg d)
  have hLarge : 1 ≤ |d| := (one_le_zpow₀ (by norm_num) (by decide)).trans (hFar d hd)
  have hNormal : (2 : ℝ) ^ (-1022 : ℤ) ≤ 2 ^ (-1 : ℤ) := zpow_le_zpow_right₀ (by norm_num) (by decide)
  have hError := ((hc.mul hd).rounds hs).abs_sub_le hProduct (by
    rw [zpow_neg_one] at hNormal
    linarith)
  have hSmall : (2 : ℝ) ^ (-53 : ℤ) ≤ 1 / 32 := by norm_num
  have hRounding : 13 / 16 * |d| * 2 ^ (-53 : ℤ) ≤ 1 / 32 * |d| := by nlinarith
  have hTriangle := abs_sub_abs_le_abs_sub s (c * d)
  linarith

theorem tame_div (hTame : Tame delta step) {w : ℝ} (hShrink : Denotes shrink w) (hOne : 1 ≤ w) :
    Tame delta (step / shrink) := by
  intro d q hd hq
  obtain ⟨s, hs⟩ := hq.of_div
  have hRounds := (hs.div hShrink (by linarith)).rounds hq
  have hQuotient : |s / w| ≤ |s| := by
    rw [abs_div, abs_of_pos (by linarith : 0 < w)]
    exact div_le_self (abs_nonneg s) hOne
  obtain ⟨hLow, hHigh⟩ := abs_le.mp hQuotient
  have hBound := hs.abs.representable
  exact (abs_le.mpr ⟨hRounds.ge_of_ge hBound.neg hLow, hRounds.le_of_le hBound hHigh⟩).trans (hTame d s hd hs)

theorem large (hFar : Far delta 326) {d : ℝ} (hd : Denotes delta d) : 32 * 2 ^ (321 : ℤ) ≤ |d| := by
  have hPower : (2 : ℝ) ^ (5 : ℤ) * 2 ^ (321 : ℤ) = 2 ^ (326 : ℤ) := (zpow_add₀ (by norm_num) 5 321).symm
  rw [show (32 : ℝ) = 2 ^ (5 : ℤ) by norm_num, hPower]
  exact hFar d hd

section Out

variable (hHeight : Denotes height h) (hh : |h| ≤ 2 ^ (320 : ℤ)) (hFar : Far delta 326)

include hHeight hh hFar

theorem abs_le_abs_sum {d p : ℝ} (hd : Denotes delta d) (hp : Denotes (height + delta) p) :
    31 / 32 * |d| ≤ |p| := by
  have hLarge := hFar d hd
  have hRatio : 64 * |h| ≤ |d| := by
    refine le_trans ?_ hLarge
    calc 64 * |h| ≤ 64 * 2 ^ (320 : ℤ) := mul_le_mul_of_nonneg_left hh (by norm_num)
      _ = 2 ^ (6 : ℤ) * 2 ^ (320 : ℤ) := by norm_num
      _ = 2 ^ (326 : ℤ) := (zpow_add₀ (by norm_num) _ _).symm
  have hOne : 1 ≤ |d| := (one_le_zpow₀ (by norm_num) (by decide)).trans hLarge
  have hSum : |d| - |h| ≤ |h + d| := by
    rw [add_comm]
    have hTriangle := abs_sub_abs_le_abs_sub d (-h)
    rwa [abs_neg, sub_neg_eq_add] at hTriangle
  have hHalf : 1 / 2 ≤ |h + d| := by
    clear hLarge hh hFar
    linarith
  have hNormal : (2 : ℝ) ^ (-1022 : ℤ) ≤ 1 / 2 := by
    rw [one_div, ← zpow_neg_one]
    exact zpow_le_zpow_right₀ (by norm_num) (by decide)
  have hError := ((hHeight.add hd).rounds hp).abs_sub_le le_rfl (hNormal.trans hHalf)
  have hSmall : (2 : ℝ) ^ (-53 : ℤ) ≤ 1 / 64 := by norm_num
  have hRounding := hError.trans (mul_le_mul_of_nonneg_left hSmall (abs_nonneg (h + d)))
  have hTriangle := abs_sub_abs_le_abs_sub (h + d) p
  rw [abs_sub_comm] at hTriangle
  clear hLarge hh hFar hNormal hError hSmall
  linarith

theorem far_jump : Far (height + delta) 321 := by
  intro p hp
  obtain ⟨-, d, hd⟩ := hp.of_add
  have hSum := abs_le_abs_sum hHeight hh hFar hd hp
  have hLarge := large hFar hd
  have hPos := two_zpow_pos 321
  generalize (2 : ℝ) ^ (321 : ℤ) = u at *
  clear hh
  linarith

theorem far_step {p s : ℝ} {x : Float} (hp : Denotes (height + delta) p) (hTame : Tame delta step)
    (hs : Denotes step s) {r : ℝ} (hr : |r| = |s|) (hx : Nearest x (p + r)) : Far x 321 := by
  obtain ⟨-, d, hd⟩ := hp.of_add
  refine hx.far (by decide) ?_
  have hSum := abs_le_abs_sum hHeight hh hFar hd hp
  have hStep := hTame d s hd hs
  have hLarge := large hFar hd
  have hPos := two_zpow_pos 321
  have hTriangle := abs_sub_abs_le_abs_sub p (-r)
  rw [abs_neg, sub_neg_eq_add, hr] at hTriangle
  generalize (2 : ℝ) ^ (321 : ℤ) = u at *
  clear hh
  linarith

theorem far_up (hTame : Tame delta step) : Far (height + delta + step) 321 := by
  intro v hv
  obtain ⟨⟨p, hp⟩, s, hs⟩ := hv.of_add
  exact far_step hHeight hh hFar hp hTame hs rfl (hp.add hs) v hv

theorem far_down (hTame : Tame delta step) : Far (height + delta - step) 321 := by
  intro v hv
  obtain ⟨⟨p, hp⟩, s, hs⟩ := hv.of_sub
  exact far_step hHeight hh hFar hp hTame hs (abs_neg s) (hp.sub hs) v hv

end Out

end Jump

namespace Network

variable {net : Network} {node : NodeId} {bound : ℝ}

/-- Heights are numbers up to a bound, and every node has a track to a node with an elevation. -/
structure Tethered (net : Network) (bound : ℝ) : Prop where
  heights : ∀ n z, net.elevation n = some z → ∃ v, Denotes z v ∧ |v| ≤ bound
  tied : ∀ n j, net.node? n = some j → ∃ inclines other length weight,
    HeightRule.inclineBetween inclines other length weight ∈ j.rules ∧
      HeightRule.Tethers (.inclineBetween inclines other length weight) ∧ (net.elevation other).isSome

theorem Tethered.near_of_cost (hTethered : net.Tethered bound) {j : Junction} (hj : net.node? node = some j)
    {y : Float} (hCost : ¬Unbounded (weightedCost j.rules net.elevation y)) :
    ∃ v, Denotes y v ∧ |v| ≤ bound + 2 ^ (280 : ℤ) := by
  obtain ⟨inclines, other, length, weight, hRule, hTether, hOther⟩ := hTethered.tied node j hj
  obtain ⟨z, hz⟩ := Option.isSome_iff_exists.mp hOther
  obtain ⟨a, ha, hBound⟩ := hTethered.heights other z hz
  -- the incline towards `other` alone rates all heights far from it as infinitely bad
  have hClose : ¬Far (z - y) 280 := fun hFar => hCost <| Unbounded.sum (List.mem_map_of_mem hRule)
    (HeightRule.unbounded_weight_mul_cost hTether hz hFar)
  obtain ⟨d, hd, hLess⟩ := near_of_not_far hClose
  obtain ⟨-, v, hv⟩ := hd.of_sub
  have hDifference : |a - v| < 2 ^ (280 : ℤ) := by
    by_contra hApart
    exact absurd hLess (not_lt.mpr ((ha.sub hv).far (by decide) (not_lt.mp hApart) d hd))
  have hTriangle := abs_sub_abs_le_abs_sub v a
  rw [abs_sub_comm] at hTriangle
  exact ⟨v, hv, by linarith⟩

theorem Tethered.unbounded_of_far (hTethered : net.Tethered bound) (hBound : bound ≤ 2 ^ (320 : ℤ)) {j : Junction}
    (hj : net.node? node = some j) {y : Float} (hFar : Far y 321) :
    Unbounded (weightedCost j.rules net.elevation y) := by
  by_contra hCost
  obtain ⟨v, hv, hNear⟩ := hTethered.near_of_cost hj hCost
  have hLess : (2 : ℝ) ^ (280 : ℤ) < 2 ^ (320 : ℤ) := zpow_lt_zpow_right₀ (by norm_num) (by decide)
  have hDouble : (2 : ℝ) ^ (321 : ℤ) = 2 ^ (320 : ℤ) + 2 ^ (320 : ℤ) := by
    rw [show (321 : ℤ) = 320 + 1 by rfl, zpow_add_one₀ (by norm_num), mul_two]
  have hLarge := hFar v hv
  rw [hDouble] at hLarge
  exact absurd (hLarge.trans hNear) (not_le.mpr (add_lt_add_of_le_of_lt hBound hLess))

section Moves

variable {height cooling : Float} {h c : ℝ} (hTethered : net.Tethered bound) (hBound : bound ≤ 2 ^ (320 : ℤ))
  {j : Junction} (hj : net.node? node = some j) (hHeight : Denotes height h) (hh : |h| ≤ 2 ^ (320 : ℤ))
  (hCooling : Denotes cooling c) (hc : |c| ≤ 13 / 16)

include hTethered hBound hj hHeight hh hCooling hc

/-- What the search returns for a suggestion out of range is not preferred to anything. -/
theorem Tethered.not_lt_of_far {delta : Float} (hFar : Far delta 326) (rounds : ℕ) (other : Float) :
    ¬(Jump.refine (weightedCost j.rules net.elevation) height 3.0 rounds (cooling * delta)
      ⟨delta, weightedCost j.rules net.elevation (height + delta)⟩).cost < other := by
  obtain ⟨w, hw, hOne, -⟩ : Inside (3.0 : Float) ((1 : ℚ) : ℝ) ((3 : ℚ) : ℝ) :=
    inside_rational (by decide +kernel)
  rw [Rat.cast_one] at hOne
  have hStays : Jump.refine (weightedCost j.rules net.elevation) height 3.0 rounds (cooling * delta)
      ⟨delta, weightedCost j.rules net.elevation (height + delta)⟩ =
        ⟨delta, weightedCost j.rules net.elevation (height + delta)⟩ := by
    refine Jump.refine_eq_self (Jump.Tame delta) ?_ ?_ ?_ rounds (Jump.tame_mul hFar ⟨c, hCooling, hc⟩)
    · exact fun step hTame => Jump.tame_div hTame hw hOne
    · exact fun step hTame => hTethered.unbounded_of_far hBound hj (Jump.far_up hHeight hh hFar hTame)
    · exact fun step hTame => hTethered.unbounded_of_far hBound hj (Jump.far_down hHeight hh hFar hTame)
  rw [hStays]
  exact (hTethered.unbounded_of_far hBound hj (Jump.far_jump hHeight hh hFar)).not_lt other

end Moves

/-- A node moves a fixed step beyond the bound at most. -/
theorem Tethered.near_improved (hTethered : net.Tethered bound) (hBound : bound ≤ 2 ^ (320 : ℤ)) {j : Junction}
    (hj : net.node? node = some j) {height cooling new : Float} (hHeight : net.elevation node = some height)
    (hCooling : ∃ c, Denotes cooling c ∧ |c| ≤ 13 / 16)
    (hNew : net.improved? {} node cooling height = some new) :
    ∃ v, Denotes new v ∧ |v| ≤ bound + 2 ^ (282 : ℤ) := by
  obtain ⟨h, hh, hhBound⟩ := hTethered.heights node height hHeight
  obtain ⟨c, hc, hcBound⟩ := hCooling
  have hRules : net.rulesRating {} node = j.rules := by
    rw [rulesRating, hj]
    rfl
  rw [improved?, hRules] at hNew
  generalize meanCorrection j.rules net.elevation height = delta at hNew
  dsimp only at hNew
  split at hNew
  · next hLess =>
    -- nothing comes of a suggestion out of range; in range the height that was rated is a close one
    by_cases hFar : Far delta 326
    · exact absurd hLess (hTethered.not_lt_of_far hBound hj hh (hhBound.trans hBound) hc hcBound hFar 4 _)
    · obtain ⟨d, hd, hdBound⟩ := near_of_not_far hFar
      obtain ⟨rated, v, z, hCost, hRated, hz, hClose⟩ :=
        Jump.settles_of_near hh (hhBound.trans hBound) hc hcBound hd hdBound.le
      cases hNew
      have hPreferred : ¬Unbounded (weightedCost j.rules net.elevation rated) := fun hUnbounded =>
        hUnbounded.not_lt _ (hCost ▸ hLess)
      obtain ⟨v', hv', hNear⟩ := hTethered.near_of_cost hj hPreferred
      rw [hv'.unique hRated] at hNear
      refine ⟨z, hz, ?_⟩
      have hSum : (2 : ℝ) ^ (280 : ℤ) + 2 ^ (281 : ℤ) ≤ 2 ^ (282 : ℤ) := by
        rw [show (282 : ℤ) = 281 + 1 by rfl, zpow_add_one₀ (by norm_num), mul_two]
        exact add_le_add_left (zpow_le_zpow_right₀ (by norm_num) (by decide)) _
      calc |z| = |v + (z - v)| := by rw [add_sub_cancel]
        _ ≤ |v| + |z - v| := abs_add_le v (z - v)
        _ ≤ bound + 2 ^ (280 : ℤ) + 2 ^ (281 : ℤ) := add_le_add hNear hClose
        _ = bound + (2 ^ (280 : ℤ) + 2 ^ (281 : ℤ)) := add_assoc _ _ _
        _ ≤ bound + 2 ^ (282 : ℤ) := add_le_add_right hSum bound
  · cases hNew

theorem Tethered.mono {wider : ℝ} (hTethered : net.Tethered bound) (h : bound ≤ wider) : net.Tethered wider where
  heights n z hz := by
    obtain ⟨v, hv, hLe⟩ := hTethered.heights n z hz
    exact ⟨v, hv, hLe.trans h⟩
  tied := hTethered.tied

theorem elevation_withElevation (n : NodeId) (new : Float) :
    (net.modifyNode node (·.withElevation new)).elevation n =
      if n = node then (net.node? n).map fun _ => new else net.elevation n := by
  rw [elevation, node?_withElevation]
  split
  · cases net.node? n <;> rfl
  · rfl

/-- The rules of a node stay when some node moves. -/
theorem exists_rules_of_withElevation {n : NodeId} {new : Float} {j : Junction}
    (hj : (net.modifyNode node (·.withElevation new)).node? n = some j) :
    ∃ i, net.node? n = some i ∧ i.rules = j.rules := by
  have hSame : ((net.modifyNode node (·.withElevation new)).node? n).map (·.rules) =
      (net.node? n).map (·.rules) := rules_withElevation n
  rw [hj, Option.map_some] at hSame
  exact Option.map_eq_some_iff.mp hSame.symm

theorem Tethered.withElevation (hTethered : net.Tethered bound) {wider : ℝ} (hWider : bound ≤ wider)
    {new : Float} (hNew : ∃ v, Denotes new v ∧ |v| ≤ wider) :
    (net.modifyNode node (·.withElevation new)).Tethered wider := by
  refine ⟨fun n z hz => ?_, fun n j hj => ?_⟩
  · rw [elevation_withElevation] at hz
    split at hz
    · obtain ⟨j, -, rfl⟩ := Option.map_eq_some_iff.mp hz
      exact hNew
    · exact (hTethered.mono hWider).heights n z hz
  · obtain ⟨i, hi, hSame⟩ := exists_rules_of_withElevation hj
    obtain ⟨inclines, other, length, weight, hRule, hTether, hOther⟩ := hTethered.tied n i hi
    refine ⟨inclines, other, length, weight, hSame ▸ hRule, hTether, ?_⟩
    rw [elevation_withElevation]
    split
    · cases hNode : net.node? other with
      | none =>
        rw [elevation, hNode] at hOther
        cases hOther
      | some o => rfl
    · exact hOther

theorem Tethered.relaxNode (hTethered : net.Tethered bound) (hBound : bound ≤ 2 ^ (320 : ℤ)) {cooling : Float}
    (hCooling : ∃ c, Denotes cooling c ∧ |c| ≤ 13 / 16) (node : NodeId) :
    (net.relaxNode {} cooling node).2.Tethered (bound + 2 ^ (282 : ℤ)) := by
  have hWider : bound ≤ bound + 2 ^ (282 : ℤ) := le_add_of_nonneg_right (two_zpow_pos _).le
  rw [Network.relaxNode]
  split
  · next new hMove =>
    obtain ⟨height, hHeight, hNew⟩ := Option.bind_eq_some_iff.mp hMove
    obtain ⟨j, hj, -⟩ := Option.bind_eq_some_iff.mp hHeight
    exact hTethered.withElevation hWider (hTethered.near_improved hBound hj hHeight hCooling hNew)
  · exact hTethered.mono hWider

theorem Tethered.foldl_relaxNode {cooling : Float} (hCooling : ∃ c, Denotes cooling c ∧ |c| ≤ 13 / 16)
    (ids : List NodeId) (pass : Pass) (hTethered : pass.network.Tethered bound)
    (hBound : bound + ids.length * 2 ^ (282 : ℤ) ≤ 2 ^ (320 : ℤ)) :
    (ids.foldl (fun pass id => match pass.network.relaxNode {} cooling id with
      | (moved, network) => ⟨pass.moves + moved.toNat, network⟩) pass).network.Tethered
        (bound + ids.length * 2 ^ (282 : ℤ)) := by
  induction ids generalizing pass bound with
  | nil =>
    rw [List.length_nil, Nat.cast_zero, zero_mul, add_zero]
    exact hTethered
  | cons id ids ih =>
    have hStep := (two_zpow_pos 282).le
    have hRest : 0 ≤ (ids.length : ℝ) * 2 ^ (282 : ℤ) := mul_nonneg (Nat.cast_nonneg _) hStep
    have hSplit : bound + ((id :: ids).length : ℝ) * 2 ^ (282 : ℤ) =
        bound + 2 ^ (282 : ℤ) + ids.length * 2 ^ (282 : ℤ) := by
      rw [List.length_cons, Nat.cast_succ, add_mul, one_mul, add_assoc, add_comm (2 ^ (282 : ℤ))]
    rw [hSplit] at hBound ⊢
    rw [List.foldl_cons]
    refine ih _ (hTethered.relaxNode ?_ hCooling id) hBound
    generalize (2 : ℝ) ^ (282 : ℤ) = step at *
    linarith

theorem length_ids_le {kind : IdKind} {α : Type} (t : Table kind α) : (t.ids.length : ℝ) ≤ 2 ^ (32 : ℤ) := by
  have hLength : t.ids.length ≤ 2 ^ 32 := by
    rw [← Table.size_eq_length]
    exact (List.length_filterMap_le _ _).trans t.slots_lt.le
  exact_mod_cast hLength

/-- A pass widens the bound once for every node. -/
theorem Tethered.nextPass (hTethered : net.Tethered bound) {cooling : Float}
    (hCooling : ∃ c, Denotes cooling c ∧ |c| ≤ 13 / 16)
    (hBound : bound + 2 ^ (314 : ℤ) ≤ 2 ^ (320 : ℤ)) :
    (net.nextPass {} cooling).network.Tethered (bound + 2 ^ (314 : ℤ)) := by
  have hGrowth : (net.nodes.ids.length : ℝ) * 2 ^ (282 : ℤ) ≤ 2 ^ (314 : ℤ) := by
    rw [show (314 : ℤ) = 32 + 282 by rfl, zpow_add₀ (by norm_num)]
    exact mul_le_mul_of_nonneg_right (length_ids_le _) (two_zpow_pos _).le
  refine (Tethered.foldl_relaxNode hCooling net.nodes.ids ⟨0, net⟩ hTethered ?_).mono ?_
  · exact (add_le_add_right hGrowth bound).trans hBound
  · exact add_le_add_right hGrowth bound

theorem cooling_mul_decay {cooling : Float} (hCooling : ∃ c, Denotes cooling c ∧ |c| ≤ 13 / 16) :
    ∃ c, Denotes (cooling * 0.95) c ∧ |c| ≤ 13 / 16 := by
  obtain ⟨c, hc, hBound⟩ := hCooling
  obtain ⟨w, hw, hPos, hOne⟩ : Inside (0.95 : Float) ((0 : ℚ) : ℝ) ((1 : ℚ) : ℝ) :=
    inside_rational (by decide +kernel)
  rw [Rat.cast_zero] at hPos
  rw [Rat.cast_one] at hOne
  have hLimit : Representable (13 / 16) := ⟨13, -4, by decide, by decide, by norm_num⟩
  have hProduct : |c * w| ≤ 13 / 16 := by
    rw [abs_mul, abs_of_nonneg hPos]
    exact (mul_le_of_le_one_right (abs_nonneg c) hOne).trans hBound
  obtain ⟨hLow, hHigh⟩ := abs_le.mp hProduct
  obtain ⟨v, hv, hvLow, hvHigh⟩ := (hc.mul hw).inside_of_le_two hLimit.neg hLimit hLow hHigh (by norm_num)
    (by norm_num)
  exact ⟨v, hv, abs_le.mpr ⟨hvLow, hvHigh⟩⟩

theorem Tethered.of_mem_passes {goOn : GoOn} {rounds finished : ℕ} {cooling : Float} {pass : Pass}
    (hTethered : net.Tethered bound) (hCooling : ∃ c, Denotes cooling c ∧ |c| ≤ 13 / 16)
    (hBound : bound + rounds * 2 ^ (314 : ℤ) ≤ 2 ^ (320 : ℤ))
    (h : pass ∈ net.passes {} goOn rounds finished cooling) :
    pass.network.Tethered (bound + rounds * 2 ^ (314 : ℤ)) := by
  induction rounds generalizing net bound finished cooling with
  | zero => cases h
  | succ rounds ih =>
    have hStep := (two_zpow_pos 314).le
    have hRest : 0 ≤ (rounds : ℝ) * 2 ^ (314 : ℤ) := mul_nonneg (Nat.cast_nonneg _) hStep
    have hSplit : bound + ((rounds + 1 : ℕ) : ℝ) * 2 ^ (314 : ℤ) =
        bound + 2 ^ (314 : ℤ) + rounds * 2 ^ (314 : ℤ) := by
      rw [Nat.cast_succ, add_mul, one_mul, add_assoc, add_comm (2 ^ (314 : ℤ))]
    rw [hSplit] at hBound ⊢
    have hNext : (net.nextPass {} cooling).network.Tethered (bound + 2 ^ (314 : ℤ)) :=
      hTethered.nextPass hCooling ((le_add_of_nonneg_right hRest).trans hBound)
    rw [passes] at h
    rcases List.mem_cons.mp h with rfl | hLater
    · exact hNext.mono (le_add_of_nonneg_right hRest)
    · split at hLater
      · exact ih hNext (cooling_mul_decay hCooling) hBound hLater
      · cases hLater

/-- Twenty passes stay within a large power of two. -/
theorem Tethered.relaxWhile (hTethered : net.Tethered (2 ^ (314 : ℤ))) (goOn : GoOn) :
    (net.relaxWhile {} goOn).network.Tethered (2 ^ (320 : ℤ)) := by
  have hTotal : (2 : ℝ) ^ (314 : ℤ) + (20 : ℕ) * 2 ^ (314 : ℤ) ≤ 2 ^ (320 : ℤ) := by
    rw [show (320 : ℤ) = 6 + 314 by rfl, zpow_add₀ (by norm_num)]
    have hPos := (two_zpow_pos 314).le
    generalize (2 : ℝ) ^ (314 : ℤ) = unit at *
    norm_num
    linarith
  have hCooling : ∃ c, Denotes (0.8 : Float) c ∧ |c| ≤ 13 / 16 := by
    obtain ⟨c, hc, hLow, hHigh⟩ : Inside (0.8 : Float) ((-(13 / 16) : ℚ) : ℝ) ((13 / 16 : ℚ) : ℝ) :=
      inside_rational (by decide +kernel)
    push_cast at hLow hHigh
    exact ⟨c, hc, abs_le.mpr ⟨hLow, hHigh⟩⟩
  rw [Network.relaxWhile, Relaxation.network]
  cases hLast : (net.passes {} goOn (20 : UInt64).toNat 0 0.8).getLast? with
  | none => exact hTethered.mono (zpow_le_zpow_right₀ (by norm_num) (by decide))
  | some pass => exact (hTethered.of_mem_passes hCooling hTotal (List.mem_of_getLast? hLast)).mono hTotal

/-! ## Costs that are numbers -/

/-- Heights do not go far, and all rules are moderate. -/
structure Calm (net : Network) (bound : ℝ) : Prop extends net.Tethered bound where
  moderate : ∀ n j, net.node? n = some j → ∀ r ∈ j.rules, r.Moderate

theorem Calm.mono {wider : ℝ} (hCalm : net.Calm bound) (h : bound ≤ wider) : net.Calm wider :=
  ⟨hCalm.toTethered.mono h, hCalm.moderate⟩

theorem Calm.relaxWhile (hCalm : net.Calm (2 ^ (314 : ℤ))) (goOn : GoOn) :
    (net.relaxWhile {} goOn).network.Calm (2 ^ (320 : ℤ)) := by
  refine ⟨hCalm.toTethered.relaxWhile goOn, ?_⟩
  refine relaxWhile_invariant (P := fun net => ∀ n j, net.node? n = some j → ∀ r ∈ j.rules, r.Moderate)
    ?_ {} goOn hCalm.moderate
  intro net m _ new _ h n j hj r hr
  obtain ⟨i, hi, hSame⟩ := exists_rules_of_withElevation hj
  exact h n i hi r (hSame ▸ hr)

theorem Calm.isNaN_costSum (hCalm : net.Calm (2 ^ (320 : ℤ))) : net.costSum.isNaN = false := by
  refine (Amount.sum fun x hx => ?_).isNaN
  obtain ⟨j, hj, hCost⟩ := List.mem_filterMap.mp hx
  obtain ⟨height, hHeight, rfl⟩ := Option.map_eq_some_iff.mp hCost
  obtain ⟨n, hn⟩ := Table.mem_values.mp hj
  have hElevation : net.elevation n = some height := Option.bind_eq_some_iff.mpr ⟨j, hn, hHeight⟩
  refine Amount.sum fun y hy => ?_
  obtain ⟨r, hr, rfl⟩ := List.mem_map.mp hy
  exact HeightRule.amount_weight_mul_cost (hCalm.moderate n j hn r hr)
    (hCalm.heights n height hElevation) hCalm.heights

end Network

end TrackLayout
