import Mathlib.Algebra.Order.Ring.Int
import Mathlib.Tactic.Linarith

/-!
# Shares in proportion

A total is divided in proportion to weights, each share rounded down. What is lost by rounding is
less than one unit for each of the shares.
-/

namespace ProRata

open List

/-- The shares of `total`, if `whole` stands for all of it. -/
def shares (total whole : Int) (weights : List Int) : List Int :=
  weights.map fun weight => weight * total / whole

variable {total whole weight : Int} {weights : List Int}

/-- Division with fraction bits that are cut off is division. -/
theorem ediv_shift (x : Int) (hwhole : 0 < whole) {unit : Int} (hunit : 0 < unit) :
    x * unit / whole / unit = x / whole := by
  rw [Int.ediv_ediv_of_nonneg (le_of_lt hwhole), Int.mul_ediv_mul_of_pos_left x whole hunit]

theorem share_nonneg (hweight : 0 ≤ weight) (htotal : 0 ≤ total)
    (hwhole : 0 < whole) : 0 ≤ weight * total / whole :=
  Int.ediv_nonneg (mul_nonneg hweight htotal) (le_of_lt hwhole)

theorem share_le (hweight : weight ≤ whole) (htotal : 0 ≤ total)
    (hwhole : 0 < whole) : weight * total / whole ≤ total := by
  refine Int.ediv_le_of_le_mul hwhole ?_
  rw [mul_comm total]
  exact mul_le_mul_of_nonneg_right hweight htotal

/-- The shares against the exact parts, both scaled by the whole. -/
theorem mul_sum_shares_le (hwhole : 0 < whole) (weights : List Int) :
    whole * (shares total whole weights).sum ≤ weights.sum * total := by
  induction weights with
  | nil => simp [shares]
  | cons weight weights ih =>
    have hshare := Int.mul_ediv_self_le (x := weight * total) (ne_of_gt hwhole)
    simp only [shares, map_cons, sum_cons, mul_add, add_mul] at ih ⊢
    omega

theorem mul_sum_lt_shares (hwhole : 0 < whole) (weights : List Int) : weights.sum * total ≤
      whole * (shares total whole weights).sum + (whole - 1) * weights.length := by
  induction weights with
  | nil => simp [shares]
  | cons weight weights ih =>
    have hshare := Int.lt_mul_ediv_self_add (x := weight * total) hwhole
    simp only [shares, map_cons, sum_cons, length_cons, mul_add, add_mul] at ih ⊢
    push_cast
    linarith

/-- **No more than the total is given away.** -/
theorem sum_shares_le (hpos : 0 < weights.sum) : (shares total weights.sum weights).sum ≤ total :=
  le_of_mul_le_mul_left (mul_sum_shares_le hpos weights) hpos

/-- **Less than one unit is lost for each share.** -/
theorem lt_sum_shares (hpos : 0 < weights.sum) :
    total - weights.length < (shares total weights.sum weights).sum := by
  have hlen : 0 < (weights.length : Int) := by
    cases weights with
    | nil => simp at hpos
    | cons => simp
  refine lt_of_mul_lt_mul_left ?_ (le_of_lt hpos)
  have hsum := @mul_sum_lt_shares total _ hpos weights
  nlinarith

end ProRata
