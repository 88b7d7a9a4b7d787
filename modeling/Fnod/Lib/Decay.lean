import Mathlib.Algebra.BigOperators.Intervals
import Mathlib.Algebra.BigOperators.Ring.Finset
import Mathlib.Algebra.Order.BigOperators.Group.Finset
import Mathlib.Tactic.Linarith
import Mathlib.Tactic.Ring

/-!
# Decay by intervals

A quantity that is constant over intervals of equal length, and that shrinks at least by a fixed
ratio from one interval to the next. Its sum over whole and partial intervals is a sum over the
intervals (`sum_range_div`), and the sum over the intervals stays below the geometric bound, however
many there are (`sum_decay_le`).
-/

namespace Decay

open Finset

variable {f : ℕ → ℤ} {len : ℕ}

/-- What is constant over intervals, summed over whole intervals and a part of the next. -/
theorem sum_range_div (f : ℕ → ℤ) (hlen : 0 < len) (n : ℕ) :
    ∑ k ∈ range (n + 1), f (k / len) =
      len * ∑ i ∈ range (n / len), f i + (n % len + 1 : ℕ) * f (n / len) := by
  have hpart : ∀ q r, r ≤ len → ∑ j ∈ range r, f ((len * q + j) / len) = r * f q := by
    intro q r hr
    have hconst : ∀ j ∈ range r, f ((len * q + j) / len) = f q := by
      intro j hj
      have hjlen : j < len := lt_of_lt_of_le (mem_range.1 hj) hr
      rw [Nat.mul_add_div hlen, Nat.div_eq_of_lt hjlen, add_zero]
    rw [sum_congr rfl hconst, sum_const, card_range, nsmul_eq_mul]
  have hwhole : ∀ q, ∑ k ∈ range (len * q), f (k / len) = len * ∑ i ∈ range q, f i := by
    intro q
    induction q with
    | zero => simp
    | succ q ih => rw [Nat.mul_succ, sum_range_add, ih, hpart q len le_rfl, sum_range_succ, mul_add]
  have hsplit : n + 1 = len * (n / len) + (n % len + 1) := by
    rw [← Nat.add_assoc, Nat.div_add_mod]
  conv_lhs => rw [hsplit, sum_range_add, hwhole, hpart _ _ (Nat.mod_lt n hlen)]

/-- If every term is at most `a / b` of the one before it, the sum telescopes. -/
theorem sum_decay_le {a b : ℤ} (hstep : ∀ i, b * f (i + 1) ≤ a * f i) (q : ℕ) :
    (b - a) * ∑ i ∈ range q, f i ≤ b * (f 0 - f q) := by
  induction q with
  | zero => simp
  | succ q ih =>
    have hq := hstep q
    rw [sum_range_succ, mul_add]
    linarith

end Decay
