import Mathlib.Algebra.Order.Ring.Int
import Mathlib.Data.Nat.Log
import Mathlib.Tactic.Common

/-!
# Rounding down to leading digits

A number is rounded down to a multiple of a power of two that depends on the position of its leading
bit. If the power is never above that position, the leading bit stays (`log2_down`), so rounding
twice is rounding once (`down_down`), and rounding keeps the order (`down_mono`).
-/

namespace Rounding

variable {k : Nat → Nat} {n m : Nat}

/-- `n` with the bits below position `k` of the leading bit cleared. -/
def down (k : Nat → Nat) (n : Nat) : Nat := n / 2 ^ k n.log2 * 2 ^ k n.log2

@[simp] theorem down_zero (k : Nat → Nat) : down k 0 = 0 := by simp [down]

theorem down_le (k : Nat → Nat) (n : Nat) : down k n ≤ n := Nat.div_mul_le_self _ _

theorem lt_down_add (k : Nat → Nat) (n : Nat) : n < down k n + 2 ^ k n.log2 := by
  have h := Nat.lt_div_mul_add (a := n) (Nat.two_pow_pos (k n.log2))
  exact h

/-- Multiples of the power below a number are below the rounded number. -/
theorem le_down_of_dvd (hdvd : 2 ^ k n.log2 ∣ m) (hle : m ≤ n) : m ≤ down k n := by
  obtain ⟨c, rfl⟩ := hdvd
  rw [mul_comm] at hle ⊢
  exact Nat.mul_le_mul_right _ ((Nat.le_div_iff_mul_le (Nat.two_pow_pos _)).2 hle)

section Leading

variable (hk : ∀ s, k s ≤ s)

include hk

theorem two_pow_log2_le_down (hn : n ≠ 0) : 2 ^ n.log2 ≤ down k n :=
  le_down_of_dvd (Nat.pow_dvd_pow 2 (hk _)) (Nat.log2_self_le hn)

theorem down_ne_zero (hn : n ≠ 0) : down k n ≠ 0 := by
  have h := two_pow_log2_le_down hk hn
  have := Nat.two_pow_pos n.log2
  omega

/-- The leading bit stays. -/
theorem log2_down (n : Nat) : (down k n).log2 = n.log2 := by
  by_cases hn : n = 0
  · simp [hn]
  have hne := down_ne_zero hk hn
  apply le_antisymm
  · exact Nat.le_of_lt_succ ((Nat.log2_lt hne).2 ((down_le k n).trans_lt Nat.lt_log2_self))
  · exact (Nat.le_log2 hne).2 (two_pow_log2_le_down hk hn)

theorem down_down (n : Nat) : down k (down k n) = down k n := by
  have hlog := log2_down hk n
  rw [down, hlog]
  exact Nat.div_mul_cancel (Nat.dvd_mul_left _ _)

theorem down_mono : Monotone (down k) := by
  intro m n hmn
  by_cases hm : m = 0
  · simp [hm]
  have hn : n ≠ 0 := by omega
  have hlog : m.log2 ≤ n.log2 := (Nat.le_log2 hn).2 ((Nat.log2_self_le hm).trans hmn)
  rcases Nat.lt_or_eq_of_le hlog with hlt | heq
  · calc down k m ≤ m := down_le k m
      _ ≤ 2 ^ n.log2 := (Nat.lt_log2_self.trans_le (Nat.pow_le_pow_right Nat.two_pos hlt)).le
      _ ≤ down k n := two_pow_log2_le_down hk hn
  · apply le_down_of_dvd
    · rw [← heq]
      exact Nat.dvd_mul_left _ _
    · exact (down_le k m).trans hmn

end Leading

end Rounding
