import Fnod.Lib.BlockTree
import Mathlib.Data.List.Sort

/-!
# Medians of a sliding window

The median of a list is the middle element of the sorted list, the upper one of the two if the
length is even. A list grows at the front, and its median is that of the first `w` elements.

**Theorem (`median_le_of_suffix`).** If each new element is at least the median before, then the
median never decreases, whatever the order of the elements, from the first element on.

The argument counts: `x` is at most the median iff at most half of the elements are smaller
(`le_median_iff`). A new element that is not smaller than `x` can only push one that is out of the
window.
-/

namespace Fnod.Median

open List

variable {α : Type*} [LinearOrder α]

/-- The median of a list, with a default for the empty list. -/
def median (d : α) (l : List α) : α := (l.insertionSort (· ≤ ·)).getD (l.length / 2) d

/-- In a sorted list, the element at `k` is not below `x` iff at most `k` elements are. -/
theorem le_getD_iff {s : List α} (hs : s.Pairwise (· ≤ ·)) {k : Nat} (hk : k < s.length) (d x : α) :
    x ≤ s.getD k d ↔ s.countP (· < x) ≤ k := by
  induction s generalizing k with
  | nil => cases hk
  | cons a s ih =>
    obtain ⟨ha, hs⟩ := pairwise_cons.1 hs
    rw [countP_cons]
    by_cases hax : a < x
    · cases k with
      | zero => simp [hax]
      | succ k =>
        rw [getD_cons_succ, ih hs (Nat.lt_of_succ_lt_succ hk)]
        simp [hax]
    · have hle := le_of_not_gt hax
      have hzero : s.countP (· < x) = 0 := by
        rw [countP_eq_zero]
        intro b hb
        simpa using hle.trans (ha b hb)
      have hget : x ≤ (a :: s).getD k d := by
        rw [getD_eq_getElem?_getD, List.getElem?_eq_getElem hk, Option.getD_some]
        rcases mem_cons.1 (getElem_mem hk) with heq | hmem
        · rw [heq]
          exact hle
        · exact hle.trans (ha _ hmem)
      refine iff_of_true hget ?_
      simp [hzero, hax]

/-- **Medians count**: at most half of the elements are below the median. -/
theorem le_median_iff {l : List α} (hl : l ≠ []) (d x : α) :
    x ≤ median d l ↔ l.countP (· < x) ≤ l.length / 2 := by
  have hpos := length_pos_iff.2 hl
  have hperm := perm_insertionSort (· ≤ ·) l
  rw [median, le_getD_iff (pairwise_insertionSort (· ≤ ·) l)
    (by rw [length_insertionSort]; omega), hperm.countP_eq]

/-! ## The window -/

section Window

variable {w : Nat} {d : α} {l l' : List α}

/-- **One element more.** -/
theorem median_take_le_cons (hw : 0 < w) (hl : l ≠ []) {x : α}
    (h : median d (l.take w) ≤ x) : median d (l.take w) ≤ median d ((x :: l).take w) := by
  obtain ⟨w, rfl⟩ : ∃ v, w = v + 1 := ⟨w - 1, by omega⟩
  have hne : l.take (w + 1) ≠ [] := by simpa using hl
  have hold := (le_median_iff hne d _).1 le_rfl
  generalize median d (l.take (w + 1)) = m at h hold
  rw [le_median_iff (by simp), take_succ_cons, countP_cons]
  have hsub : (l.take w).countP (· < m) ≤ (l.take (w + 1)).countP (· < m) :=
    (take_sublist_take_left (Nat.le_succ w)).countP_le
  have hx : ¬ x < m := not_lt.2 h
  simp only [length_take, length_cons, hx, decide_false] at hold ⊢
  have hhalf : min (w + 1) l.length / 2 ≤ (min w l.length + 1) / 2 :=
    Nat.div_le_div_right (by omega)
  simp only [Bool.false_eq_true, if_false, Nat.add_zero]
  omega

/-- Each element is not below the median before. -/
def Advancing (w : Nat) (d : α) (l : List α) : Prop :=
  ∀ x l', x :: l' <:+ l → l' ≠ [] → median d (l'.take w) ≤ x

/-- **The median never decreases.** -/
theorem median_le_of_suffix (hw : 0 < w) (h : Advancing w d l) (hs : l' <:+ l)
    (hne : l' ≠ []) : median d (l'.take w) ≤ median d (l.take w) := by
  exact BlockTree.le_of_suffix (f := fun l => median d (l.take w))
    (fun x l' hx hl => median_take_le_cons hw hl (h x l' hx hl)) hs hne

end Window

end Fnod.Median
