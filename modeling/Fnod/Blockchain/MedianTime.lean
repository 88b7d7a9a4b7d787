import Fnod.Blockchain.ThresholdState
import Fnod.Lib.Median

/-!
# `blockindex.go`: past median times

The past median time of a block is the median of the times of the block and the ten blocks before
it. The time of a block must be later than the past median time of its parent, but it may be earlier
than the time of its parent.

**Theorem (`pastMedianTime_le`).** Along a chain of such blocks the past median time never moves
back, also near the genesis block, where there are fewer than eleven times. The time of a block is
later than the past median time of every block below it.

The times of a chain are a list that advances (`TimesAdvance.advancing`), so `Median` applies.
-/

namespace Fnod

open List Median

/-- The check of the time of a header in `checkBlockHeaderPositional`. The genesis block is valid by
definition. -/
def timeAfterMedian (prevNode : VoteNode) (timestamp : Nat) : Prop :=
  prevNode = [] ∨ calcPastMedianTime prevNode < timestamp

instance (prevNode : VoteNode) (timestamp : Nat) : Decidable (timeAfterMedian prevNode timestamp) :=
  inferInstanceAs (Decidable (_ ∨ _))

/-- The headers of a chain pass the check. -/
def TimesAdvance : VoteNode → Prop
  | [] => True
  | b :: parent => timeAfterMedian parent b.timestamp ∧ TimesAdvance parent

instance TimesAdvance.decidable : (node : VoteNode) → Decidable (TimesAdvance node)
  | [] => isTrue trivial
  | _ :: parent =>
    have := TimesAdvance.decidable parent
    inferInstanceAs (Decidable (_ ∧ _))

section Chain

variable {node anc : VoteNode}

theorem TimesAdvance.of_suffix (h : TimesAdvance node) (hs : anc <:+ node) : TimesAdvance anc := by
  induction node with
  | nil =>
    rw [suffix_nil.1 hs]
    trivial
  | cons b parent ih =>
    rcases suffix_cons_iff.1 hs with rfl | hs
    · exact h
    · exact ih h.2 hs

/-- The past median time is the median of a window of the times. -/
theorem calcPastMedianTime_eq (node : VoteNode) :
    calcPastMedianTime node = median 0 ((node.map VoteBlock.timestamp).take medianTimeBlocks) := by
  unfold calcPastMedianTime median
  dsimp only
  rw [length_insertionSort, map_take]

theorem TimesAdvance.advancing (h : TimesAdvance node) :
    Advancing medianTimeBlocks 0 (node.map VoteBlock.timestamp) := by
  intro time times hs hne
  obtain ⟨before, hbefore⟩ := hs
  obtain ⟨front, rest, rfl, -, hrest⟩ := map_eq_append_iff.1 hbefore.symm
  obtain ⟨b, parent, rfl, rfl, rfl⟩ := map_eq_cons_iff.1 hrest
  rw [← calcPastMedianTime_eq]
  rcases (h.of_suffix (suffix_append front (b :: parent))).1 with hnil | hlt
  · rw [hnil] at hne
    exact absurd rfl hne
  · exact le_of_lt hlt

theorem TimesAdvance.le (h : TimesAdvance node) (hs : anc <:+ node) (hne : anc ≠ []) :
    calcPastMedianTime anc ≤ calcPastMedianTime node := by
  rw [calcPastMedianTime_eq, calcPastMedianTime_eq]
  exact median_le_of_suffix (by decide) h.advancing (hs.map VoteBlock.timestamp)
    (by simpa using hne)

/-- **Theorem.** The past median time never moves back, and the time of a block is later than the
past median time of each block below it. -/
theorem pastMedianTime_le (h : TimesAdvance node) :
    (∀ desc anc, desc <:+ node → anc <:+ desc → anc ≠ [] →
      calcPastMedianTime anc ≤ calcPastMedianTime desc) ∧
    ∀ b parent anc, b :: parent <:+ node → anc <:+ parent → anc ≠ [] →
      calcPastMedianTime anc < b.timestamp := by
  refine ⟨fun desc anc hdesc hanc hne => (h.of_suffix hdesc).le hanc hne, ?_⟩
  intro b parent anc hb hanc hne
  obtain ⟨hlater, hparent⟩ := h.of_suffix hb
  rcases hlater with hnil | hlt
  · rw [hnil] at hanc
    exact absurd (suffix_nil.1 hanc) hne
  · exact (hparent.le hanc hne).trans_lt hlt

end Chain

/-- Blocks with given times, the last one first. -/
def timed (times : List Nat) : VoteNode := times.map fun time => ⟨default, time, 5, 5, []⟩

/-- Thirteen blocks whose times go back and forth. -/
def backAndForth : VoteNode := timed [18, 90, 17, 40, 16, 30, 15, 20, 14, 13, 12, 11, 10]

/-- The last block is earlier than its parent, and still later than all past median times. -/
theorem pastMedianTime_le_backAndForth :
    TimesAdvance backAndForth ∧ calcPastMedianTime backAndForth.tail = 16 ∧
    calcPastMedianTime backAndForth.tail ≤ calcPastMedianTime backAndForth ∧
    ∀ anc, anc <:+ backAndForth.tail → anc ≠ [] → calcPastMedianTime anc < 18 := by
  have h : TimesAdvance backAndForth := by decide +kernel
  obtain ⟨hle, hlt⟩ := pastMedianTime_le h
  refine ⟨h, by decide +kernel, ?_, ?_⟩
  · exact hle _ _ suffix_rfl (tail_suffix _) (by decide)
  · intro anc hanc hne
    exact hlt _ _ anc suffix_rfl hanc hne

end Fnod
