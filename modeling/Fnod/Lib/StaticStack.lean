import Mathlib.Data.List.Basic
import Mathlib.Tactic.Common

/-!
# A stack with a static part

The lowest items of the stack are kept in an array of fixed size, the others in a slice that grows
by one item at a time and never shrinks. A slot is cleared when its item is popped.

* `Holds` — the stack holds a list, its top first.
* `holds_empty`, `Holds.push`, `Holds.pop`, `Holds.item`, `Holds.bottom` — the operations are those
  of the list.
-/

namespace StaticStack

open List

/-- A stack whose static part has `depth` slots. An item that is counted has a slot. -/
structure Stack (depth : Nat) (α : Type) where
  index : Nat
  items : Nat → Option α
  overflow : List (Option α)
  bounded : index ≤ depth + overflow.length

namespace Stack

variable {depth : Nat} {α : Type}

def empty : Stack depth α := ⟨0, fun _ => none, [], Nat.zero_le _⟩

variable (s : Stack depth α)

def len : Nat := s.index

/-- The slot with a number, counted from the bottom. -/
def slot (i : Nat) : Option α :=
  if i < depth then s.items i else (s.overflow[i - depth]?).getD none

/-- The item that is `n` items below the top. -/
def item (n : Int) : Option α :=
  let index := (s.index : Int) - n - 1
  if index < 0 then none else s.slot index.toNat

def push (x : α) : Stack depth α :=
  if h : s.index < depth then
    { s with
      items := Function.update s.items s.index (some x)
      index := s.index + 1
      bounded := by omega }
  else
    let index := s.index - depth
    let overflow :=
      if index + 1 > s.overflow.length then
        s.overflow ++ List.replicate (index + 1 - s.overflow.length) none
      else s.overflow
    { s with
      overflow := overflow.set index (some x)
      index := s.index + 1
      bounded := by
        rw [length_set]
        show s.index + 1 ≤ depth + (if _ then _ else _ : List (Option α)).length
        split_ifs with hcap
        · rw [length_append, length_replicate]
          omega
        · omega }

def pop : Option α × Stack depth α :=
  if s.index = 0 then (none, s)
  else
    let index := s.index - 1
    if index < depth then
      (s.items index,
        { s with
          items := Function.update s.items index none
          index := index
          bounded := Nat.le_trans (Nat.sub_le _ _) s.bounded })
    else
      ((s.overflow[index - depth]?).getD none,
        { s with
          overflow := s.overflow.set (index - depth) none
          index := index
          bounded := by
            rw [length_set]
            exact Nat.le_trans (Nat.sub_le _ _) s.bounded })

/-- The stack holds the items of a list, the top first, and the other slots are clear. -/
structure Holds (s : Stack depth α) (l : List α) : Prop where
  index : s.index = l.length
  slots : ∀ i, s.slot i = l.reverse[i]?

variable {s : Stack depth α} {l : List α} {x : α}

theorem holds_empty : (empty : Stack depth α).Holds [] where
  index := rfl
  slots i := by simp [slot, empty]

/-- Writing to a slot of the slice, which is extended if the slot is not there yet. -/
theorem getD_set_grown {overflow : List (Option α)} {j : Nat} (hj : j ≤ overflow.length) (i : Nat) :
    ((((if j + 1 > overflow.length then
        overflow ++ replicate (j + 1 - overflow.length) none
      else overflow).set j (some x))[i]?).getD none) =
      if i = j then some x else (overflow[i]?).getD none := by
  by_cases hi : i = j
  · subst hi
    rw [if_pos rfl]
    split_ifs with hcap
    · rw [getElem?_set_self (by rw [length_append, length_replicate]; omega)]
      rfl
    · rw [getElem?_set_self (by omega)]
      rfl
  · rw [if_neg hi, getElem?_set_ne (Ne.symm hi)]
    split_ifs with hcap
    · by_cases hlt : i < overflow.length
      · rw [getElem?_append_left hlt]
      · rw [getElem?_append_right (Nat.le_of_not_lt hlt), getElem?_replicate,
          getElem?_eq_none (Nat.le_of_not_lt hlt)]
        split_ifs <;> rfl
    · rfl

theorem slot_push (hs : s.Holds l) (i : Nat) :
    (s.push x).slot i = if i = l.length then some x else s.slot i := by
  have hindex := hs.index
  have hbounded := s.bounded
  unfold push
  by_cases hdepth : s.index < depth
  · rw [dif_pos hdepth]
    by_cases heq : i = l.length
    · subst heq
      simp [slot, hindex ▸ hdepth, hindex]
    · have hne : i ≠ s.index := fun hc => heq (hc.trans hindex)
      simp [slot, Function.update_of_ne hne, heq]
  · rw [dif_neg hdepth]
    unfold slot
    dsimp only
    by_cases hi : i < depth
    · rw [if_pos hi, if_pos hi, if_neg (by omega)]
    · rw [if_neg hi, if_neg hi, getD_set_grown (by omega)]
      exact if_congr (by omega) rfl rfl

theorem Holds.push (hs : s.Holds l) (x : α) : (s.push x).Holds (x :: l) where
  index := by
    unfold Stack.push
    split_ifs <;> simp [hs.index]
  slots i := by
    rw [slot_push hs, hs.slots, reverse_cons, getElem?_append, length_reverse]
    by_cases hi : i < l.length
    · rw [if_neg (Nat.ne_of_lt hi), if_pos hi]
    · rw [if_neg hi]
      by_cases heq : i = l.length
      · simp [heq]
      · have hgt : 1 ≤ i - l.length := by omega
        rw [if_neg heq, getElem?_eq_none (by simpa using hi),
          getElem?_eq_none (by simpa using hgt)]

theorem Holds.item (hs : s.Holds l) (n : Nat) : s.item n = l[n]? := by
  unfold Stack.item
  dsimp only
  rw [hs.index]
  by_cases hn : n < l.length
  · rw [if_neg (by omega), hs.slots, getElem?_reverse (by omega)]
    congr 1
    omega
  · rw [if_pos (by omega), getElem?_eq_none (by omega)]

theorem Holds.bottom (hs : s.Holds l) : s.item ((s.len : Int) - 1) = l.getLast? := by
  unfold Stack.item Stack.len
  dsimp only
  rw [if_neg (by omega), hs.slots, getLast?_eq_head?_reverse, head?_eq_getElem?]
  congr 1
  omega

theorem pop_spec (hs : s.Holds (x :: l)) : s.pop.1 = s.slot l.length ∧
    s.pop.2.index = l.length ∧
      ∀ i, s.pop.2.slot i = if i = l.length then none else s.slot i := by
  have hindex : s.index - 1 = l.length := by rw [hs.index]; rfl
  unfold pop
  rw [if_neg (by rw [hs.index]; exact Nat.succ_ne_zero _)]
  dsimp only
  split_ifs with hdepth
  · refine ⟨by rw [slot, ← hindex, if_pos hdepth], hindex, fun i => ?_⟩
    by_cases heq : i = l.length
    · subst heq
      simp [slot, hindex ▸ hdepth, hindex]
    · have hne : i ≠ s.index - 1 := fun hc => heq (hc.trans hindex)
      simp [slot, Function.update_of_ne hne, heq]
  · refine ⟨by rw [slot, ← hindex, if_neg hdepth], hindex, fun i => ?_⟩
    unfold slot
    dsimp only
    by_cases hi : i < depth
    · rw [if_pos hi, if_pos hi, if_neg (by omega)]
    · rw [if_neg hi, if_neg hi]
      by_cases heq : i = l.length
      · rw [if_pos heq, heq, hindex, getElem?_set, if_pos rfl]
        split_ifs <;> rfl
      · rw [if_neg heq, getElem?_set_ne (by omega)]

theorem Holds.pop (hs : s.Holds (x :: l)) : ∃ s', s.pop = (some x, s') ∧ s'.Holds l := by
  obtain ⟨htop, hindex, hslot⟩ := pop_spec hs
  have hfst : s.pop.1 = some x := by
    rw [htop, hs.slots]
    simp
  refine ⟨s.pop.2, Prod.ext hfst rfl, hindex, fun i => ?_⟩
  rw [hslot, hs.slots, reverse_cons, getElem?_append, length_reverse]
  by_cases hi : i < l.length
  · rw [if_neg (Nat.ne_of_lt hi), if_pos hi]
  · rw [getElem?_eq_none (by simpa using hi)]
    by_cases heq : i = l.length
    · rw [if_pos heq]
    · rw [if_neg heq, if_neg hi, getElem?_eq_none]
      rw [length_singleton]
      omega

end Stack

end StaticStack
