import Mathlib.Data.List.Perm.Basic
import Mathlib.Data.List.Nodup

/-!
# Tallies and majorities

Values are counted in a table, one entry for each value. A winner is a value whose count reaches
what is required. If that is more than half of all values, there is at most one, and any order of
the table finds it (`winner_perm`).
-/

namespace Tally

open List

variable {α : Type*} [DecidableEq α] {xs : List α} {m : List (α × Nat)} {a b : α} {n : Nat}

/-- Count one more of a value. -/
def incr : List (α × Nat) → α → List (α × Nat)
  | [], a => [(a, 1)]
  | (b, n) :: m, a => if b = a then (b, n + 1) :: m else (b, n) :: incr m a

/-- The table of the values of a list. -/
def tally (xs : List α) : List (α × Nat) := xs.foldl incr []

/-- The first entry that reaches the count. -/
def winner (m : List (α × Nat)) (required : Nat) : Option α :=
  (m.find? fun e => required ≤ e.2).map Prod.fst

theorem map_fst_incr : (incr m a).map Prod.fst =
    if a ∈ m.map Prod.fst then m.map Prod.fst else m.map Prod.fst ++ [a] := by
  induction m with
  | nil => simp [incr]
  | cons e m ih =>
    obtain ⟨b, n⟩ := e
    rw [incr]
    by_cases h : b = a
    · simp [h]
    · rw [if_neg h, map_cons, ih]
      by_cases hm : a ∈ m.map Prod.fst
      · rw [if_pos hm, if_pos (by simpa using .inr (by simpa using hm))]
        rfl
      · rw [if_neg hm, if_neg]
        · rfl
        · rw [map_cons, mem_cons, not_or]
          exact ⟨fun he => h he.symm, hm⟩

theorem nodup_incr (hm : (m.map Prod.fst).Nodup) : ((incr m a).map Prod.fst).Nodup := by
  rw [map_fst_incr]
  split_ifs with h
  · exact hm
  · refine nodup_append.2 ⟨hm, by simp, fun b hb c hc => ?_⟩
    rw [mem_singleton.1 hc]
    rintro rfl
    exact h hb

/-- The count of a value; a missing one has zero. -/
def countOf (m : List (α × Nat)) (a : α) : Nat := (m.lookup a).getD 0

theorem countOf_incr : countOf (incr m a) b = countOf m b + if b = a then 1 else 0 := by
  induction m with
  | nil =>
    by_cases h : b = a
    · simp [incr, countOf, h]
    · simp [incr, countOf, h, lookup_cons, beq_eq_false_iff_ne.2 h]
  | cons e m ih =>
    obtain ⟨c, n⟩ := e
    unfold countOf at ih ⊢
    rw [incr]
    by_cases hc : c = a
    · rw [if_pos hc]
      by_cases hb : b = c
      · simp [hb, hc]
      · have hba : b ≠ a := fun h => hb (h.trans hc.symm)
        simp [lookup_cons, beq_eq_false_iff_ne.2 hb, hba]
    · rw [if_neg hc]
      by_cases hb : b = c
      · have hba : b ≠ a := fun h => hc (hb.symm.trans h)
        simp [hb, hc]
      · simpa [lookup_cons, beq_eq_false_iff_ne.2 hb] using ih

/-- What the table of a list holds, from any table to start with. -/
theorem foldl_incr (hm : (m.map Prod.fst).Nodup) (xs : List α) :
    ((xs.foldl incr m).map Prod.fst).Nodup ∧
    (∀ a, a ∈ (xs.foldl incr m).map Prod.fst ↔ a ∈ m.map Prod.fst ∨ a ∈ xs) ∧
    ∀ a, countOf (xs.foldl incr m) a = countOf m a + xs.count a := by
  induction xs generalizing m with
  | nil => exact ⟨hm, by simp, by simp⟩
  | cons x xs ih =>
    obtain ⟨hnodup, hkeys, hcount⟩ := ih (nodup_incr (a := x) hm)
    refine ⟨hnodup, fun a => ?_, fun a => ?_⟩
    · rw [foldl_cons, hkeys, map_fst_incr, mem_cons]
      split_ifs with h
      · constructor
        · rintro (h' | h')
          · exact .inl h'
          · exact .inr (.inr h')
        · rintro (h' | rfl | h')
          · exact .inl h'
          · exact .inl h
          · exact .inr h'
      · rw [mem_append, mem_singleton, or_assoc]
    · rw [foldl_cons, hcount, countOf_incr, count_cons]
      simp only [beq_iff_eq, eq_comm (a := x)]
      omega

theorem countOf_of_mem (hm : (m.map Prod.fst).Nodup) (h : (a, n) ∈ m) : countOf m a = n := by
  induction m with
  | nil => cases h
  | cons e m ih =>
    obtain ⟨b, k⟩ := e
    rw [map_cons, nodup_cons] at hm
    unfold countOf at ih ⊢
    rcases mem_cons.1 h with he | hmem
    · cases he
      simp
    · have hne : a ≠ b := by
        rintro rfl
        exact hm.1 (mem_map.2 ⟨(a, n), hmem, rfl⟩)
      simpa [lookup_cons, beq_eq_false_iff_ne.2 hne] using ih hm.2 hmem

/-- **The table** has each value of the list with its count. -/
theorem mem_tally : (a, n) ∈ tally xs ↔ a ∈ xs ∧ n = xs.count a := by
  obtain ⟨hnodup, hkeys, hcount⟩ := foldl_incr (m := []) (by simp) xs
  have hc : ∀ {a n}, (a, n) ∈ tally xs → n = xs.count a := fun {a n} h => by
    rw [← countOf_of_mem hnodup h]
    simpa [countOf] using hcount a
  constructor
  · intro h
    refine ⟨?_, hc h⟩
    simpa using (hkeys a).1 (mem_map_of_mem h)
  · rintro ⟨hmem, rfl⟩
    obtain ⟨⟨b, k⟩, he, rfl⟩ := mem_map.1 ((hkeys a).2 (.inr hmem))
    rw [← hc he]
    exact he

theorem count_add_count_le (hab : a ≠ b) : xs.count a + xs.count b ≤ xs.length := by
  induction xs with
  | nil => simp
  | cons x xs ih =>
    rw [count_cons, count_cons, length_cons]
    by_cases ha : x = a
    · have hb : ¬ x = b := fun h => hab (ha.symm.trans h)
      simp [ha, hab]
      omega
    · simp [ha]
      split_ifs <;> omega

variable {required : Nat}

/-- **At most one value** has a count of more than half. -/
theorem majority_unique (h : xs.length < 2 * required) (ha : required ≤ xs.count a)
    (hb : required ≤ xs.count b) : a = b := by
  by_contra hab
  have hle : xs.count a + xs.count b ≤ xs.length := count_add_count_le hab
  omega

theorem winner_eq_some (h : xs.length < 2 * required)
    (hm : m.Perm (tally xs)) : winner m required = some a ↔ a ∈ xs ∧ required ≤ xs.count a := by
  rw [winner, Option.map_eq_some_iff]
  constructor
  · rintro ⟨⟨b, n⟩, hfind, rfl⟩
    obtain ⟨hmem, rfl⟩ := mem_tally.1 (hm.subset (mem_of_find?_eq_some hfind))
    exact ⟨hmem, by simpa using List.find?_some hfind⟩
  · rintro ⟨hmem, hreq⟩
    have hentry : (a, xs.count a) ∈ m := hm.symm.subset (mem_tally.2 ⟨hmem, rfl⟩)
    cases hfind : m.find? fun e => required ≤ e.2 with
    | none => simpa [hreq] using List.find?_eq_none.1 hfind _ hentry
    | some e =>
      obtain ⟨-, he⟩ := mem_tally.1 (hm.subset (mem_of_find?_eq_some hfind))
      have hreq' : required ≤ e.2 := by simpa using List.find?_some hfind
      exact ⟨e, rfl, majority_unique h (he ▸ hreq') hreq⟩

/-- **The order of the table** does not matter. -/
theorem winner_perm (h : xs.length < 2 * required) (hm : m.Perm (tally xs)) :
    winner m required = winner (tally xs) required := by
  refine Option.ext fun a => ?_
  rw [winner_eq_some h hm, winner_eq_some h (.refl _)]

end Tally
