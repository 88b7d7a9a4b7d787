import Mathlib.Data.List.Sort

/-!
# Lists ranked by a key

An unstable sort (`UnstableSort`) may return equal elements in any order, so what it returns for one
list is any ranked permutation of it (`UnstableSort.exists_run_eq`). To put one of two equal
elements first, rank by a key that favours it (`favour`).
-/

namespace Ranked

open List

variable {α : Type*} {key : α → Nat} {l l' xs : List α} {a b c x y : α} {k : Nat}

/-- No element is before one with a greater key. -/
def Ranks (key : α → Nat) (l : List α) : Prop := l.Pairwise fun x y => key y ≤ key x

/-- A sort that leaves the order of equal elements open. -/
structure UnstableSort (key : α → Nat) where
  run : List α → List α
  perm : ∀ l, (run l).Perm l
  ranks : ∀ l, Ranks key (run l)

/-- The sort by insertion. -/
def UnstableSort.insertion (key : α → Nat) : UnstableSort key where
  run := List.insertionSort fun x y => key y ≤ key x
  perm := perm_insertionSort _
  ranks :=
    haveI : Std.Total fun x y => key y ≤ key x := ⟨fun x y => le_total (key y) (key x)⟩
    haveI : IsTrans α fun x y => key y ≤ key x := ⟨fun _ _ _ hxy hyz => le_trans hyz hxy⟩
    pairwise_insertionSort _

theorem exists_ranked (key : α → Nat) (l : List α) : ∃ l', l'.Perm l ∧ Ranks key l' :=
  ⟨_, (UnstableSort.insertion key).perm l, (UnstableSort.insertion key).ranks l⟩

open Classical in
/-- Every ranked permutation of a list may be returned for it. -/
theorem UnstableSort.exists_run_eq (hperm : l'.Perm l) (hranks : Ranks key l') :
    ∃ sort : UnstableSort key, sort.run l = l' := by
  let some := UnstableSort.insertion key
  refine ⟨⟨Function.update some.run l l', ?_, ?_⟩, Function.update_self ..⟩
  · intro x
    by_cases hx : x = l
    · subst hx
      rwa [Function.update_self]
    · rw [Function.update_of_ne hx]
      exact some.perm x
  · intro x
    by_cases hx : x = l
    · subst hx
      rwa [Function.update_self]
    · rw [Function.update_of_ne hx]
      exact some.ranks x

/-- One of two elements of a list is before the other. -/
theorem before_or_before {r : α → α → Prop} (h : l.Pairwise r) (ha : a ∈ l) (hb : b ∈ l)
    (hne : a ≠ b) : r a b ∨ r b a := by
  induction l with
  | nil => cases ha
  | cons x l ih =>
    obtain ⟨hx, hl⟩ := pairwise_cons.1 h
    rcases mem_cons.1 ha with rfl | ha'
    · exact .inl (hx b ((mem_cons.1 hb).resolve_left (Ne.symm hne)))
    · rcases mem_cons.1 hb with rfl | hb'
      · exact .inr (hx a ha')
      · exact ih hl ha' hb'

/-- An element with a key greater than all others is the first. -/
theorem Ranks.head?_eq (h : Ranks key l) (ha : a ∈ l) (hmax : ∀ x ∈ l, x ≠ a → key x < key a) :
    l.head? = some a := by
  cases l with
  | nil => cases ha
  | cons x l =>
    by_cases hx : x = a
    · rw [hx, List.head?_cons]
    · have htail := (mem_cons.1 ha).resolve_left (Ne.symm hx)
      have hle := (pairwise_cons.1 h).1 a htail
      have hlt := hmax x (mem_cons_self ..) hx
      omega

section Favour

variable [DecidableEq α]

/-- A key that puts `b` before the elements with its key. -/
def favour (key : α → Nat) (b x : α) : Nat := 2 * key x + if x = b then 1 else 0

theorem key_le_of_favour_le (h : favour key b a ≤ favour key b c) : key a ≤ key c := by
  unfold favour at h
  split_ifs at h <;> omega

theorem favour_lt (hle : key a ≤ key b) (hne : a ≠ b) : favour key b a < favour key b b := by
  unfold favour
  rw [if_neg hne, if_pos rfl]
  omega

theorem Ranks.of_favour (h : Ranks (favour key b) l) : Ranks key l := h.imp key_le_of_favour_le

/-- If every ranked permutation is ranked by another key, too, the keys agree on the order. -/
theorem key_le_of_ranks {key' : α → Nat} (hall : ∀ l', l'.Perm l → Ranks key l' → Ranks key' l')
    (ha : a ∈ l) (hb : b ∈ l) (hle : key a ≤ key b) : key' a ≤ key' b := by
  by_cases hne : a = b
  · rw [hne]
  obtain ⟨l', hperm, hranks⟩ := exists_ranked (favour key b) l
  have hboth := pairwise_and_iff.2 ⟨hranks, hall l' hperm hranks.of_favour⟩
  have hlt := favour_lt hle hne
  rcases before_or_before hboth (hperm.mem_iff.2 ha) (hperm.mem_iff.2 hb) hne with h | h
  · omega
  · exact h.2

theorem ranks_favour_of_const {n : Nat} (hconst : ∀ x ∈ l, key x = n) (hb : b ∉ l.tail) :
    Ranks (favour key b) l := by
  have hle : ∀ {y z}, y ∈ l → z ∈ l → y ≠ b → favour key b y ≤ favour key b z := by
    intro y z hy hz hne
    unfold favour
    rw [hconst y hy, hconst z hz, if_neg hne]
    omega
  cases l with
  | nil => exact List.Pairwise.nil
  | cons x l =>
    rw [tail_cons] at hb
    refine pairwise_cons.2 ⟨fun y hy => ?_, pairwise_of_forall_mem_list fun z hz y hy => ?_⟩
    · exact hle (mem_cons_of_mem _ hy) (mem_cons_self ..) (ne_of_mem_of_not_mem hy hb)
    · exact hle (mem_cons_of_mem _ hy) (mem_cons_of_mem _ hz) (ne_of_mem_of_not_mem hy hb)

end Favour

/-! ## Moving an element to the front -/

/-- The element at `pos` changes places with the first. -/
def swapFirst (l : List α) (pos : Nat) : List α :=
  match l[pos]?, l with
  | some y, x :: _ => (l.set pos x).set 0 y
  | _, _ => l

theorem swapFirst_cons_succ (h : xs[k]? = some y) :
    swapFirst (x :: xs) (k + 1) = y :: xs.set k x := by
  simp [swapFirst, h]

theorem perm_set (h : xs[k]? = some y) : (y :: xs.set k x).Perm (x :: xs) := by
  induction xs generalizing k with
  | nil => simp at h
  | cons z xs ih =>
    cases k with
    | zero =>
      cases h
      exact List.Perm.swap ..
    | succ k =>
      rw [set_cons_succ]
      exact (List.Perm.swap ..).trans (((ih h).cons z).trans (List.Perm.swap ..))

end Ranked
