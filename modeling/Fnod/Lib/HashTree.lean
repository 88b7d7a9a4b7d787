import Mathlib.Data.List.Nodup
import Mathlib.Logic.Function.Iterate
import Mathlib.Tactic.Ring

/-!
# Hash trees

The root of a list is computed level by level. A level up, each node is made of two neighbours, and
the last element of a level of odd length is paired with itself (`pairUp`).

* A tree may be kept in one array, level after level: two elements are read at a time, and the node
  above them is written to the next free place (`runQueue`). Places without an element are empty.
  The last place then holds the root (`getLast?_runQueue`).
* The root commits to the list (`eq_of_root_eq`): two lists of the same depth without repetitions
  that have the same root are equal, if no two different pairs give the same node. A list with
  repetitions may have the root of another one, as `[a, b, c]` and `[a, b, c, c]`.
-/

namespace Fnod.HashTree

open List

variable {H : Type*} (node : H → H → H)

/-- The pairs of a level. -/
def pairs : List H → List (H × H)
  | [] => []
  | [a] => [(a, a)]
  | a :: b :: l => (a, b) :: pairs l

/-- The level above. -/
def pairUp (l : List H) : List H := (pairs l).map fun p => node p.1 p.2

theorem length_pairs : (l : List H) → (pairs l).length = (l.length + 1) / 2
  | [] => by simp [pairs]
  | [_] => by simp [pairs]
  | _ :: _ :: l => by
    rw [pairs, length_cons, length_pairs l, length_cons, length_cons]
    omega

theorem length_pairUp (l : List H) : (pairUp node l).length = (l.length + 1) / 2 := by
  rw [pairUp, length_map, length_pairs]

/-- The root of a list: neighbours are paired until one element is left. -/
def root : List H → Option H
  | [] => none
  | [a] => some a
  | a :: b :: l => root (pairUp node (a :: b :: l))
termination_by l => l.length
decreasing_by
  rw [length_pairUp]
  simp only [length_cons]
  omega

/-- A list has `k` levels below its root. -/
def Depth (k : Nat) (l : List H) : Prop := l.length ≤ 2 ^ k ∧ 2 ^ k < 2 * l.length

variable {l l' : List H} {k : Nat}

theorem Depth.pairUp (h : Depth (k + 1) l) : Depth k (pairUp node l) := by
  unfold Depth at h ⊢
  rw [length_pairUp]
  rw [pow_succ] at h
  omega

theorem Depth.two_le (h : Depth (k + 1) l) : 2 ≤ l.length := by
  have hpos := Nat.one_le_two_pow (n := k)
  unfold Depth at h
  rw [pow_succ] at h
  omega

theorem root_eq_iterate (h : Depth k l) :
    ∃ a, (pairUp node)^[k] l = [a] ∧ root node l = some a := by
  induction k generalizing l with
  | zero =>
    have hone : l.length = 1 := by
      unfold Depth at h
      omega
    obtain ⟨a, rfl⟩ := length_eq_one_iff.1 hone
    exact ⟨a, rfl, by rw [root]⟩
  | succ k ih =>
    obtain ⟨a, hiter, hroot⟩ := ih (h.pairUp node)
    match l, h.two_le, hiter, hroot with
    | b :: c :: l, _, hiter, hroot => exact ⟨a, hiter, by rw [root, hroot]⟩

/-! ## The tree in an array -/

section Array

/-- The node above two places. -/
def combine : Option H → Option H → Option H
  | none, _ => none
  | some a, none => some (node a a)
  | some a, some b => some (node a b)

/-- The nodes above the places of a level. -/
def combineAll : List (Option H) → List (Option H)
  | a :: b :: q => combine node a b :: combineAll q
  | _ => []

/-- Two places are read from the front and one is written to the end, a number of times. -/
def runQueue : Nat → List (Option H) → List (Option H)
  | n + 1, a :: b :: q => a :: b :: runQueue n (q ++ [combine node a b])
  | _, q => q

/-- A level, with empty places up to a power of two. -/
def padded (k : Nat) (l : List H) : List (Option H) :=
  l.map some ++ List.replicate (2 ^ k - l.length) none

theorem length_padded (h : l.length ≤ 2 ^ k) : (padded k l).length = 2 ^ k := by
  rw [padded, length_append, length_map, length_replicate]
  omega

theorem combineAll_replicate (n : Nat) :
    combineAll node (List.replicate (2 * n) none) = List.replicate n none := by
  induction n with
  | zero => rfl
  | succ n ih =>
    rw [Nat.mul_succ, replicate_succ, replicate_succ, combineAll, ih, replicate_succ]
    rfl

/-- The places above a level are the level above. -/
theorem combineAll_map : (l : List H) → (n : Nat) →
    combineAll node (l.map some ++ List.replicate (2 * n + l.length % 2) none) =
      (pairUp node l).map some ++ List.replicate n none
  | [], n => combineAll_replicate node n
  | [a], n => by
    rw [length_singleton, replicate_succ, map_singleton, singleton_append, combineAll,
      combineAll_replicate]
    rfl
  | a :: b :: l, n => by
    have hmod : (a :: b :: l).length % 2 = l.length % 2 := by
      rw [length_cons, length_cons]
      omega
    rw [hmod, map_cons, map_cons, cons_append, cons_append, combineAll, combineAll_map l n]
    rfl

theorem combineAll_padded (h : l.length ≤ 2 ^ (k + 1)) :
    combineAll node (padded (k + 1) l) = padded k (pairUp node l) := by
  have hsplit : 2 ^ (k + 1) - l.length = 2 * (2 ^ k - (pairUp node l).length) + l.length % 2 := by
    rw [pow_succ] at h ⊢
    rw [length_pairUp]
    omega
  rw [padded, hsplit, combineAll_map]
  rfl

/-- A level is read, and the level above is written. -/
theorem runQueue_append (n m : Nat) (q r : List (Option H)) (hq : q.length = 2 * n) :
    runQueue node (n + m) (q ++ r) = q ++ runQueue node m (r ++ combineAll node q) := by
  induction n generalizing q r with
  | zero =>
    rw [length_eq_zero_iff.1 hq, zero_add]
    simp [combineAll]
  | succ n ih =>
    match q, hq with
    | a :: b :: q, hq =>
      have hlen : q.length = 2 * n := by
        rw [length_cons, length_cons] at hq
        omega
      rw [Nat.succ_add, cons_append, cons_append, runQueue, append_assoc, ih _ _ hlen, combineAll,
        append_assoc]
      rfl

/-- **The last place holds the root.** -/
theorem getLast?_runQueue (h : Depth k l) :
    (runQueue node (2 ^ k - 1) (padded k l)).getLast? = some (root node l) := by
  induction k generalizing l with
  | zero =>
    obtain ⟨a, hiter, hroot⟩ := root_eq_iterate node h
    rw [Function.iterate_zero_apply] at hiter
    rw [hroot, hiter]
    rfl
  | succ k ih =>
    have hpow : 2 ^ (k + 1) - 1 = 2 ^ k + (2 ^ k - 1) := by
      have hpos := Nat.one_le_two_pow (n := k)
      rw [pow_succ]
      omega
    have hlast := ih (h.pairUp node)
    have hrun := runQueue_append node (2 ^ k) (2 ^ k - 1) (padded (k + 1) l) []
      (by rw [length_padded h.1, pow_succ, mul_comm])
    rw [append_nil, nil_append, combineAll_padded node h.1] at hrun
    rw [hpow, hrun, List.getLast?_append, hlast]
    match l, h.two_le with
    | a :: b :: l, _ =>
      rw [root]
      rfl

end Array

/-! ## What the root commits to -/

section Commitment

/-- All pairs that are hashed on the way to the root. -/
def hashed (k : Nat) (l : List H) : List (H × H) :=
  (List.range k).flatMap fun j => pairs ((pairUp node)^[j] l)

/-- Different pairs have different nodes. -/
def NoCollision (ps : List (H × H)) : Prop :=
  ∀ p ∈ ps, ∀ q ∈ ps, node p.1 p.2 = node q.1 q.2 → p = q

instance [DecidableEq H] (ps : List (H × H)) : Decidable (NoCollision node ps) :=
  inferInstanceAs (Decidable (∀ p ∈ ps, ∀ q ∈ ps, node p.1 p.2 = node q.1 q.2 → p = q))

variable {node} {ps : List (H × H)}

theorem fst_mem_of_mem_pairs : (l : List H) → ∀ p ∈ pairs l, p.1 ∈ l
  | [], p, hp => by cases hp
  | [a], p, hp => by
    rw [mem_singleton.1 hp]
    exact mem_singleton_self a
  | a :: b :: l, p, hp => by
    rcases mem_cons.1 hp with rfl | hp
    · exact mem_cons_self ..
    · exact mem_cons_of_mem _ (mem_cons_of_mem _ (fst_mem_of_mem_pairs l p hp))

theorem nodup_pairs : (l : List H) → l.Nodup → (pairs l).Nodup
  | [], _ => nodup_nil
  | [a], _ => nodup_singleton _
  | a :: b :: l, h => by
    have ha := (nodup_cons.1 h).1
    refine nodup_cons.2 ⟨fun hmem => ?_, nodup_pairs l h.of_cons.of_cons⟩
    exact ha (mem_cons_of_mem _ (fst_mem_of_mem_pairs l _ hmem))

/-- Lists without repetitions are equal if their pairs are. The last element of a list is paired
with itself only if the length is odd: a list of even length would have it twice. -/
theorem eq_of_pairs_eq : (l l' : List H) → l.Nodup → l'.Nodup → pairs l = pairs l' → l = l'
  | [], [], _, _, _ => rfl
  | [], [_], _, _, h => by cases h
  | [], _ :: _ :: _, _, _, h => by cases h
  | [_], [], _, _, h => by cases h
  | [_], [_], _, _, h => by
    cases h
    rfl
  | [a], b :: c :: l', _, hl', h => by
    obtain ⟨hhead, -⟩ := List.cons.inj h
    cases hhead
    simp at hl'
  | _ :: _ :: _, [], _, _, h => by cases h
  | b :: c :: l, [a], hl, _, h => by
    obtain ⟨hhead, -⟩ := List.cons.inj h
    cases hhead
    simp at hl
  | a :: b :: l, c :: d :: l', hl, hl', h => by
    obtain ⟨hhead, htail⟩ := List.cons.inj h
    cases hhead
    rw [eq_of_pairs_eq l l' hl.of_cons.of_cons hl'.of_cons.of_cons htail]

theorem eq_of_map_eq {α β : Type*} {f : α → β} {as bs : List α} (h : as.map f = bs.map f)
    (hinj : ∀ a ∈ as, ∀ b ∈ bs, f a = f b → a = b) : as = bs := by
  induction as generalizing bs with
  | nil => exact (map_eq_nil_iff.1 h.symm).symm
  | cons a as ih =>
    obtain ⟨b, bs, rfl, hb, htail⟩ := map_eq_cons_iff.1 h.symm
    have hhead : a = b := hinj a (mem_cons_self ..) b (mem_cons_self ..) hb.symm
    rw [hhead, ih htail.symm fun a ha b hb =>
      hinj a (mem_cons_of_mem _ ha) b (mem_cons_of_mem _ hb)]

theorem nodup_pairUp (hinj : NoCollision node ps) (hsub : pairs l ⊆ ps)
    (hl : l.Nodup) : (pairUp node l).Nodup :=
  (nodup_pairs l hl).map_on fun p hp q hq heq => hinj p (hsub hp) q (hsub hq) heq

theorem pairs_subset_hashed : pairs l ⊆ hashed node (k + 1) l := by
  intro p hp
  exact mem_flatMap.2 ⟨0, mem_range.2 (Nat.succ_pos k), hp⟩

theorem hashed_pairUp_subset : hashed node k (pairUp node l) ⊆ hashed node (k + 1) l := by
  intro p hp
  obtain ⟨j, hj, hp⟩ := mem_flatMap.1 hp
  exact mem_flatMap.2 ⟨j + 1, mem_range.2 (Nat.succ_lt_succ (mem_range.1 hj)), hp⟩

/-- Equal nodes have equal lists below them, level by level. -/
theorem eq_of_iterate_eq (hinj : NoCollision node ps)
    (hsub : hashed node k l ⊆ ps) (hsub' : hashed node k l' ⊆ ps) (hl : l.Nodup) (hl' : l'.Nodup)
    (h : (pairUp node)^[k] l = (pairUp node)^[k] l') : l = l' := by
  induction k generalizing l l' with
  | zero => exact h
  | succ k ih =>
    have hpairs : pairs l ⊆ ps := List.Subset.trans pairs_subset_hashed hsub
    have hpairs' : pairs l' ⊆ ps := List.Subset.trans pairs_subset_hashed hsub'
    have hlevel : pairUp node l = pairUp node l' :=
      ih (List.Subset.trans hashed_pairUp_subset hsub)
        (List.Subset.trans hashed_pairUp_subset hsub') (nodup_pairUp hinj hpairs hl)
        (nodup_pairUp hinj hpairs' hl') h
    have heq : pairs l = pairs l' := eq_of_map_eq hlevel fun p hp q hq =>
      hinj p (hpairs hp) q (hpairs' hq)
    exact eq_of_pairs_eq l l' hl hl' heq

/-- **The root commits to the list**: two lists without repetitions and with as many levels are
equal if they have the same root, unless two different pairs give the same node. -/
theorem eq_of_root_eq (hinj : NoCollision node (hashed node k l ++ hashed node k l'))
    (hd : Depth k l) (hd' : Depth k l') (hl : l.Nodup) (hl' : l'.Nodup)
    (h : root node l = root node l') : l = l' := by
  obtain ⟨a, hiter, hroot⟩ := root_eq_iterate node hd
  obtain ⟨a', hiter', hroot'⟩ := root_eq_iterate node hd'
  rw [hroot, hroot'] at h
  cases h
  exact eq_of_iterate_eq hinj (subset_append_left _ _) (subset_append_right _ _) hl hl'
    (hiter.trans hiter'.symm)

end Commitment

end Fnod.HashTree
