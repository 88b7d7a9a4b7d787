import Fnod.Lib.Treap
import Mathlib.Data.List.Chain
import Mathlib.Data.List.GetD
import Mathlib.Data.Nat.Basic

/-!
# Package `treap`: the heap order

The treaps of the database are min-heaps on random priorities. `Put` rotates a new node up while its
priority is below its parent's. `Delete` rotates the node down and lifts, of two children, the one
of *higher* priority.

**`treapOrder_iff`**: all versions are in heap order exactly if each deleted node has at most one
child or priorities that are equal where they would be compared (`Level`). Among trees in heap order
with distinct priorities, the keys that survive the calls and their priorities determine the shape
(`shape_unique`). In heap order or not, the versions hold what survives (`versions_hold`).

The mutable treap goes through the versions that are each made from the newest
(`newest`). The trees of the library also count their nodes, which the code does not store.
-/

namespace Fnod.DbTreap

open Treap Treap.Tree

variable {K V : Type}

/-- The right tree of `lift` is walked down to the left while its root has the higher priority; `up`
is what happens when the left root, of priority `p` and size `s`, is lifted. -/
def liftRight (l : Tree K V) (p s : Nat) (up : Tree K V → Tree K V) : Tree K V → Tree K V
  | nil => l
  | node rl k v q t rr =>
      if p ≥ q then up (node rl k v q t rr) else node (liftRight l p s up rl) k v q (t + s) rr

/-- What the rotations of `Delete` leave of the two subtrees of the deleted node. -/
def lift : Tree K V → Tree K V → Tree K V
  | nil, r => r
  | node ll k v p s lr, r =>
      liftRight (node ll k v p s lr) p s (fun r => node ll k v p (s + r.size) (lift lr r)) r

/-- The nodes of the left tree that are compared with the root of the right one have its priority.
-/
def Level : Tree K V → Tree K V → Prop
  | nil, _ | _, nil => True
  | node _ _ _ p _ lr, node rl k v q t rr => p = q ∧ Level lr (node rl k v q t rr)

/-! ## Lifting -/

theorem lift_nil (l : Tree K V) : lift l nil = l := by
  cases l <;> rfl

theorem lift_node (ll : Tree K V) (k : K) (v : V) (p s : Nat) (lr rl : Tree K V) (k' : K) (v' : V)
    (p' s' : Nat) (rr : Tree K V) : lift (node ll k v p s lr) (node rl k' v' p' s' rr) =
      if p ≥ p' then node ll k v p (s + s') (lift lr (node rl k' v' p' s' rr))
      else node (lift (node ll k v p s lr) rl) k' v' p' (s' + s) rr := by
  rfl

theorem toList_lift (l r : Tree K V) : (lift l r).toList = l.toList ++ r.toList := by
  induction l generalizing r with
  | nil => rfl
  | node ll k v p s lr _ ih =>
    induction r with
    | nil => rw [lift_nil, toList, List.append_nil]
    | node rl k' v' p' s' rr ih' _ =>
      rw [lift_node]
      split_ifs
      · simp [toList, ih]
      · simp [toList, ih']

variable {l r : Tree K V}

theorem atLeast_lift {q : Nat} : (lift l r).AtLeast q ↔ l.AtLeast q ∧ r.AtLeast q := by
  simp only [AtLeast, toList_lift, List.forall_mem_append]

/-- The higher child above the lower one is against the order, unless they are equal. -/
theorem heap_lift_iff (hl : l.Heap) (hr : r.Heap) : (lift l r).Heap ↔ Level l r := by
  induction l with
  | nil => exact iff_of_true hr trivial
  | node ll k v p s lr _ ih =>
    cases r with
    | nil => exact iff_of_true (lift_nil (node ll k v p s lr) ▸ hl) trivial
    | node rl k' v' p' s' rr =>
      rw [lift_node, Level]
      split_ifs with hp
      · simp only [Heap, atLeast_lift, atLeast_node]
        constructor
        · rintro ⟨-, ⟨-, -, hle, -⟩, -, hheap⟩
          exact ⟨le_antisymm hle hp, (ih hl.2.2.2).1 hheap⟩
        · rintro ⟨rfl, hlevel⟩
          exact ⟨hl.1, ⟨hl.2.1, hr.1, le_refl p, hr.2.1⟩, hl.2.2.1, (ih hl.2.2.2).2 hlevel⟩
      · simp only [Heap, atLeast_lift, atLeast_node]
        constructor
        · rintro ⟨⟨⟨-, hle, -⟩, -⟩, -⟩
          exact absurd hle hp
        · rintro ⟨rfl, -⟩
          exact absurd (le_refl p) hp

/-! ## The shape -/

/-- Keys and priorities in order. -/
def entries (t : Tree K V) : List (K × Nat) := t.toList.map fun a => (a.1, a.2.1)

/-- The tree of keys and priorities. -/
def shape : Tree K V → Tree K Unit
  | nil => nil
  | node l k _ p _ r => node (shape l) k () p 0 (shape r)

theorem split_unique {A A' B B' : List (K × Nat)} {x x' : K × Nat} (hx : x.2 = x'.2)
    (h : A ++ x :: B = A' ++ x' :: B') (hnodup : ((A ++ x :: B).map Prod.snd).Nodup) :
    A = A' ∧ x = x' ∧ B = B' := by
  induction A generalizing A' with
  | nil =>
    cases A' with
    | nil => exact ⟨rfl, List.cons.inj h⟩
    | cons a A' =>
      obtain ⟨rfl, rfl⟩ := List.cons.inj h
      simp [hx] at hnodup
  | cons a A ih =>
    cases A' with
    | nil =>
      obtain ⟨rfl, -⟩ := List.cons.inj h
      simp [hx] at hnodup
    | cons a' A' =>
      obtain ⟨rfl, htail⟩ := List.cons.inj h
      obtain ⟨rfl, hrest⟩ := ih htail (List.nodup_cons.1 hnodup).2
      exact ⟨rfl, hrest⟩

theorem Heap.root_le {k : K} {v : V} {p s : Nat} {a : K × Nat} (h : (node l k v p s r).Heap)
    (ha : a ∈ entries (node l k v p s r)) : p ≤ a.2 := by
  obtain ⟨b, hb, rfl⟩ := List.mem_map.1 ha
  exact h.atLeast b hb

/-- **Uniqueness.** The root is the entry of least priority, and it splits the others. -/
theorem shape_unique {t t' : Tree K V} (h : t.Heap) (h' : t'.Heap) (heq : entries t = entries t')
    (hnodup : ((entries t).map Prod.snd).Nodup) : shape t = shape t' := by
  have hentries : ∀ (l : Tree K V) k v p s r,
      entries (node l k v p s r) = entries l ++ (k, p) :: entries r := by
    simp [entries, toList]
  induction t generalizing t' with
  | nil =>
    cases t' with
    | nil => rfl
    | node l k v p s r => simp [entries, toList] at heq
  | node l k v p s r ihl ihr =>
    cases t' with
    | nil => simp [entries, toList] at heq
    | node l' k' v' p' s' r' =>
      have hroot : p = p' := by
        have hle := Heap.root_le h (a := (k', p')) (by rw [heq, hentries]; simp)
        have hge := Heap.root_le h' (a := (k, p)) (by rw [← heq, hentries]; simp)
        exact le_antisymm hle hge
      rw [hentries] at hnodup
      rw [hentries, hentries] at heq
      obtain ⟨hl, hx, hr⟩ := split_unique hroot heq hnodup
      rw [List.map_append, List.map_cons, List.nodup_append, List.nodup_cons] at hnodup
      rw [shape, shape, ihl h.2.2.1 h'.2.2.1 hl hnodup.1, ihr h.2.2.2 h'.2.2.2 hr hnodup.2.1.2,
        hroot, (Prod.mk.inj hx).1]

/-! ## Calls -/

variable [LinearOrder K]

def delete (k : K) (t : Tree K V) : Tree K V :=
  match descend k t [] with
  | (_, nil) => t
  | (fs, node l _ _ _ _ r) => plugAll (lift l r) (fs.map (Frame.mapSize (· - 1)))

/-- A call that changes a treap; the priority of a `Put` is the random number it draws. -/
inductive Call (K V : Type)
  | put (key : K) (value : V) (priority : Nat)
  | delete (key : K)

def Call.onTree (t : Tree K V) : Call K V → Tree K V
  | put key value priority => t.put key value priority
  | delete key => DbTreap.delete key t

/-- `Put` of the mutable treap links and rotates the same nodes in place. -/
def Mutable.put (t : Tree K V) (key : K) (value : V) (priority : Nat) : Tree K V :=
  t.put key value priority

/-- `Delete` of the mutable treap lifts the same nodes in place. -/
def Mutable.delete (t : Tree K V) (key : K) : Tree K V := DbTreap.delete key t

def Mutable.apply (t : Tree K V) : Call K V → Tree K V
  | .put key value priority => Mutable.put t key value priority
  | .delete key => Mutable.delete t key

/-- The mutable treap after some calls. -/
def Mutable.run (cs : List (Call K V)) : Tree K V := cs.foldl Mutable.apply nil

/-- What a call needs of the tree. -/
def Call.KeepsOrder (t : Tree K V) : Call K V → Prop
  | put _ _ _ => True
  | delete key =>
    match (descend key t []).2 with
    | nil => True
    | node l _ _ _ _ r => Level l r

/-- The versions so far, and one more made from version `c.1`; a number of no version stands for a
new treap. -/
def step (ts : List (Tree K V)) (c : Nat × Call K V) : List (Tree K V) :=
  ts ++ [c.2.onTree (ts.getD c.1 nil)]

/-- All versions that the calls make. -/
def versions (calls : List (Nat × Call K V)) : List (Tree K V) := calls.foldl step [nil]

/-- The calls, each on the newest version. -/
def newest (cs : List (Call K V)) : List (Nat × Call K V) := cs.mapIdx Prod.mk

theorem versions_concat (calls : List (Nat × Call K V)) (c : Nat × Call K V) :
    versions (calls ++ [c]) = step (versions calls) c := by
  rw [versions, List.foldl_append]
  rfl

/-- **The mutable treap** is the last of the versions that are each made from the newest. -/
theorem getLast?_versions_newest (cs : List (Call K V)) :
    (versions (newest cs)).getLast? = some (Mutable.run cs) := by
  have hlen : ∀ calls : List (Nat × Call K V), (versions calls).length = calls.length + 1 := by
    intro calls
    induction calls using List.reverseRecOn with
    | nil => rfl
    | append_singleton calls c ih => simp [versions_concat, step, ih]
  induction cs using List.reverseRecOn with
  | nil => rfl
  | append_singleton cs c ih =>
    rw [List.getLast?_eq_getElem?, hlen, newest, List.length_mapIdx, Nat.add_sub_cancel] at ih
    rw [newest, List.mapIdx_concat, versions_concat, step, List.getLast?_concat,
      List.getD_eq_getElem?_getD, ih]
    unfold Mutable.run
    rw [List.foldl_append]
    cases c <;> rfl

/-- **One call** keeps the order exactly under its condition. -/
theorem heap_onTree_iff {t : Tree K V} (ht : t.Heap) (c : Call K V) :
    (c.onTree t).Heap ↔ c.KeepsOrder t := by
  cases c with
  | put key value priority => exact iff_of_true (heap_put ht key value priority) trivial
  | delete key =>
    rw [Call.onTree, Call.KeepsOrder, delete]
    have hplug := plugAll_descend t key [] rfl
    generalize descend key t [] = d at *
    obtain ⟨fs, t'⟩ := d
    obtain ⟨ht', hb, hfs⟩ := heap_plugAll.1 (show (plugAll t' fs).Heap from hplug ▸ ht)
    cases t' with
    | nil => exact iff_of_true ht trivial
    | node l k' v' q s r =>
      rw [atLeast_node] at hb
      rw [heap_plugAll, bound_mapSize, heapIn_mapSize, atLeast_lift,
        heap_lift_iff ht'.2.2.1 ht'.2.2.2]
      exact and_iff_left ⟨⟨hb.1, hb.2.2⟩, hfs⟩

/-- Every call of a run meets its condition in the version it is made on. -/
def InOrder (calls : List (Nat × Call K V)) : Prop :=
  ∀ front c back, calls = front ++ c :: back → c.2.KeepsOrder ((versions front).getD c.1 nil)

omit [LinearOrder K] in
theorem heap_getD {ts : List (Tree K V)} (h : ∀ t ∈ ts, t.Heap) (i : Nat) :
    (ts.getD i nil).Heap := by
  rw [List.getD_eq_getElem?_getD]
  cases hi : ts[i]? with
  | none => trivial
  | some t => exact h t (List.mem_of_getElem? hi)

/-- **Any number of calls.** -/
theorem heap_versions_iff (calls : List (Nat × Call K V)) :
    (∀ t ∈ versions calls, t.Heap) ↔ InOrder calls := by
  induction calls using List.reverseRecOn with
  | nil =>
    refine iff_of_true ?_ (fun front c back h => ?_)
    · intro t ht
      rw [List.mem_singleton.1 ht]
      trivial
    · cases front <;> cases h
  | append_singleton calls c ih =>
    rw [versions_concat, step]
    constructor
    · intro hall front c' back heq
      obtain ⟨hold, hnew⟩ := List.forall_mem_append.1 hall
      rcases List.eq_nil_or_concat' back with rfl | ⟨back, b, rfl⟩
      · obtain ⟨rfl, hc⟩ := List.append_inj' heq rfl
        cases hc
        exact (heap_onTree_iff (heap_getD hold c.1) c.2).1 (hnew _ List.mem_cons_self)
      · rw [← List.cons_append, ← List.append_assoc] at heq
        exact ih.1 hold front c' back (List.append_inj_left' heq rfl)
    · intro hin
      have hold : ∀ t ∈ versions calls, t.Heap :=
        ih.2 fun front c' back heq => hin front c' (back ++ [c]) (by rw [heq]; simp)
      refine List.forall_mem_append.2 ⟨hold, List.forall_mem_singleton.2 ?_⟩
      exact (heap_onTree_iff (heap_getD hold c.1) c.2).2 (hin calls c [] rfl)

/-! ## Contents -/

open OrdMap List

/-- What survives a call: the keys, with their priorities and values. -/
def Call.onEntries (m : K → Option (Nat × V)) : Call K V → K → Option (Nat × V)
  | put key value priority => Function.update m key (some (stored priority value (m key)))
  | delete key => Function.update m key none

/-- What survives the calls, for each version. -/
def survivors (calls : List (Nat × Call K V)) : List (K → Option (Nat × V)) :=
  calls.foldl (fun ms c => ms ++ [c.2.onEntries (ms.getD c.1 fun _ => none)]) [fun _ => none]

/-- A search tree of these entries. -/
def Holds (t : Tree K V) (m : K → Option (Nat × V)) : Prop :=
  Ascending t.toList ∧ (lookupList · t.toList) = m

/-- What a call does to a map. -/
def Call.onMap (m : K → Option V) : Call K V → K → Option V
  | put key value _ => Function.update m key (some value)
  | delete key => Function.update m key none

/-- The maps that the calls make, one for each version. -/
def maps (calls : List (Nat × Call K V)) : List (K → Option V) :=
  calls.foldl (fun ms c => ms ++ [c.2.onMap (ms.getD c.1 fun _ => none)]) [fun _ => none]

/-- A search tree that stores the map. -/
def Stores (t : Tree K V) (m : K → Option V) : Prop := Ascending t.toList ∧ (get · t) = m

variable {t t' : Tree K V} {m m' : K → Option (Nat × V)}

-- Whichever child is lifted, the entries are the same.
theorem toList_delete_eq (k : K) : (delete k t).toList = (Tree.delete k t).toList := by
  rw [delete, Tree.delete]
  rcases descend k t [] with ⟨fs, _ | _⟩
  · rfl
  · simp only [toList_plugAll, toList_lift, toList_merge]

theorem Holds.onTree (h : Holds t m) (c : Call K V) : Holds (c.onTree t) (c.onEntries m) := by
  obtain ⟨ht, rfl⟩ := h
  cases c with
  | put key value priority =>
    rw [Call.onTree, Holds, toList_put ht]
    refine ⟨ascending_insertList ht, funext fun k => ?_⟩
    rw [lookupList_insertList, Call.onEntries, Function.update_apply]
  | delete key =>
    rw [Call.onTree, Holds, toList_delete_eq, toList_delete ht]
    refine ⟨ascending_eraseList ht, funext fun k => ?_⟩
    rw [lookupList_eraseList ht, Call.onEntries, Function.update_apply]

theorem Holds.getD {ts : List (Tree K V)} {ms} (h : Forall₂ Holds ts ms) (i : Nat) :
    Holds (ts.getD i nil) (ms.getD i fun _ => none) := by
  induction h generalizing i with
  | nil => exact ⟨.nil, rfl⟩
  | cons h _ ih =>
    cases i with
    | zero => exact h
    | succ i => exact ih i

/-- All versions, in heap order or not, hold what survives the calls. -/
theorem versions_hold (calls : List (Nat × Call K V)) :
    Forall₂ Holds (versions calls) (survivors calls) :=
  foldl_rel (.cons ⟨.nil, rfl⟩ .nil) fun c _ _ _ h =>
    rel_append h (.cons ((Holds.getD h c.1).onTree c.2) .nil)

theorem maps_eq (calls : List (Nat × Call K V)) :
    maps calls = (survivors calls).map (Option.map Prod.snd ∘ ·) := by
  have hcall : ∀ (c : Call K V) m,
      c.onMap (Option.map Prod.snd ∘ m) = Option.map Prod.snd ∘ c.onEntries m := by
    rintro (⟨key, value, priority⟩ | ⟨key⟩) m
    · rw [Call.onEntries, Function.comp_update]
      cases hm : m key <;> rfl
    · rw [Call.onEntries, Function.comp_update]
      rfl
  induction calls using List.reverseRecOn with
  | nil => rfl
  | append_singleton calls c ih =>
    unfold maps survivors at *
    rw [foldl_append, foldl_append, ih, foldl_cons, foldl_cons, foldl_nil, foldl_nil, map_append,
      map_singleton, ← hcall]
    exact congrArg (_ ++ [c.2.onMap ·]) (getD_map _ (fun _ => none) _)

/-- **Contents.** All versions, in heap order or not, store the maps that the calls make. -/
theorem versions_store (calls : List (Nat × Call K V)) :
    Forall₂ Stores (versions calls) (maps calls) := by
  rw [maps_eq, forall₂_map_right_iff]
  refine (versions_hold calls).imp fun t m h => ⟨h.1, ?_⟩
  rw [← h.2]
  exact funext (get_eq h.1)

theorem Holds.entries_eq (h : Holds t m) (h' : Holds t' m')
    (heq : ∀ k, (m k).map Prod.fst = (m' k).map Prod.fst) : entries t = entries t' := by
  refine ext_lookupList (h.1.map _ fun _ _ => id) (h'.1.map _ fun _ _ => id) fun k => ?_
  have hk := heq k
  rw [← h.2, ← h'.2] at hk
  exact (lookupList_map _ k _).trans (hk.trans (lookupList_map _ k _).symm)

/-! ## Heap order -/

/-- No two keys have one priority. -/
def Distinct (m : K → Option (Nat × V)) : Prop :=
  ∀ k k' p, (m k).map Prod.fst = some p → (m k').map Prod.fst = some p → k = k'

theorem Holds.nodup (h : Holds t m) (hm : Distinct m) : ((entries t).map Prod.snd).Nodup := by
  have hentry : ∀ a ∈ entries t, (m a.1).map Prod.fst = some a.2 := by
    rintro _ ha
    obtain ⟨⟨k, p, v⟩, hb, rfl⟩ := mem_map.1 ha
    rw [← h.2]
    exact congrArg (Option.map Prod.fst) (lookupList_of_mem h.1 hb)
  have hne : (entries t).Pairwise fun a b => a.1 < b.1 := h.1.map _ fun _ _ => id
  refine pairwise_map.2 (hne.imp_of_mem fun ha hb hlt heq => hlt.ne ?_)
  exact hm _ _ _ (hentry _ ha) (heq ▸ hentry _ hb)

/-- **Heap order.** All versions hold what survives the calls. They are all in heap order exactly if
every `Delete` meets its condition, and versions in heap order with the same surviving keys and
distinct priorities have the same shape. The mutable treap goes through such versions. -/
theorem treapOrder_iff (calls : List (Nat × Call K V)) :
    Forall₂ Holds (versions calls) (survivors calls) ∧
    ((∀ t ∈ versions calls, t.Heap) ↔ InOrder calls) ∧
    (∀ calls' : List (Nat × Call K V), InOrder calls → InOrder calls' → ∀ i i',
      (∀ k, ((survivors calls).getD i (fun _ => none) k).map Prod.fst =
        ((survivors calls').getD i' (fun _ => none) k).map Prod.fst) →
      Distinct ((survivors calls).getD i fun _ => none) →
      shape ((versions calls).getD i nil) = shape ((versions calls').getD i' nil)) ∧
    ∀ cs : List (Call K V), (versions (newest cs)).getLast? = some (Mutable.run cs) := by
  refine ⟨versions_hold calls, heap_versions_iff calls, fun calls' hin hin' i i' heq hm => ?_,
    getLast?_versions_newest⟩
  have hold := Holds.getD (versions_hold calls) i
  have hold' := Holds.getD (versions_hold calls') i'
  exact shape_unique (heap_getD ((heap_versions_iff calls).2 hin) i)
    (heap_getD ((heap_versions_iff calls').2 hin') i') (hold.entries_eq hold' heq) (hold.nodup hm)

/-- A root with two children, of priorities one, two and three. -/
def twoChildren : List (Nat × Call Nat Unit) :=
  [(0, .put 2 () 1), (1, .put 1 () 2), (2, .put 3 () 3)]

theorem treapOrder_iff_twoChildren : ∀ t ∈ versions twoChildren, t.Heap := by
  refine (treapOrder_iff twoChildren).2.1.2 fun front c back heq => ?_
  have hput : ∀ c ∈ twoChildren, ∃ k v p, c.2 = .put k v p := by
    simp [twoChildren]
  obtain ⟨k, v, p, hc⟩ := hput c (by rw [heq]; simp)
  rw [hc]
  trivial

/-- Without its root the child of priority three stands above that of priority two. -/
theorem deletedRoot_order : ∃ t ∈ versions (twoChildren ++ [(3, .delete 2)]),
      t = node (node nil 1 () 2 1 nil) 3 () 3 2 nil ∧ ¬t.Heap := by
  refine ⟨_, List.mem_of_getElem? (i := 4) rfl, rfl, fun h => ?_⟩
  have hheap : (node (node nil 1 () 2 1 nil) 3 () 3 2 nil : Tree Nat Unit).Heap := h
  exact absurd (hheap.1 (1, 2, ()) (by simp [Tree.toList])) (by decide)

end Fnod.DbTreap
