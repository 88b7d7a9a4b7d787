import Fnod.Lib.OrdMap

/-!
# Treaps

A treap is a binary search tree on its keys and a min-heap on its priorities. Every node caches
the number of nodes below it. Insertion walks down to a leaf position, remembering the way, and
rotates the new node up while its priority is smaller than its parent's; deletion rotates the
node down to a leaf position, always lifting the child of smaller priority.

The way from the root to a node is a list of *frames*, innermost first, and `plugAll` puts a
subtree back into its place. All that a rotation does to the entries is then visible in
`toList_plugAll`: it leaves them alone.

* `toList_put`, `toList_delete` — the operations are those of the ordered list of entries.
* `Sized`, `Heap` — the cached sizes are exact, and priorities grow downwards.
* `getByIndex_eq`, `belowList_eq` — access by position and by priority bound.
-/

namespace Treap

open List OrdMap

/-- A tree whose nodes carry an entry, a priority and the size of the subtree. -/
inductive Tree (K V : Type*) where
  | nil : Tree K V
  | node (left : Tree K V) (key : K) (value : V) (priority size : Nat) (right : Tree K V) :
      Tree K V
deriving DecidableEq

namespace Tree

variable {K V : Type*}

/-- The cached number of nodes. -/
def size : Tree K V → Nat
  | nil => 0
  | node _ _ _ _ s _ => s

/-- The entries in order, each with its priority. -/
def toList : Tree K V → List (K × Nat × V)
  | nil => []
  | node l k v p _ r => l.toList ++ (k, p, v) :: r.toList

@[simp] theorem size_nil : (nil : Tree K V).size = 0 := rfl

@[simp] theorem size_node (l : Tree K V) (k : K) (v : V) (p s : Nat) (r : Tree K V) :
    (node l k v p s r).size = s := rfl

/-- Every cached size is the number of nodes. -/
def Sized : Tree K V → Prop
  | nil => True
  | node l _ _ _ s r => s = l.size + r.size + 1 ∧ l.Sized ∧ r.Sized

/-- No node of the tree has a priority below `p`. -/
def AtLeast (p : Nat) (t : Tree K V) : Prop := ∀ a ∈ t.toList, p ≤ a.2.1

/-- No node has a priority below its parent's. -/
def Heap : Tree K V → Prop
  | nil => True
  | node l _ _ p _ r => l.AtLeast p ∧ r.AtLeast p ∧ l.Heap ∧ r.Heap

theorem AtLeast.mono {p q : Nat} (hpq : p ≤ q) {t : Tree K V} (h : t.AtLeast q) : t.AtLeast p :=
  fun a ha => le_trans hpq (h a ha)

variable {l r : Tree K V}

theorem atLeast_node {q : Nat} {k : K} {v : V} {p s : Nat} :
    (node l k v p s r).AtLeast q ↔ l.AtLeast q ∧ q ≤ p ∧ r.AtLeast q := by
  simp only [AtLeast, toList, mem_append, mem_cons]
  constructor
  · intro h
    exact ⟨fun a ha => h a (Or.inl ha), h _ (Or.inr (Or.inl rfl)),
      fun a ha => h a (Or.inr (Or.inr ha))⟩
  · rintro ⟨hl, hp, hr⟩ a (ha | rfl | ha)
    · exact hl a ha
    · exact hp
    · exact hr a ha

theorem Heap.atLeast {k : K} {v : V} {p s : Nat} (h : (node l k v p s r).Heap) :
    (node l k v p s r).AtLeast p :=
  atLeast_node.2 ⟨h.1, le_refl p, h.2.1⟩

theorem Sized.size_eq {t : Tree K V} (h : t.Sized) : t.size = t.toList.length := by
  induction t with
  | nil => rfl
  | node l k v p s r ihl ihr =>
    obtain ⟨hs, hl, hr⟩ := h
    rw [size_node, hs, ihl hl, ihr hr, toList, length_append, length_cons, add_assoc]

/-! ## Frames -/

/-- One step down from a node: its entry and the subtree on the other side. -/
inductive Frame (K V : Type*) where
  | left (key : K) (value : V) (priority size : Nat) (right : Tree K V) : Frame K V
  | right (left : Tree K V) (key : K) (value : V) (priority size : Nat) : Frame K V

namespace Frame

/-- The node with `t` in the hole. -/
def plug : Frame K V → Tree K V → Tree K V
  | left k v p s r, t => node t k v p s r
  | right l k v p s, t => node l k v p s t

/-- The node's cached size, changed by `f`. -/
def mapSize (f : Nat → Nat) : Frame K V → Frame K V
  | left k v p s r => left k v p (f s) r
  | right l k v p s => right l k v p (f s)

end Frame

/-- Put a subtree back in its place. -/
def plugAll (t : Tree K V) : List (Frame K V) → Tree K V
  | [] => t
  | f :: fs => plugAll (f.plug t) fs

/-! Some facts do not depend on the side, which is then a parameter: `true` is the left one. -/

/-- The node with `t` on one side and `o` on the other. -/
def nodeAt (isLeft : Bool) (t : Tree K V) (k : K) (v : V) (p s : Nat) (o : Tree K V) : Tree K V :=
  bif isLeft then node t k v p s o else node o k v p s t

/-- The step down on one side. -/
def frameAt (isLeft : Bool) (k : K) (v : V) (p s : Nat) (o : Tree K V) : Frame K V :=
  bif isLeft then .left k v p s o else .right o k v p s

theorem mapSize_frameAt (f : Nat → Nat) (isLeft : Bool) (k : K) (v : V) (p s : Nat)
    (o : Tree K V) : (frameAt isLeft k v p s o).mapSize f = frameAt isLeft k v p (f s) o := by
  cases isLeft <;> rfl

theorem exists_nodeAt (isLeft : Bool) (l : Tree K V) (k : K) (v : V) (p s : Nat) (r : Tree K V) :
    ∃ t o, node l k v p s r = nodeAt isLeft t k v p s o := by
  cases isLeft
  · exact ⟨r, l, rfl⟩
  · exact ⟨l, r, rfl⟩

theorem exists_frameAt (f : Frame K V) : ∃ isLeft k v p s o, f = frameAt isLeft k v p s o := by
  cases f with
  | left k v p s r => exact ⟨true, k, v, p, s, r, rfl⟩
  | right l k v p s => exact ⟨false, k, v, p, s, l, rfl⟩

/-- The entries before the hole. -/
def before : List (Frame K V) → List (K × Nat × V)
  | [] => []
  | .left _ _ _ _ _ :: fs => before fs
  | .right l k v p _ :: fs => before fs ++ (l.toList ++ [(k, p, v)])

/-- The entries after the hole. -/
def after : List (Frame K V) → List (K × Nat × V)
  | [] => []
  | .left k v p _ r :: fs => (k, p, v) :: r.toList ++ after fs
  | .right _ _ _ _ _ :: fs => after fs

theorem toList_plugAll (t : Tree K V) (fs : List (Frame K V)) :
    (plugAll t fs).toList = before fs ++ t.toList ++ after fs := by
  induction fs generalizing t with
  | nil => simp [plugAll, before, after]
  | cons f fs ih =>
    cases f <;> simp [plugAll, Frame.plug, toList, before, after, ih]

@[simp] theorem before_mapSize (f : Nat → Nat) (fs : List (Frame K V)) :
    before (fs.map (Frame.mapSize f)) = before fs := by
  induction fs with
  | nil => rfl
  | cons g fs ih => cases g <;> simp [before, Frame.mapSize, ih]

@[simp] theorem after_mapSize (f : Nat → Nat) (fs : List (Frame K V)) :
    after (fs.map (Frame.mapSize f)) = after fs := by
  induction fs with
  | nil => rfl
  | cons g fs ih => cases g <;> simp [after, Frame.mapSize, ih]

/-! ## The operations -/

/-- Rotate a node up while its priority is below its parent's. -/
def rotateUp : List (Frame K V) → Tree K V → Tree K V
  | [], n => n
  | f :: fs, nil => plugAll nil (f :: fs)
  | .left pk pv pp ps pr :: fs, node nl k v p s nr =>
      if pp ≤ p then plugAll (node nl k v p s nr) (.left pk pv pp ps pr :: fs)
      else rotateUp fs (node nl k v p (s + (1 + pr.size))
        (node nr pk pv pp (ps - (1 + nl.size)) pr))
  | .right pl pk pv pp ps :: fs, node nl k v p s nr =>
      if pp ≤ p then plugAll (node nl k v p s nr) (.right pl pk pv pp ps :: fs)
      else rotateUp fs (node (node pl pk pv pp (ps - (1 + nr.size)) nl) k v p
        (s + (1 + pl.size)) nr)

/-- The right tree of a `merge` is walked down to the left while its root has the smaller priority;
`lift` is what happens when the left tree's root, of priority `p` and size `s`, is lifted. -/
def mergeRight (l : Tree K V) (p s : Nat) (lift : Tree K V → Tree K V) : Tree K V → Tree K V
  | nil => l
  | node rl k v q t rr =>
      if p ≤ q then lift (node rl k v q t rr)
      else node (mergeRight l p s lift rl) k v q (t + s) rr

/-- What is left of a node's two subtrees when the node has been rotated down to a leaf position
and dropped. Of two children the one of smaller priority is lifted, the left one on a tie; a single
child ends up as it was. -/
def merge : Tree K V → Tree K V → Tree K V
  | nil, r => r
  | node ll k v p s lr, r =>
      mergeRight (node ll k v p s lr) p s (fun r => node ll k v p (s + r.size) (merge lr r)) r

@[simp] theorem merge_nil (l : Tree K V) : merge l nil = l := by
  cases l <;> rfl

theorem merge_node (ll : Tree K V) (k : K) (v : V) (p s : Nat) (lr rl : Tree K V) (k' : K) (v' : V)
    (p' s' : Nat) (rr : Tree K V) : merge (node ll k v p s lr) (node rl k' v' p' s' rr) =
      if p ≤ p' then node ll k v p (s + s') (merge lr (node rl k' v' p' s' rr))
      else node (merge (node ll k v p s lr) rl) k' v' p' (s' + s) rr := by
  rfl

theorem merge_left {ll lr : Tree K V} {k : K} {v : V} {p s : Nat}
    (h : ∀ rl k' v' p' s' rr, r = node rl k' v' p' s' rr → p ≤ p') :
    merge (node ll k v p s lr) r = node ll k v p (s + r.size) (merge lr r) := by
  cases r with
  | nil => rw [merge_nil, merge_nil, size_nil, add_zero]
  | node rl k' v' p' s' rr => rw [merge_node, if_pos (h _ _ _ _ _ _ rfl), size_node]

theorem merge_right {rl rr : Tree K V} {k : K} {v : V} {p s : Nat}
    (h : ∀ ll k' v' p' s' lr, l = node ll k' v' p' s' lr → ¬ p' ≤ p) :
    merge l (node rl k v p s rr) = node (merge l rl) k v p (s + l.size) rr := by
  cases l with
  | nil => rfl
  | node ll k' v' p' s' lr => rw [merge_node, if_neg (h _ _ _ _ _ _ rfl), size_node]

section Ordered

variable [LinearOrder K]

/-- Walk down towards `k`. The walk ends at the node that holds `k`, or at the empty place where
`k` belongs. -/
def descend (k : K) : Tree K V → List (Frame K V) → List (Frame K V) × Tree K V
  | nil, fs => (fs, nil)
  | node l k' v p s r, fs =>
      if k < k' then descend k l (.left k' v p s r :: fs)
      else if k' < k then descend k r (.right l k' v p s :: fs)
      else (fs, node l k' v p s r)

def get (k : K) : Tree K V → Option V
  | nil => none
  | node l k' v _ _ r => if k < k' then get k l else if k' < k then get k r else some v

/-- Insert an entry with priority `p`. An entry that is already there keeps its priority and its
place, and only the value changes. -/
def put (k : K) (v : V) (p : Nat) (t : Tree K V) : Tree K V :=
  match descend k t [] with
  | (fs, node l k' _ q s r) => plugAll (node l k' v q s r) fs
  | (fs, nil) => rotateUp (fs.map (Frame.mapSize (· + 1))) (node nil k v p 1 nil)

def delete (k : K) (t : Tree K V) : Tree K V :=
  match descend k t [] with
  | (_, nil) => t
  | (fs, node l _ _ _ _ r) => plugAll (merge l r) (fs.map (Frame.mapSize (· - 1)))

end Ordered

/-- The entry at a position, found through the cached sizes. -/
def getByIndex : Tree K V → Nat → Option (K × V)
  | nil, _ => none
  | node l k v _ _ r, i =>
      if i < l.size then getByIndex l i
      else if i = l.size then some (k, v)
      else getByIndex r (i - l.size - 1)

/-- The entries of a walk in order that does not enter a subtree whose root is not wanted. -/
def prune (w : Nat → Bool) : Tree K V → List (K × V)
  | nil => []
  | node l k v p _ r => if w p then prune w l ++ (k, v) :: prune w r else []

/-- The entries of priority below `h`, in order. A subtree whose root is not below `h` is not
entered. -/
def belowList (h : Nat) : Tree K V → List (K × V)
  | nil => []
  | node l k v p _ r => if p < h then belowList h l ++ (k, v) :: belowList h r else []

/-! ## Entries -/

theorem toList_rotateUp (fs : List (Frame K V)) (t : Tree K V) :
    (rotateUp fs t).toList = before fs ++ t.toList ++ after fs := by
  fun_induction rotateUp fs t with
  | case1 => simp [before, after]
  | case2 | case3 | case5 => exact toList_plugAll _ _
  | case4 _ _ _ _ _ _ _ _ _ _ _ _ _ ih | case6 _ _ _ _ _ _ _ _ _ _ _ _ _ ih =>
    simp [ih, toList, before, after]

/-- Induction along a `merge`: the empty cases, lifting the left root, lifting the right one. -/
theorem merge_induction {P : Tree K V → Tree K V → Prop} (hl : ∀ r, P nil r) (hr : ∀ l, P l nil)
    (left : ∀ ll k v p s lr rl k' v' p' s' rr, p ≤ p' → P lr (node rl k' v' p' s' rr) →
      P (node ll k v p s lr) (node rl k' v' p' s' rr))
    (right : ∀ ll k v p s lr rl k' v' p' s' rr, ¬ p ≤ p' → P (node ll k v p s lr) rl →
      P (node ll k v p s lr) (node rl k' v' p' s' rr))
    (l r : Tree K V) : P l r := by
  induction l generalizing r with
  | nil => exact hl r
  | node ll k v p s lr _ ihr =>
    induction r with
    | nil => exact hr _
    | node rl k' v' p' s' rr ihl _ =>
      by_cases hp : p ≤ p'
      · exact left _ _ _ _ _ _ _ _ _ _ _ _ hp (ihr _)
      · exact right _ _ _ _ _ _ _ _ _ _ _ _ hp ihl

theorem toList_merge (l r : Tree K V) : (merge l r).toList = l.toList ++ r.toList := by
  induction l, r using merge_induction with
  | hl r => rfl
  | hr l => simp [toList]
  | left ll k v p s lr rl k' v' p' s' rr hp ih => rw [merge_node, if_pos hp]; simp [toList, ih]
  | right ll k v p s lr rl k' v' p' s' rr hp ih => rw [merge_node, if_neg hp]; simp [toList, ih]

/-- Fuel for a walk down a node is fuel for the walk on. -/
theorem exists_fuel {l r : Tree K V} {k : K} {v : V} {p s fuel : Nat}
    (h : (node l k v p s r).toList.length ≤ fuel) :
    ∃ fuel', fuel = fuel' + 1 ∧ l.toList.length ≤ fuel' ∧ r.toList.length ≤ fuel' := by
  rw [toList, length_append, length_cons] at h
  exact ⟨fuel - 1, by omega, by omega, by omega⟩

section Entries

variable [LinearOrder K]

/-- The walk splits the entries at `k`, and stops at `k` if `k` is there. -/
theorem descend_spec {k : K} {t t' : Tree K V} {fs fs' : List (Frame K V)}
    (hd : descend k t fs = (fs', t')) (ht : Ascending t.toList) :
    ∃ B A, before fs' = before fs ++ B ∧ after fs' = A ++ after fs ∧
      t.toList = B ++ t'.toList ++ A ∧ (∀ a ∈ B, a.1 < k) ∧ (∀ a ∈ A, k < a.1) ∧
      (t' = nil ∨ ∃ l v p s r, t' = node l k v p s r) := by
  induction t generalizing fs with
  | nil =>
    cases hd
    exact ⟨[], [], by simp, by simp, rfl, by simp, by simp, Or.inl rfl⟩
  | node l k' v p s r ihl ihr =>
    obtain ⟨hl, hr, hlr⟩ := pairwise_append.1 ht
    obtain ⟨hkr, hr⟩ := pairwise_cons.1 hr
    rw [descend] at hd
    split_ifs at hd with h1 h2
    · obtain ⟨B, A, hB, hA, hlist, hlt, hgt, hend⟩ := ihl hd hl
      refine ⟨B, A ++ (k', p, v) :: r.toList, ?_, ?_, ?_, hlt, ?_, hend⟩
      · simpa [before] using hB
      · simpa [after] using hA
      · simp [toList, hlist]
      · exact forall_mem_append.2 ⟨hgt, forall_mem_cons.2 ⟨h1, fun a ha => h1.trans (hkr a ha)⟩⟩
    · obtain ⟨B, A, hB, hA, hlist, hlt, hgt, hend⟩ := ihr hd hr
      refine ⟨l.toList ++ (k', p, v) :: B, A, ?_, ?_, ?_, ?_, hgt, hend⟩
      · simpa [before] using hB
      · simpa [after] using hA
      · simp [toList, hlist]
      · exact forall_mem_append.2 ⟨fun a ha => (hlr a ha (k', p, v) mem_cons_self).trans h2,
          forall_mem_cons.2 ⟨h2, hlt⟩⟩
    · cases hd
      obtain rfl : k = k' := le_antisymm (not_lt.1 h2) (not_lt.1 h1)
      exact ⟨[], [], by simp, by simp, by simp, by simp, by simp,
        Or.inr ⟨l, v, p, s, r, rfl⟩⟩

/-- `descend_spec` for a walk from the root: the empty place where `k` belongs, or the node of
`k`, with the entries on either side. -/
theorem descend_root {k : K} {t t' : Tree K V} {fs : List (Frame K V)}
    (hd : descend k t [] = (fs, t')) (ht : Ascending t.toList) :
    (t' = nil ∧ t.toList = before fs ++ after fs ∧
      (∀ a ∈ before fs, a.1 < k) ∧ ∀ a ∈ after fs, k < a.1) ∨
    ∃ l v p s r, t' = node l k v p s r ∧
      t.toList = (before fs ++ l.toList) ++ (k, p, v) :: (r.toList ++ after fs) ∧
      (∀ a ∈ before fs ++ l.toList, a.1 < k) := by
  obtain ⟨B, A, hB, hA, hlist, hlt, hgt, hend⟩ := descend_spec hd ht
  simp only [before, after, nil_append, append_nil] at hB hA
  subst hB hA
  rcases hend with rfl | ⟨l, v, p, s, r, rfl⟩
  · exact Or.inl ⟨rfl, by simpa [toList] using hlist, hlt, hgt⟩
  · have hlist' : t.toList = (before fs ++ l.toList) ++ (k, p, v) :: (r.toList ++ after fs) := by
      simpa [toList] using hlist
    refine Or.inr ⟨l, v, p, s, r, rfl, hlist', fun a ha => ?_⟩
    rw [hlist'] at ht
    exact (pairwise_append.1 ht).2.2 a ha (k, p, v) mem_cons_self

/-- What `put` stores: a key that is already there keeps its priority. -/
def stored (p : Nat) (v : V) : Option (Nat × V) → Nat × V
  | none => (p, v)
  | some (q, _) => (q, v)

/-- **Insertion** is insertion into the ordered list of entries. -/
theorem toList_put {t : Tree K V} (ht : Ascending t.toList) (k : K) (v : V) (p : Nat) :
    (put k v p t).toList = insertList k (stored p v (lookupList k t.toList)) t.toList := by
  rcases hd : descend k t [] with ⟨fs, t'⟩
  rw [put, hd]
  rcases descend_root hd ht with ⟨rfl, hlist, hlt, hgt⟩ | ⟨l, v', q, s, r, rfl, hlist, hlt⟩
  · have hnone : lookupList k t.toList = none := by
      rw [hlist, lookupList_append_right hlt]
      exact lookupList_eq_none.2 fun v h => lt_irrefl k (hgt _ h)
    rw [hnone, hlist, stored, insertList_append _ hlt hgt, toList_rotateUp]
    simp [toList]
  · have hsome : lookupList k t.toList = some (q, v') := by
      rw [hlist, lookupList_append_right hlt, lookupList, if_pos rfl]
    rw [hsome, hlist, stored, insertList_replace _ _ hlt, toList_plugAll]
    simp [toList]

/-- **Deletion** is deletion from the ordered list of entries. -/
theorem toList_delete {t : Tree K V} (ht : Ascending t.toList) (k : K) :
    (delete k t).toList = eraseList k t.toList := by
  rcases hd : descend k t [] with ⟨fs, t'⟩
  rw [delete, hd]
  rcases descend_root hd ht with ⟨rfl, hlist, hlt, hgt⟩ | ⟨l, v', q, s, r, rfl, hlist, hlt⟩
  · refine (eraseList_of_lookupList_none ?_).symm
    rw [hlist, lookupList_append_right hlt]
    exact lookupList_eq_none.2 fun v h => lt_irrefl k (hgt _ h)
  · rw [hlist, eraseList_append _ hlt]
    simp only
    rw [toList_plugAll, before_mapSize, after_mapSize, toList_merge]
    simp

theorem get_eq {t : Tree K V} (ht : Ascending t.toList) (k : K) :
    get k t = (lookupList k t.toList).map Prod.snd := by
  induction t with
  | nil => rfl
  | node l k' v p s r ihl ihr =>
    obtain ⟨hl, hr, hlr⟩ := pairwise_append.1 ht
    obtain ⟨hkr, hr⟩ := pairwise_cons.1 hr
    rw [get, toList]
    split_ifs with h1 h2
    · rw [ihl hl, lookupList_append_left]
      exact forall_mem_cons.2 ⟨h1, fun a ha => h1.trans (hkr a ha)⟩
    · have hlt : ∀ a ∈ l.toList, a.1 < k := fun a ha =>
        (hlr a ha (k', p, v) mem_cons_self).trans h2
      rw [ihr hr, lookupList_append_right hlt, lookupList, if_neg h2.ne']
    · obtain rfl : k = k' := le_antisymm (not_lt.1 h2) (not_lt.1 h1)
      have hlt : ∀ a ∈ l.toList, a.1 < k := fun a ha => hlr a ha (k, p, v) mem_cons_self
      rw [lookupList_append_right hlt, lookupList, if_pos rfl, Option.map_some]

end Entries

/-! ## Cached sizes -/

/-- The cached sizes along the way are right for a hole of size `n`. -/
def SizedIn (n : Nat) : List (Frame K V) → Prop
  | [] => True
  | .left _ _ _ s r :: fs => s = n + r.size + 1 ∧ r.Sized ∧ SizedIn s fs
  | .right l _ _ _ s :: fs => s = l.size + n + 1 ∧ l.Sized ∧ SizedIn s fs

theorem sized_plugAll {t : Tree K V} {fs : List (Frame K V)} :
    (plugAll t fs).Sized ↔ t.Sized ∧ SizedIn t.size fs := by
  induction fs generalizing t with
  | nil => simp [plugAll, SizedIn]
  | cons f fs ih =>
    rw [plugAll, ih]
    cases f <;> simp only [Frame.plug, Sized, SizedIn, size_node] <;> tauto

theorem SizedIn.grow {n : Nat} {fs : List (Frame K V)} (h : SizedIn n fs) :
    SizedIn (n + 1) (fs.map (Frame.mapSize (· + 1))) := by
  induction fs generalizing n with
  | nil => trivial
  | cons f fs ih =>
    cases f <;> obtain ⟨rfl, hs, hfs⟩ := h <;> exact ⟨by dsimp only; omega, hs, ih hfs⟩

theorem SizedIn.shrink {n : Nat} {fs : List (Frame K V)} (h : SizedIn (n + 1) fs) :
    SizedIn n (fs.map (Frame.mapSize (· - 1))) := by
  induction fs generalizing n with
  | nil => trivial
  | cons f fs ih =>
    cases f with
    | left k v p s r =>
      obtain ⟨rfl, hs, hfs⟩ := h
      exact ⟨by dsimp only; omega, hs, ih (by simpa [add_right_comm] using hfs)⟩
    | right l k v p s =>
      obtain ⟨rfl, hs, hfs⟩ := h
      exact ⟨by dsimp only; omega, hs, ih (by simpa [add_assoc] using hfs)⟩

section Rotate

variable {isLeft : Bool} {t inner outer o : Tree K V} {k pk : K} {v pv : V} {p s pp ps : Nat}
  {fs : List (Frame K V)}

theorem sized_nodeAt : (nodeAt isLeft t k v p s o).Sized ↔
    s = t.size + o.size + 1 ∧ t.Sized ∧ o.Sized := by
  cases isLeft
  · simp only [nodeAt, cond_false, Sized, add_comm o.size, and_comm (a := o.Sized)]
  · rfl

theorem sizedIn_frameAt {n : Nat} : SizedIn n (frameAt isLeft k v p s o :: fs) ↔
    s = n + o.size + 1 ∧ o.Sized ∧ SizedIn s fs := by
  cases isLeft
  · simp only [frameAt, cond_false, SizedIn, add_comm o.size]
  · rfl

theorem size_nodeAt : (nodeAt isLeft t k v p s o).size = s := by
  cases isLeft <;> rfl

theorem rotateUp_at : rotateUp (frameAt isLeft pk pv pp ps o :: fs)
      (nodeAt isLeft outer k v p s inner) =
    if pp ≤ p then plugAll (nodeAt isLeft outer k v p s inner) (frameAt isLeft pk pv pp ps o :: fs)
    else rotateUp fs (nodeAt isLeft outer k v p (s + (1 + o.size))
      (nodeAt isLeft inner pk pv pp (ps - (1 + outer.size)) o)) := by
  cases isLeft <;> rfl

theorem sized_rotate (ht : (nodeAt isLeft outer k v p s inner).Sized)
    (hfs : SizedIn s (frameAt isLeft pk pv pp ps o :: fs)) :
    (nodeAt isLeft outer k v p (s + (1 + o.size))
        (nodeAt isLeft inner pk pv pp (ps - (1 + outer.size)) o)).Sized ∧
      SizedIn (s + (1 + o.size)) fs := by
  obtain ⟨hs, houter, hinner⟩ := sized_nodeAt.1 ht
  obtain ⟨hps, ho, hfs⟩ := sizedIn_frameAt.1 hfs
  refine ⟨sized_nodeAt.2 ⟨?_, houter, sized_nodeAt.2 ⟨by omega, hinner, ho⟩⟩, ?_⟩
  · rw [size_nodeAt]
    omega
  · rwa [show s + (1 + o.size) = ps by omega]

end Rotate

theorem sized_rotateUp {fs : List (Frame K V)} {t : Tree K V} (ht : t.Sized)
    (hfs : SizedIn t.size fs) : (rotateUp fs t).Sized := by
  induction fs generalizing t with
  | nil => exact ht
  | cons f fs ih =>
    cases t with
    | nil => exact sized_plugAll.2 ⟨ht, hfs⟩
    | node l k v p s r =>
      obtain ⟨isLeft, pk, pv, pp, ps, o, rfl⟩ := exists_frameAt f
      obtain ⟨outer, inner, he⟩ := exists_nodeAt isLeft l k v p s r
      rw [he] at ht hfs ⊢
      rw [rotateUp_at]
      split_ifs
      · exact sized_plugAll.2 ⟨ht, hfs⟩
      · rw [size_nodeAt] at hfs
        obtain ⟨ht', hfs'⟩ := sized_rotate ht hfs
        exact ih ht' (by rwa [size_nodeAt])

theorem sized_merge (hl : l.Sized) (hr : r.Sized) :
    (merge l r).Sized ∧ (merge l r).size = l.size + r.size := by
  induction l, r using merge_induction with
  | hl r => exact ⟨hr, (zero_add _).symm⟩
  | hr l => rw [merge_nil]; exact ⟨hl, rfl⟩
  | left ll k v p s lr rl k' v' p' s' rr hp ih =>
    obtain ⟨h, hs⟩ := ih hl.2.2 hr
    rw [merge_node, if_pos hp]
    refine ⟨⟨?_, hl.2.1, h⟩, by simp⟩
    rw [hs, hl.1, size_node]; omega
  | right ll k v p s lr rl k' v' p' s' rr hp ih =>
    obtain ⟨h, hs⟩ := ih hl hr.2.1
    rw [merge_node, if_neg hp]
    refine ⟨⟨?_, h, hr.2.2⟩, by simp [add_comm]⟩
    rw [hs, hr.1, size_node]; omega

/-! ## Heap order -/

/-- The smallest priority allowed in the hole. -/
def bound : List (Frame K V) → Nat
  | [] => 0
  | .left _ _ p _ _ :: _ => p
  | .right _ _ _ p _ :: _ => p

/-- The nodes along the way, and their other subtrees, are in heap order. -/
def HeapIn : List (Frame K V) → Prop
  | [] => True
  | .left _ _ p _ r :: fs => r.AtLeast p ∧ r.Heap ∧ bound fs ≤ p ∧ HeapIn fs
  | .right l _ _ p _ :: fs => l.AtLeast p ∧ l.Heap ∧ bound fs ≤ p ∧ HeapIn fs

theorem heap_plugAll {t : Tree K V} {fs : List (Frame K V)} :
    (plugAll t fs).Heap ↔ t.Heap ∧ t.AtLeast (bound fs) ∧ HeapIn fs := by
  induction fs generalizing t with
  | nil => simp [plugAll, HeapIn, bound, AtLeast]
  | cons f fs ih =>
    rw [plugAll, ih]
    cases f <;> simp only [Frame.plug, Heap, HeapIn, bound, atLeast_node] <;>
      constructor <;> rintro h
    · tauto
    · exact ⟨⟨h.2.1, h.2.2.1, h.1, h.2.2.2.1⟩,
        ⟨h.2.1.mono h.2.2.2.2.1, h.2.2.2.2.1, h.2.2.1.mono h.2.2.2.2.1⟩, h.2.2.2.2.2⟩
    · tauto
    · exact ⟨⟨h.2.2.1, h.2.1, h.2.2.2.1, h.1⟩,
        ⟨h.2.2.1.mono h.2.2.2.2.1, h.2.2.2.2.1, h.2.1.mono h.2.2.2.2.1⟩, h.2.2.2.2.2⟩

theorem bound_mapSize (f : Nat → Nat) (fs : List (Frame K V)) :
    bound (fs.map (Frame.mapSize f)) = bound fs := by
  cases fs with
  | nil => rfl
  | cons g fs => cases g <;> rfl

theorem heapIn_mapSize (f : Nat → Nat) {fs : List (Frame K V)} :
    HeapIn (fs.map (Frame.mapSize f)) ↔ HeapIn fs := by
  induction fs with
  | nil => rfl
  | cons g fs ih => cases g <;> simp [HeapIn, Frame.mapSize, bound_mapSize, ih]

/-- The rotated node need not respect the bound itself; its subtrees must. -/
theorem heap_rotateUp {fs : List (Frame K V)} {k : K} {v : V} {p s : Nat}
    (hn : (node l k v p s r).Heap) (hl : l.AtLeast (bound fs)) (hr : r.AtLeast (bound fs))
    (hfs : HeapIn fs) : (rotateUp fs (node l k v p s r)).Heap := by
  induction fs generalizing l k v p s r with
  | nil => exact hn
  | cons f fs ih =>
    cases f with
    | left pk pv pp ps pr =>
      obtain ⟨hpr, hpr', hb, hfs'⟩ := hfs
      rw [rotateUp]
      split_ifs with h
      · exact heap_plugAll.2 ⟨hn, atLeast_node.2 ⟨hl, h, hr⟩, hpr, hpr', hb, hfs'⟩
      · have hpp : p ≤ pp := by omega
        refine ih ⟨hn.1, ?_, hn.2.2.1, hr, hpr, hn.2.2.2, hpr'⟩ (hl.mono hb) ?_ hfs'
        · exact atLeast_node.2 ⟨hn.2.1, hpp, hpr.mono hpp⟩
        · exact atLeast_node.2 ⟨hr.mono hb, hb, hpr.mono hb⟩
    | right pl pk pv pp ps =>
      obtain ⟨hpl, hpl', hb, hfs'⟩ := hfs
      rw [rotateUp]
      split_ifs with h
      · exact heap_plugAll.2 ⟨hn, atLeast_node.2 ⟨hl, h, hr⟩, hpl, hpl', hb, hfs'⟩
      · have hpp : p ≤ pp := by omega
        refine ih ⟨?_, hn.2.1, ⟨hpl, hl, hpl', hn.2.2.1⟩, hn.2.2.2⟩ ?_ (hr.mono hb) hfs'
        · exact atLeast_node.2 ⟨hpl.mono hpp, hpp, hn.1⟩
        · exact atLeast_node.2 ⟨hpl.mono hb, hb, hl.mono hb⟩

theorem atLeast_merge {q : Nat} (hl : l.AtLeast q) (hr : r.AtLeast q) : (merge l r).AtLeast q := by
  rw [AtLeast, toList_merge]
  exact forall_mem_append.2 ⟨hl, hr⟩

theorem heap_merge (hl : l.Heap) (hr : r.Heap) : (merge l r).Heap := by
  induction l, r using merge_induction with
  | hl r => exact hr
  | hr l => rw [merge_nil]; exact hl
  | left ll k v p s lr rl k' v' p' s' rr hp ih =>
    rw [merge_node, if_pos hp]
    exact ⟨hl.1, atLeast_merge hl.2.1 (hr.atLeast.mono hp), hl.2.2.1, ih hl.2.2.2 hr⟩
  | right ll k v p s lr rl k' v' p' s' rr hp ih =>
    rw [merge_node, if_neg hp]
    exact ⟨atLeast_merge (hl.atLeast.mono (by omega)) hr.1, hr.2.1, ih hl hr.2.2.1, hr.2.2.2⟩

/-! ## The operations keep the shape -/

section Shape

variable [LinearOrder K]

/-- The walk takes the tree apart without changing it. -/
theorem plugAll_descend (t : Tree K V) (k : K) (fs : List (Frame K V)) {t' : Tree K V}
    {fs' : List (Frame K V)} (hd : descend k t fs = (fs', t')) : plugAll t' fs' = plugAll t fs := by
  induction t generalizing fs with
  | nil => obtain ⟨rfl, rfl⟩ := Prod.mk.inj hd; rfl
  | node l k' v p s r ihl ihr =>
    rw [descend] at hd
    split_ifs at hd
    · exact ihl _ hd
    · exact ihr _ hd
    · obtain ⟨rfl, rfl⟩ := Prod.mk.inj hd; rfl

theorem exists_plugAll (k : K) (t : Tree K V) :
    ∃ fs t', descend k t [] = (fs, t') ∧ plugAll t' fs = t :=
  ⟨_, _, rfl, plugAll_descend t k [] rfl⟩

/-- The walk puts its frames before those that are there. -/
theorem descend_append (k : K) (t : Tree K V) (fs : List (Frame K V)) :
    descend k t fs = ((descend k t []).1 ++ fs, (descend k t []).2) := by
  induction t generalizing fs with
  | nil => rfl
  | node l k' v p s r ihl ihr =>
    rw [descend, descend]
    split_ifs
    · rw [ihl, ihl [_]]
      simp
    · rw [ihr, ihr [_]]
      simp
    · rfl

/-- The walk goes on at the side of the key. -/
theorem descend_nodeAt {isLeft : Bool} {key k : K} (h : bif isLeft then key < k else k < key)
    (t : Tree K V) (v : V) (p s : Nat) (o : Tree K V) : descend key (nodeAt isLeft t k v p s o) [] =
      ((descend key t []).1 ++ [frameAt isLeft k v p s o], (descend key t []).2) := by
  rw [← descend_append]
  cases isLeft
  · exact (if_neg (not_lt_of_gt h)).trans (if_pos h)
  · exact if_pos h

/-- A key is there if the walk ends at a node. -/
theorem isSome_get_iff {t : Tree K V} {k : K} {fs fs' : List (Frame K V)} {t' : Tree K V}
    (hd : descend k t fs = (fs', t')) : (get k t).isSome = true ↔ t' ≠ nil := by
  induction t generalizing fs with
  | nil =>
    cases hd
    simp [get]
  | node l k' v p s r ihl ihr =>
    rw [descend] at hd
    rw [get]
    split_ifs at hd ⊢
    · exact ihl hd
    · exact ihr hd
    · cases hd
      simp

theorem sized_put {t : Tree K V} (ht : t.Sized) (k : K) (v : V) (p : Nat) :
    (put k v p t).Sized := by
  obtain ⟨fs, t', hd, hplug⟩ := exists_plugAll k t
  obtain ⟨ht', hfs⟩ := sized_plugAll.1 (hplug ▸ ht)
  rw [put, hd]
  cases t' with
  | nil => exact sized_rotateUp ⟨rfl, trivial, trivial⟩ hfs.grow
  | node l k' v' q s r => exact sized_plugAll.2 ⟨ht', hfs⟩

theorem heap_put {t : Tree K V} (ht : t.Heap) (k : K) (v : V) (p : Nat) : (put k v p t).Heap := by
  obtain ⟨fs, t', hd, hplug⟩ := exists_plugAll k t
  obtain ⟨ht', hb, hfs⟩ := heap_plugAll.1 (hplug ▸ ht)
  rw [put, hd]
  cases t' with
  | nil =>
    have hnil : ∀ q, (nil : Tree K V).AtLeast q := by simp [AtLeast, toList]
    exact heap_rotateUp ⟨hnil _, hnil _, trivial, trivial⟩ (hnil _) (hnil _)
      ((heapIn_mapSize _).2 hfs)
  | node l k' v' q s r =>
    rw [atLeast_node] at hb
    exact heap_plugAll.2 ⟨ht', atLeast_node.2 hb, hfs⟩

theorem sized_delete {t : Tree K V} (ht : t.Sized) (k : K) : (delete k t).Sized := by
  obtain ⟨fs, t', hd, hplug⟩ := exists_plugAll k t
  obtain ⟨ht', hfs⟩ := sized_plugAll.1 (hplug ▸ ht)
  rw [delete, hd]
  cases t' with
  | nil => exact ht
  | node l k' v' q s r =>
    obtain ⟨rfl, hl, hr⟩ := ht'
    obtain ⟨hm, hs⟩ := sized_merge hl hr
    exact sized_plugAll.2 ⟨hm, hs ▸ hfs.shrink⟩

theorem heap_delete {t : Tree K V} (ht : t.Heap) (k : K) : (delete k t).Heap := by
  obtain ⟨fs, t', hd, hplug⟩ := exists_plugAll k t
  obtain ⟨ht', hb, hfs⟩ := heap_plugAll.1 (hplug ▸ ht)
  rw [delete, hd]
  cases t' with
  | nil => exact ht
  | node l k' v' q s r =>
    rw [atLeast_node] at hb
    refine heap_plugAll.2 ⟨heap_merge ht'.2.2.1 ht'.2.2.2, ?_, (heapIn_mapSize _).2 hfs⟩
    rw [bound_mapSize]
    exact atLeast_merge hb.1 hb.2.2

end Shape

/-! ## Access by position and by priority -/

/-- **Access by position** finds the entry at that place of the ordered list. -/
theorem getByIndex_eq {t : Tree K V} (ht : t.Sized) (i : Nat) :
    getByIndex t i = (t.toList[i]?).map fun a => (a.1, a.2.2) := by
  induction t generalizing i with
  | nil => simp [getByIndex, toList]
  | node l k v p s r ihl ihr =>
    obtain ⟨-, hl, hr⟩ := ht
    have hlen := hl.size_eq
    rw [getByIndex, toList]
    split_ifs with h1 h2
    · rw [ihl hl, List.getElem?_append_left (hlen ▸ h1)]
    · rw [List.getElem?_append_right (by omega), ← hlen, h2]
      simp
    · rw [ihr hr, List.getElem?_append_right (by omega), ← hlen, List.getElem?_cons,
        if_neg (by omega)]

theorem prune_true (t : Tree K V) :
    t.prune (fun _ => true) = t.toList.map fun a => (a.1, a.2.2) := by
  induction t with
  | nil => rfl
  | node l k v p s r ihl ihr => simp [prune, toList, ihl, ihr]

theorem prune_lt (t : Tree K V) (h : Nat) : t.prune (· < h) = t.belowList h := by
  induction t with
  | nil => rfl
  | node l k v p s r ihl ihr => simp only [prune, belowList, ihl, ihr, decide_eq_true_eq]

theorem length_prune_le (w : Nat → Bool) (t : Tree K V) : (t.prune w).length ≤ t.toList.length := by
  induction t with
  | nil => exact Nat.le_refl 0
  | node l k v p s r ihl ihr =>
    rw [prune]
    split_ifs
    · simp only [toList, length_append, length_cons]
      omega
    · exact Nat.zero_le _

/-- **The entries below a priority.** In heap order nothing is missed by not entering a subtree
whose root is not below the bound. -/
theorem belowList_eq {t : Tree K V} (ht : t.Heap) (h : Nat) :
    belowList h t = (t.toList.filter (·.2.1 < h)).map fun a => (a.1, a.2.2) := by
  induction t with
  | nil => rfl
  | node l k v p s r ihl ihr =>
    rw [belowList]
    split_ifs with hp
    · simp [toList, ihl ht.2.2.1, ihr ht.2.2.2, hp]
    · have hall := ht.atLeast.mono (not_lt.1 hp)
      rw [filter_eq_nil_iff.2, map_nil]
      intro a ha
      simpa using hall a ha

end Tree

end Treap
