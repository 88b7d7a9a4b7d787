import Fnod.Stake.TreapDelete

/-!
# Access to the ticket treap

`ForEach` and `ForEachByHeight` keep the nodes that are still to be visited on a stack. What is left
of the walk can be read off the stack: each node on it stands for its own entry and for the entries
of its right subtree (`Pending`), and one turn of the loop takes the first of them.

* `get_spec`, `has_spec`, `getByIndex_spec` — the loops that walk down.
* `forEach_spec`, `forEachByHeight_spec` — the loops with the stack.
-/

namespace Fnod

open NodeMem Option OrdMap StaticStack Treap Treap.Tree

namespace NodeTreap

/-! ## By key -/

variable {m : Nodes} {t : NodeTreap} {T : Immutable}

section Get

variable {tree : Tree Hash TicketValue} {ptr : Ptr} {fuel : Nat}

theorem getNode_spec (key : Hash) (ht : Rep layout m ptr tree) (hfuel : tree.toList.length ≤ fuel) :
    ∃ node, getNode key fuel m ptr = some node ∧
      node.map (fun n => n.data.value) = tree.get key := by
  induction tree generalizing ptr fuel with
  | nil =>
    obtain rfl := ht.of_nil
    exact ⟨none, by cases fuel <;> rfl, rfl⟩
  | node l k v p s r ihl ihr =>
    obtain ⟨a, n, rfl, hn, rfl, hshow, hl, hr⟩ := ht.of_node
    obtain ⟨fuel, rfl, hfl, hfr⟩ := exists_fuel hfuel
    rw [getNode, hn, Treap.Tree.get]
    simp only [bind_eq_bind, bind_some, layout_key]
    by_cases hlt : key < n.data.key
    · simp only [hlt, if_true]
      exact ihl hl hfl
    · by_cases hgt : n.data.key < key
      · simp only [hlt, hgt, if_true, if_false]
        exact ihr hr hfr
      · simp only [hlt, hgt, if_false]
        exact ⟨some n, rfl, congrArg some hshow.1⟩

theorem getNode_root (h : Stands m t T) (key : Hash) : ∃ node,
    getNode key t.count m t.root = some node ∧ node.map (fun n => n.data.value) = T.get key :=
  getNode_spec key h.rep (le_of_eq (T.count_eq.symm.trans h.count.symm))

theorem get_spec (h : Stands m t T) (key : Hash) : get m t key = some (T.get key) := by
  obtain ⟨node, hnode, hvalue⟩ := getNode_root h key
  rw [get, hnode, ← hvalue]
  rfl

theorem has_spec (h : Stands m t T) (key : Hash) : has m t key = some (T.has key) := by
  obtain ⟨node, hnode, hvalue⟩ := getNode_root h key
  rw [has, hnode, Immutable.has, ← hvalue, isSome_map]
  rfl

/-! ## By position -/

theorem toNat_size {n : Node TreapNode} {v : TicketValue} {p s : Nat}
    (h : layout.Shows n.data v p s) (hs : s < 2 ^ 32) : n.data.size.toNat = s := by
  rw [h.2.2]
  exact UInt32.toNat_ofNat_of_lt' hs

theorem getByIndexFrom_spec (i : Nat)
    (ht : Rep layout m ptr tree) (hsized : tree.Sized) (hsize : tree.size < 2 ^ 32)
    (hfuel : tree.toList.length ≤ fuel) : getByIndexFrom fuel m ptr i = tree.getByIndex i := by
  induction tree generalizing ptr fuel i with
  | nil =>
    obtain rfl := ht.of_nil
    cases fuel <;> rfl
  | node l k v p s r ihl ihr =>
    obtain ⟨a, n, rfl, hn, rfl, hshow, hl, hr⟩ := ht.of_node
    obtain ⟨hs, hsl, hsr⟩ := hsized
    rw [size_node] at hsize
    obtain ⟨fuel, rfl, hfl, hfr⟩ := exists_fuel hfuel
    have hentry : (n.data.key, n.data.value) = (layout.key n.data, v) := by
      rw [layout_key, hshow.1]
    rw [getByIndexFrom, hn, Tree.getByIndex]
    simp only [bind_eq_bind, bind_some]
    cases hleft : n.left with
    | none =>
      rw [hleft] at hl
      obtain rfl := hl.eq_nil
      simp only [size_nil, Nat.not_lt_zero, if_false]
      by_cases hi : i = 0
      · simp [hi, hentry]
      · have hsub : (i : Int) - 1 = (i - 0 - 1 : Nat) := by omega
        have hne : (i : Int) ≠ 0 := by omega
        simp only [hi, hne, if_false, hsub]
        exact ihr _ hr hsr (by omega) (by omega)
    | some b =>
      rw [hleft] at hl
      obtain ⟨nl, ll, lk, lv, lp, ls, lr, rfl, hnl, -, hshowl, -⟩ := hl.of_some
      have hls : nl.data.size.toNat = ls := toNat_size hshowl (by
        rw [size_node] at hs
        omega)
      simp only [hnl, bind_some, hls, size_node, Int.ofNat_lt, Int.ofNat_inj]
      rw [size_node] at hs
      by_cases hlt : i < ls
      · simp only [hlt, if_true]
        exact ihl _ hl hsl (by rw [size_node]; omega) (by omega)
      · by_cases heq : i = ls
        · simp [heq, hentry]
        · have hsub : (i : Int) - ls - 1 = (i - ls - 1 : Nat) := by omega
          simp only [hlt, heq, if_false, hsub]
          exact ihr _ hr hsr (by omega) (by omega)

/-- **`GetByIndex`** of a position of the treap. -/
theorem getByIndex_spec (h : Stands m t T) (hcount : T.count < 2 ^ 32) {i : Nat}
    (hi : i < T.count) : getByIndex m t i = T.getByIndex i := by
  have hsize := T.sized.size_eq
  rw [← T.count_eq] at hsize
  cases hroot : t.root with
  | none =>
    have hnil := (hroot ▸ h.rep).eq_nil
    rw [hnil, size_nil] at hsize
    omega
  | some a =>
    obtain ⟨n, l, k, v, p, s, r, htree, hn, -, hshow, -⟩ := (hroot ▸ h.rep).of_some
    have hs : s = T.count := by rw [← hsize, htree, size_node]
    have hbound : ¬((i : Int) < 0 ∨ (i : Int) > n.data.size.toNat) := by
      rw [toNat_size hshow (by omega), hs]
      omega
    rw [getByIndex, hroot]
    simp only [bind_eq_bind, bind_some, hn, hbound, if_false]
    rw [← hroot]
    exact getByIndexFrom_spec i h.rep T.sized (by omega) (by
      rw [h.count, T.count_eq]
      omega)

end Get

/-! ## In order -/

section Visit

variable {σ : Type} {w : Nat → Bool} {count turns : Nat} {as : List Nat}
  {xs : List (Hash × TicketValue)}

/-- A callback is called for one entry after the other, as long as it asks for more. -/
def callWhile (fn : Hash → TicketValue → σ → σ × Bool) : List (Hash × TicketValue) → σ → σ
  | [], s => s
  | a :: as, s => if (fn a.1 a.2 s).2 then callWhile fn as (fn a.1 a.2 s).1 else (fn a.1 a.2 s).1

/-- The entries that the nodes on the stack stand for. -/
inductive Pending (m : Nodes) (w : Nat → Bool) (count : Nat) :
    List Nat → List (Hash × TicketValue) → Prop
  | nil : Pending m w count [] []
  | cons {a : Nat} {n : Node TreapNode} {r : Tree Hash TicketValue} {as : List Nat}
      {xs : List (Hash × TicketValue)} (cell : m.cells a = some n) (right : Rep layout m n.right r)
      (short : r.toList.length ≤ count) (rest : Pending m w count as xs) :
      Pending m w count (a :: as) ((n.data.key, n.data.value) :: (r.prune w ++ xs))

variable {parents : ParentStack}

theorem pushLeft_spec {tree : Tree Hash TicketValue} {ptr : Ptr} {fuel : Nat}
    (ht : Rep layout m ptr tree)
    (hs : parents.Holds as) (hxs : Pending m w count as xs) (hfuel : tree.toList.length ≤ fuel)
    (hcount : tree.toList.length ≤ count) :
    ∃ parents' as', pushLeft (fun n => w n.priority) fuel m ptr parents = some parents' ∧
      parents'.Holds as' ∧ Pending m w count as' (tree.prune w ++ xs) := by
  induction tree generalizing ptr parents as xs fuel with
  | nil =>
    obtain rfl := ht.of_nil
    exact ⟨parents, as, by cases fuel <;> rfl, hs, hxs⟩
  | node l k v p s r ihl ihr =>
    obtain ⟨a, n, rfl, hn, rfl, hshow, hl, hr⟩ := ht.of_node
    have hlen : (.node l (layout.key n.data) v p s r : Tree Hash TicketValue).toList.length =
        l.toList.length + r.toList.length + 1 := by
      simp [Tree.toList, add_assoc]
    obtain ⟨fuel, rfl⟩ : ∃ fuel', fuel = fuel' + 1 := ⟨fuel - 1, by omega⟩
    rw [pushLeft, hn, prune]
    simp only [bind_eq_bind, bind_some, hshow.2.1]
    by_cases hw : w p = true
    · simp only [hw, if_true]
      obtain ⟨parents', as', hpush, hs', hxs'⟩ := ihl hl (hs.push a)
        (.cons hn hr (by omega) hxs) (show l.toList.length ≤ fuel by omega) (by omega)
      refine ⟨parents', as', hpush, hs', ?_⟩
      rw [layout_key, ← hshow.1]
      simpa using hxs'
    · simp only [hw, Bool.false_eq_true, if_false]
      exact ⟨parents, as, rfl, hs, hxs⟩

theorem visit_nil {wanted : TreapNode → Bool} (fn : Hash → TicketValue → σ → σ × Bool)
    (hs : parents.Holds []) (s : σ) : visit wanted fn count turns m parents s = some s := by
  unfold visit
  rw [show parents.len = 0 from hs.index]
  rfl

/-- **The loop** calls the callback for the entries that are pending. -/
theorem visit_spec
    (fn : Hash → TicketValue → σ → σ × Bool) (hs : parents.Holds as) (hxs : Pending m w count as xs)
    (hturns : xs.length ≤ turns) (s : σ) :
    visit (fun n => w n.priority) fn count turns m parents s = some (callWhile fn xs s) := by
  induction turns generalizing parents as xs s with
  | zero =>
    cases hxs with
    | nil => exact visit_nil fn hs s
    | cons => simp at hturns
  | succ turns ih =>
    cases hxs with
    | nil => exact visit_nil fn hs s
    | @cons a n r as xs cell right short rest =>
      obtain ⟨parents₁, hpop, hs₁⟩ := hs.pop
      obtain ⟨parents₂, as₂, hpush, hs₂, hxs₂⟩ := pushLeft_spec right hs₁ rest short short
      have hlen : ¬parents.len = 0 := by
        rw [show parents.len = _ from hs.index]
        simp
      rw [visit, callWhile]
      simp only [hlen, if_false, hpop, bind_eq_bind, bind_some, cell]
      by_cases hgo : (fn n.data.key n.data.value s).2 = true
      · simp only [hgo, Bool.not_true, Bool.false_eq_true, if_false, if_true, hpush, bind_some]
        exact ih hs₂ hxs₂ (by simpa using hturns) _
      · rw [Bool.not_eq_true] at hgo
        simp [hgo]

/-- **A walk over the whole treap.** -/
theorem walk_spec (h : Stands m t T) (fn : Hash → TicketValue → σ → σ × Bool) (s : σ) : (do
      let parents ← pushLeft (fun n => w n.priority) t.count m t.root .empty
      visit (fun n => w n.priority) fn t.count t.count m parents s) =
      some (callWhile fn (T.root.prune w) s) := by
  have hcount : T.root.toList.length ≤ t.count := le_of_eq (T.count_eq.symm.trans h.count.symm)
  obtain ⟨parents, as, hpush, hs, hxs⟩ := pushLeft_spec (w := w) h.rep Stack.holds_empty .nil hcount
    hcount
  rw [List.append_nil] at hxs
  rw [hpush]
  exact visit_spec fn hs hxs ((length_prune_le w T.root).trans hcount) s

/-- **`ForEach`** visits all entries in ascending order. -/
theorem forEach_spec (h : Stands m t T) (fn : Hash → TicketValue → σ → σ × Bool) (s : σ) :
    forEach m t fn s = some (callWhile fn T.toMap.toList s) := by
  have hlist : T.toMap.toList = T.root.prune fun _ => true := (prune_true T.root).symm
  rw [hlist]
  exact walk_spec (w := fun _ => true) h fn s

/-- **`ForEachByHeight`** does not enter subtrees with a root that is not below the height. -/
theorem forEachByHeight_spec (h : Stands m t T) (heightLessThan : Nat)
    (fn : Hash → TicketValue → σ → σ × Bool) (s : σ) : forEachByHeight m t heightLessThan fn s =
      some (callWhile fn (T.forEachByHeight heightLessThan) s) := by
  rw [Immutable.forEachByHeight, ← prune_lt]
  exact walk_spec (w := (· < heightLessThan)) h fn s

end Visit

end NodeTreap

end Fnod
