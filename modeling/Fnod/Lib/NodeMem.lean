import Fnod.Lib.Treap

/-!
# Search trees in memory

Programs that change a search tree work on nodes in memory: they copy a node, write to a copy and
link it into its parent. Here the memory is a map from addresses to nodes. New nodes get new
addresses, so that nothing that was there before is touched as long as only new nodes are written
to (`Keeps`).

The tree that a pointer leads to is `Rep`; the way from the root to a place in the tree is `Path`,
whose nodes are those of the frames. No key occurs twice in a search tree. A write to a node can
therefore only matter to trees that contain the key of the node, and this is all that is needed to
know that the other parts stay as they are.

* `Rep.frame`, `Path.frame` — writes to other nodes.
* `Path.rep` — the tree at the end of a path is part of the tree at the root.
* `Path.relink` — another node takes the place at the end of the path.
-/

namespace NodeMem

open Function List Treap Treap.Tree

/-- A pointer: the address of a node, or `nil`. -/
abbrev Ptr := Option Nat

/-- A node: its data and its children. -/
structure Node (D : Type*) where
  data : D
  left : Ptr
  right : Ptr

/-- The child on one side. -/
def Node.child {D : Type*} (n : Node D) (isLeft : Bool) : Ptr := bif isLeft then n.left else n.right

/-- Another child on one side. -/
def Node.setChild {D : Type*} (n : Node D) (isLeft : Bool) (ptr : Ptr) : Node D :=
  bif isLeft then { n with left := ptr } else { n with right := ptr }

@[simp] theorem Node.data_setChild {D : Type*} (n : Node D) (isLeft : Bool) (ptr : Ptr) :
    (n.setChild isLeft ptr).data = n.data := by
  cases isLeft <;> rfl

@[simp] theorem Node.child_setChild {D : Type*} (n : Node D) (isLeft : Bool) (ptr : Ptr) :
    (n.setChild isLeft ptr).child isLeft = ptr := by
  cases isLeft <;> rfl

@[simp] theorem Node.child_setChild_not {D : Type*} (n : Node D) (isLeft : Bool) (ptr : Ptr) :
    (n.setChild isLeft ptr).child (!isLeft) = n.child (!isLeft) := by
  cases isLeft <;> rfl

/-- Nodes by address. The addresses from `next` on are free. -/
structure Mem (D : Type*) where
  cells : Nat → Option (Node D)
  next : Nat
  fresh : ∀ a, next ≤ a → cells a = none

namespace Mem

variable {D : Type*}

def empty : Mem D := ⟨fun _ => none, 0, fun _ _ => rfl⟩

def alloc (m : Mem D) (n : Node D) : Mem D × Nat :=
  ({ cells := Function.update m.cells m.next (some n)
     next := m.next + 1
     fresh := fun a ha => by
      rw [Function.update_of_ne (by omega)]
      exact m.fresh a (by omega) }, m.next)

def modify (m : Mem D) (a : Nat) (f : Node D → Node D) : Mem D where
  cells := Function.update m.cells a ((m.cells a).map f)
  next := m.next
  fresh b hb := by
    by_cases hab : b = a
    · rw [hab, Function.update_self, m.fresh a (hab ▸ hb), Option.map_none]
    · rw [Function.update_of_ne hab, m.fresh b hb]

/-- The child `old` of a node is replaced. -/
def relink (m : Mem D) (parent old new : Nat) : Mem D :=
  m.modify parent fun n =>
    if n.left = some old then { n with left := some new } else { n with right := some new }

variable {m m' m'' : Mem D} {a b : Nat} {n : Node D} {f : Node D → Node D}

@[simp] theorem alloc_snd : (m.alloc n).2 = m.next := rfl

@[simp] theorem cells_alloc_self : (m.alloc n).1.cells m.next = some n := update_self _ _ _

@[simp] theorem cells_modify_self : (m.modify a f).cells a = (m.cells a).map f :=
  update_self _ _ _

theorem cells_modify (m : Mem D) (a : Nat) (f : Node D → Node D) (b : Nat) :
    (m.modify a f).cells b = if b = a then (m.cells a).map f else m.cells b :=
  update_apply _ _ _ _

theorem cells_modify_of_ne (h : b ≠ a) : (m.modify a f).cells b = m.cells b :=
  update_of_ne h _ _

theorem cells_next : m.cells m.next = none := m.fresh _ (le_rfl)

theorem ne_of_cells (hn : m.cells a = some n) (hb : m.cells b = none) : a ≠ b := by
  rintro rfl
  rw [hb] at hn
  cases hn

/-- All nodes of the first memory are in the second one. -/
def Keeps (m m' : Mem D) : Prop := ∀ a n, m.cells a = some n → m'.cells a = some n

theorem Keeps.refl (m : Mem D) : Keeps m m := fun _ _ h => h

theorem Keeps.trans (h : Keeps m m') (h' : Keeps m' m'') : Keeps m m'' :=
  fun a n hn => h' a n (h a n hn)

theorem keeps_alloc (m : Mem D) (n : Node D) : Keeps m (m.alloc n).1 := by
  intro a n' hn
  exact (update_of_ne (ne_of_cells hn cells_next) _ _).trans hn

theorem Keeps.modify (h : Keeps m m') (ha : m.cells a = none) (f : Node D → Node D) :
    Keeps m (m'.modify a f) := by
  intro b n hn
  rw [cells_modify_of_ne (ne_of_cells hn ha)]
  exact h b n hn

/-- Writes to two nodes that are not in the first memory. -/
theorem Keeps.of_others {c d : Nat} (h : Keeps m m') (hc : m.cells c = none) (hd : m.cells d = none)
    (hothers : ∀ b, b ≠ c → b ≠ d → m''.cells b = m'.cells b) : Keeps m m'' := by
  intro b n hn
  rw [hothers b (ne_of_cells hn hc) (ne_of_cells hn hd)]
  exact h b n hn

theorem Keeps.cells_next (h : Keeps m m') : m.cells m'.next = none := by
  cases hc : m.cells m'.next with
  | none => rfl
  | some n => exact nomatch Mem.cells_next.symm.trans (h _ n hc)

theorem cells_modifyAll (as : List Nat) (hnodup : as.Nodup) (f : Node D → Node D) (m : Mem D)
    (a : Nat) : (as.foldl (fun m a => m.modify a f) m).cells a =
      if a ∈ as then (m.cells a).map f else m.cells a := by
  induction as generalizing m with
  | nil => simp
  | cons b as ih =>
    obtain ⟨hb, hnodup⟩ := nodup_cons.1 hnodup
    rw [foldl_cons, ih hnodup]
    by_cases hab : a = b
    · subst hab
      simp [hb]
    · simp [hab, cells_modify_of_ne]

end Mem

/-! ## Trees -/

/-- How the data of a node shows its key, and its value, priority and size. -/
structure Layout (D K V : Type*) where
  key : D → K
  Shows : D → V → Nat → Nat → Prop

section Rep

variable {D K V : Type*} (L : Layout D K V)

/-- The tree that a pointer leads to. -/
inductive Rep (m : Mem D) : Ptr → Tree K V → Prop
  | nil : Rep m none .nil
  | node {a : Nat} {n : Node D} {l r : Tree K V} {k : K} {v : V} {p s : Nat}
      (cell : m.cells a = some n) (key : L.key n.data = k) (shows' : L.Shows n.data v p s)
      (left : Rep m n.left l) (right : Rep m n.right r) : Rep m (some a) (.node l k v p s r)

variable {L} {m m' : Mem D} {ptr hole root : Ptr} {t l r : Tree K V} {k : K} {v : V} {p s : Nat}
  {a b : Nat} {n : Node D} {f : Node D → Node D} {fs : List (Frame K V)} {as : List Nat}

def keys (t : Tree K V) : List K := t.toList.map Prod.fst

@[simp] theorem keys_nil : keys (.nil : Tree K V) = [] := rfl

@[simp] theorem keys_node : keys (.node l k v p s r) = keys l ++ k :: keys r := by
  simp [keys, toList]

theorem Rep.eq_nil (h : Rep L m none t) : t = .nil := by
  cases h
  rfl

theorem Rep.of_nil (h : Rep L m ptr (.nil : Tree K V)) : ptr = none := by
  cases h
  rfl

theorem Rep.of_some (h : Rep L m (some a) t) : ∃ n l k v p s r, t = .node l k v p s r ∧
    m.cells a = some n ∧ L.key n.data = k ∧ L.Shows n.data v p s ∧ Rep L m n.left l ∧
      Rep L m n.right r := by
  cases h with
  | node cell key shows' left right =>
    exact ⟨_, _, _, _, _, _, _, rfl, cell, key, shows', left, right⟩

theorem Rep.of_node (h : Rep L m ptr (.node l k v p s r)) : ∃ a n, ptr = some a ∧
    m.cells a = some n ∧ L.key n.data = k ∧ L.Shows n.data v p s ∧ Rep L m n.left l ∧
      Rep L m n.right r := by
  cases h with
  | node cell key shows' left right => exact ⟨_, _, rfl, cell, key, shows', left, right⟩

theorem Rep.of_cell (h : Rep L m (some a) (.node l k v p s r)) (hn : m.cells a = some n) :
    L.key n.data = k ∧ L.Shows n.data v p s ∧ Rep L m n.left l ∧ Rep L m n.right r := by
  cases h with
  | node cell key shows' left right =>
    cases hn.symm.trans cell
    exact ⟨key, shows', left, right⟩

variable {o : Tree K V} {isLeft : Bool} {nc nd : Node D}

theorem Rep.side (cell : m.cells a = some n) (key : L.key n.data = k)
    (shows' : L.Shows n.data v p s) (ht : Rep L m (n.child isLeft) t)
    (ho : Rep L m (n.child (!isLeft)) o) : Rep L m (some a) (nodeAt isLeft t k v p s o) := by
  cases isLeft
  · exact .node cell key shows' ho ht
  · exact .node cell key shows' ht ho

theorem Rep.of_side (h : Rep L m (some a) (nodeAt isLeft t k v p s o)) (hn : m.cells a = some n) :
    L.key n.data = k ∧ L.Shows n.data v p s ∧ Rep L m (n.child isLeft) t ∧
      Rep L m (n.child (!isLeft)) o := by
  cases isLeft
  · obtain ⟨hkey, hshow, ho, ht⟩ := h.of_cell hn
    exact ⟨hkey, hshow, ht, ho⟩
  · exact h.of_cell hn

/-- The node that a pointer leads to has one of the keys. -/
theorem Rep.key_mem (h : Rep L m (some a) t) (hn : m.cells a = some n) : L.key n.data ∈ keys t := by
  obtain ⟨n', l, k, v, p, s, r, rfl, hcell, hkey, -⟩ := h.of_some
  cases hn.symm.trans hcell
  simp [hkey]

/-- **The frame rule**: the nodes that have keys of the tree are as they were. -/
theorem Rep.frame (h : Rep L m ptr t)
    (hm : ∀ a n, m.cells a = some n → L.key n.data ∈ keys t → m'.cells a = some n) :
    Rep L m' ptr t := by
  induction h with
  | nil => exact .nil
  | @node a n l r k v p s cell key shows' _ _ ihl ihr =>
    simp only [keys_node, mem_append, mem_cons] at hm
    exact .node (hm a n cell (.inr (.inl key))) key shows'
      (ihl fun b n' hn' hk => hm b n' hn' (.inl hk))
      (ihr fun b n' hn' hk => hm b n' hn' (.inr (.inr hk)))

theorem Rep.mono (h : Rep L m ptr t) (hm : m.Keeps m') : Rep L m' ptr t :=
  h.frame fun a n hn _ => hm a n hn

/-- A write to a node with another key does not change a node. -/
theorem cells_modify_of_key {n' : Node D} (hb : m.cells b = some n') (ha : m.cells a = some n)
    (hne : L.key n.data ≠ L.key n'.data) : (m.modify b f).cells a = some n := by
  refine (Mem.cells_modify_of_ne ?_).trans ha
  rintro rfl
  exact hne (by rw [Option.some.inj (ha.symm.trans hb)])

/-- If two nodes are written to, those with other keys stay as they are. -/
theorem cells_of_others {c d : Nat} (hc : m.cells c = some nc) (hd : m.cells d = some nd)
    (hothers : ∀ b, b ≠ c → b ≠ d → m'.cells b = m.cells b) (ha : m.cells a = some n)
    (hnec : L.key n.data ≠ L.key nc.data)
    (hned : L.key n.data ≠ L.key nd.data) : m'.cells a = some n := by
  rw [hothers a, ha]
  · rintro rfl
    exact hnec (by rw [Option.some.inj (ha.symm.trans hc)])
  · rintro rfl
    exact hned (by rw [Option.some.inj (ha.symm.trans hd)])

theorem Rep.frame_two {c d : Nat} (h : Rep L m ptr t) (hc : m.cells c = some nc)
    (hd : m.cells d = some nd) (hothers : ∀ b, b ≠ c → b ≠ d → m'.cells b = m.cells b)
    (hkc : L.key nc.data ∉ keys t) (hkd : L.key nd.data ∉ keys t) : Rep L m' ptr t :=
  h.frame fun _ _ hn hmem => cells_of_others hc hd hothers hn (fun he => hkc (he ▸ hmem))
    fun he => hkd (he ▸ hmem)

theorem Rep.modify (h : Rep L m ptr t) (hb : m.cells b = some n) (hk : L.key n.data ∉ keys t) :
    Rep L (m.modify b f) ptr t :=
  h.frame fun _ _ hn' hmem => cells_modify_of_key hb hn' fun hc => hk (hc ▸ hmem)

/-! ## Paths -/

/-- The way from the root to a place in the tree, innermost node first. -/
inductive Path (L : Layout D K V) (m : Mem D) : Ptr → List (Frame K V) → List Nat → Ptr → Prop
  | nil (root : Ptr) : Path L m root [] [] root
  | left {a : Nat} {n : Node D} {k : K} {v : V} {p s : Nat} {r : Tree K V} {hole root : Ptr}
      {fs : List (Frame K V)} {as : List Nat} (cell : m.cells a = some n)
      (key : L.key n.data = k) (shows' : L.Shows n.data v p s) (link : n.left = hole)
      (right : Rep L m n.right r) (rest : Path L m (some a) fs as root) :
      Path L m hole (.left k v p s r :: fs) (a :: as) root
  | right {a : Nat} {n : Node D} {l : Tree K V} {k : K} {v : V} {p s : Nat} {hole root : Ptr}
      {fs : List (Frame K V)} {as : List Nat} (cell : m.cells a = some n)
      (key : L.key n.data = k) (shows' : L.Shows n.data v p s) (link : n.right = hole)
      (left : Rep L m n.left l) (rest : Path L m (some a) fs as root) :
      Path L m hole (.right l k v p s :: fs) (a :: as) root

/-- The keys beside a place. -/
def pathKeys : List (Frame K V) → List K
  | [] => []
  | .left k _ _ _ r :: fs => k :: (keys r ++ pathKeys fs)
  | .right l k _ _ _ :: fs => k :: (keys l ++ pathKeys fs)

@[simp] theorem pathKeys_frameAt :
    pathKeys (frameAt isLeft k v p s o :: fs) = k :: (keys o ++ pathKeys fs) := by
  cases isLeft <;> rfl

theorem keys_nodeAt : (keys (nodeAt isLeft t k v p s o)).Perm (k :: (keys t ++ keys o)) := by
  cases isLeft
  · exact keys_node ▸ perm_middle.trans (perm_append_comm.cons k)
  · exact keys_node ▸ perm_middle

theorem keys_rotate {outer inner : Tree K V} {pk : K} {pv : V} {s' pp ps ps' : Nat} :
    keys (nodeAt isLeft outer k v p s' (nodeAt isLeft inner pk pv pp ps' o)) =
      keys (nodeAt isLeft (nodeAt isLeft outer k v p s inner) pk pv pp ps o) := by
  cases isLeft <;> simp [nodeAt]

theorem nodup_step (isLeft : Bool) : (keys (nodeAt isLeft t k v p s o) ++ pathKeys fs).Nodup ↔
      (keys t ++ pathKeys (frameAt isLeft k v p s o :: fs)).Nodup := by
  refine List.Perm.nodup_iff ((keys_nodeAt.append_right _).trans ?_)
  rw [pathKeys_frameAt]
  simpa using perm_middle.symm

theorem Path.step {o : Tree K V} {isLeft : Bool} (cell : m.cells a = some n)
    (key : L.key n.data = k) (shows' : L.Shows n.data v p s) (link : n.child isLeft = hole)
    (other : Rep L m (n.child (!isLeft)) o) (rest : Path L m (some a) fs as root) :
    Path L m hole (frameAt isLeft k v p s o :: fs) (a :: as) root := by
  cases isLeft
  · exact .right cell key shows' link other rest
  · exact .left cell key shows' link other rest

theorem Path.of_step (h : Path L m hole (frameAt isLeft k v p s o :: fs) as root) : ∃ a as' n,
      as = a :: as' ∧ m.cells a = some n ∧ L.key n.data = k ∧ L.Shows n.data v p s ∧
      n.child isLeft = hole ∧ Rep L m (n.child (!isLeft)) o ∧ Path L m (some a) fs as' root := by
  cases isLeft
  · cases h with
    | right cell key shows' link other rest =>
      exact ⟨_, _, _, rfl, cell, key, shows', link, other, rest⟩
  · cases h with
    | left cell key shows' link other rest =>
      exact ⟨_, _, _, rfl, cell, key, shows', link, other, rest⟩

theorem keys_plugAll [DecidableEq K] (t : Tree K V) (fs : List (Frame K V)) :
    (keys (plugAll t fs)).Perm (keys t ++ pathKeys fs) := by
  induction fs generalizing t with
  | nil => simp [plugAll, pathKeys]
  | cons g fs ih =>
    refine (ih (g.plug t)).trans ?_
    cases g with
    | left k v p s r => simp [Frame.plug, pathKeys]
    | right l k v p s =>
      simp only [Frame.plug, pathKeys, keys_node]
      rw [perm_iff_count]
      intro x
      simp only [count_append, count_cons]
      omega

theorem not_mem_of_nodup (h : (keys (.node l k v p s r)).Nodup) : k ∉ keys l ∧ k ∉ keys r := by
  rw [keys_node, perm_middle.nodup_iff, nodup_cons, mem_append, not_or] at h
  exact h.1

theorem nodup_of_ascending [LinearOrder K] (h : OrdMap.Ascending t.toList) : (keys t).Nodup := by
  refine (pairwise_map.2 (h.imp fun hlt => ?_))
  exact ne_of_lt hlt

@[simp] theorem pathKeys_mapSize (g : Nat → Nat) (fs : List (Frame K V)) :
    pathKeys (fs.map (Frame.mapSize g)) = pathKeys fs := by
  induction fs with
  | nil => rfl
  | cons f fs ih => cases f <;> simp [pathKeys, Frame.mapSize, ih]

section

variable (h : Path L m hole fs as root)

include h

/-- The tree at the end of a path is part of the tree at the root. -/
theorem Path.rep (ht : Rep L m hole t) : Rep L m root (plugAll t fs) := by
  induction h generalizing t with
  | nil => exact ht
  | left cell key shows' link right _ ih => exact ih (.node cell key shows' (link ▸ ht) right)
  | right cell key shows' link left _ ih => exact ih (.node cell key shows' left (link ▸ ht))

/-- The nodes of a path are there, and have keys of the path. -/
theorem Path.cell_of_mem (ha : a ∈ as) : ∃ n, m.cells a = some n ∧ L.key n.data ∈ pathKeys fs := by
  induction h with
  | nil => cases ha
  | left cell key shows' _ _ _ ih | right cell key shows' _ _ _ ih =>
    rcases mem_cons.1 ha with rfl | ha
    · exact ⟨_, cell, by simp [pathKeys, key]⟩
    · obtain ⟨n, hn, hkey⟩ := ih ha
      exact ⟨n, hn, by simp [pathKeys, hkey]⟩

theorem Path.next_not_mem : m.next ∉ as := fun ha => by
  obtain ⟨n, hn, -⟩ := h.cell_of_mem ha
  exact Mem.ne_of_cells hn Mem.cells_next rfl

theorem Path.length_eq : as.length = fs.length := by
  induction h with
  | nil => rfl
  | left _ _ _ _ _ _ ih | right _ _ _ _ _ _ ih => simp [ih]

theorem Path.nodup (hnodup : (pathKeys fs).Nodup) : as.Nodup := by
  induction h with
  | nil => exact .nil
  | @left a n k _ _ _ _ _ _ _ as cell key _ _ _ rest ih
  | @right a n _ k _ _ _ _ _ _ as cell key _ _ _ rest ih =>
    simp only [pathKeys, nodup_cons, nodup_append, mem_append, not_or] at hnodup
    refine nodup_cons.2 ⟨fun ha => ?_, ih hnodup.2.2.1⟩
    obtain ⟨n', hn', hkey⟩ := rest.cell_of_mem ha
    rw [← Option.some.inj (cell.symm.trans hn'), key] at hkey
    exact hnodup.1.2 hkey

theorem Path.root_eq : root = as.getLast?.or hole := by
  induction h with
  | nil => rfl
  | @left _ _ _ _ _ _ _ _ _ _ as _ _ _ _ _ _ ih | @right _ _ _ _ _ _ _ _ _ _ as _ _ _ _ _ _ ih =>
    rw [ih, List.getLast?_cons]
    cases as.getLast? <;> rfl

/-- **The frame rule** for paths. -/
theorem Path.frame
    (hm : ∀ a n, m.cells a = some n → L.key n.data ∈ pathKeys fs → m'.cells a = some n) :
    Path L m' hole fs as root := by
  induction fs generalizing hole as with
  | nil =>
    cases h
    exact .nil _
  | cons f fs ih =>
    obtain ⟨isLeft, k, v, p, s, o, rfl⟩ := exists_frameAt f
    obtain ⟨a, as, n, rfl, cell, key, hshow, link, other, rest⟩ := h.of_step
    simp only [pathKeys_frameAt, mem_append, mem_cons] at hm
    exact .step (hm a n cell (.inl key)) key hshow link
      (other.frame fun b n' hn' hk => hm b n' hn' (.inr (.inl hk)))
      (ih rest fun b n' hn' hk => hm b n' hn' (.inr (.inr hk)))

theorem Path.mono (hm : m.Keeps m') : Path L m' hole fs as root :=
  h.frame fun a n hn _ => hm a n hn

theorem Path.frame_two {c d : Nat} (hc : m.cells c = some nc) (hd : m.cells d = some nd)
    (hothers : ∀ b, b ≠ c → b ≠ d → m'.cells b = m.cells b) (hkc : L.key nc.data ∉ pathKeys fs)
    (hkd : L.key nd.data ∉ pathKeys fs) : Path L m' hole fs as root :=
  h.frame fun _ _ hn hmem => cells_of_others hc hd hothers hn (fun he => hkc (he ▸ hmem))
    fun he => hkd (he ▸ hmem)

theorem Path.modify (hb : m.cells b = some n)
    (hk : L.key n.data ∉ pathKeys fs) : Path L (m.modify b f) hole fs as root :=
  h.frame fun _ _ hn' hmem => cells_modify_of_key hb hn' fun hc => hk (hc ▸ hmem)

end

/-- The last node of a path gets another child in the place at its end. -/
theorem Path.setChild (isLeft : Bool) {new : Ptr}
    (h : Path L m hole (frameAt isLeft k v p s o :: fs) (a :: as) root)
    (hnodup : (pathKeys (frameAt isLeft k v p s o :: fs)).Nodup) (hn : m.cells a = some n)
    (hf : f n = n.setChild isLeft new) :
    Path L (m.modify a f) new (frameAt isLeft k v p s o :: fs) (a :: as) root := by
  obtain ⟨_, _, n', he, cell, key, hshow, link, other, rest⟩ := h.of_step
  obtain ⟨rfl, rfl⟩ := List.cons.inj he
  cases hn.symm.trans cell
  simp only [pathKeys_frameAt, nodup_cons, mem_append, not_or] at hnodup
  refine .step (n := n.setChild isLeft new) (by rw [Mem.cells_modify_self, cell, ← hf]; rfl)
    ?_ ?_ ?_ ?_ (rest.modify cell (key ▸ hnodup.1.2))
  · rwa [Node.data_setChild]
  · rwa [Node.data_setChild]
  · exact Node.child_setChild n isLeft new
  · rw [Node.child_setChild_not]
    exact other.modify cell (key ▸ hnodup.1.1)

/-- **Another node takes the place** at the end of the path. -/
theorem Path.relink {old new : Nat} (h : Path L m (some old) fs (a :: as) root)
    (hnodup : (pathKeys fs).Nodup) (hn : m.cells old = some n) (hold : L.key n.data ∉ pathKeys fs) :
    Path L (m.relink a old new) (some new) fs (a :: as) root := by
  cases h with
  | left cell key shows' link right rest =>
    refine Path.setChild true (.left cell key shows' link right rest) hnodup cell ?_
    exact if_pos link
  | @right _ n' l k v p s _ _ fs _ cell key shows' link left rest =>
    -- the left child is another node, since it has another key
    have hleft : n'.left ≠ some old := fun hc => hold (by
      simp [pathKeys, (hc ▸ left).key_mem hn])
    refine Path.setChild false (.right cell key shows' link left rest) hnodup cell ?_
    exact if_neg hleft

/-- **A write to all nodes of a path** that changes their sizes. -/
theorem Path.mapSize {g : Nat → Nat} (h : Path L m hole fs as root) (hnodup : (pathKeys fs).Nodup)
    (hf : ∀ n, L.key (f n).data = L.key n.data ∧ (f n).left = n.left ∧ (f n).right = n.right)
    (hg : ∀ n v p s, L.Shows n.data v p s → L.Shows (f n).data v p (g s))
    (hin : ∀ a ∈ as, m'.cells a = (m.cells a).map f)
    (hout : ∀ a n, m.cells a = some n → L.key n.data ∈ pathKeys fs → a ∉ as →
      m'.cells a = some n) :
    Path L m' hole (fs.map (Frame.mapSize g)) as root := by
  have hchild : ∀ n isLeft, (f n).child isLeft = n.child isLeft := by
    intro n isLeft
    cases isLeft
    · exact (hf n).2.2
    · exact (hf n).2.1
  induction fs generalizing hole as with
  | nil =>
    cases h
    exact .nil _
  | cons fr fs ih =>
    obtain ⟨isLeft, k, v, p, s, o, rfl⟩ := exists_frameAt fr
    obtain ⟨a, as, n, rfl, cell, key, hshow, link, other, rest⟩ := h.of_step
    simp only [pathKeys_frameAt, nodup_cons, nodup_append, mem_append, not_or]
      at hnodup
    simp only [pathKeys_frameAt, mem_append, mem_cons, not_or] at hout
    obtain ⟨hkey, -, hnodup, hdisj⟩ := hnodup
    have hne : ∀ b n', m.cells b = some n' → L.key n'.data ≠ k → b ≠ a := by
      rintro b n' hn' hne rfl
      exact hne (by rw [← Option.some.inj (cell.symm.trans hn'), key])
    rw [map_cons, mapSize_frameAt]
    refine .step (by rw [hin a mem_cons_self, cell, Option.map_some]) ((hf n).1.trans key)
      (hg n v p s hshow) ((hchild n _).trans link) ?_ ?_
    · rw [hchild]
      refine other.frame fun b n' hn' hk => hout b n' hn' (.inr (.inl hk)) ⟨?_, fun hb => ?_⟩
      · exact hne b n' hn' fun hc => hkey.1 (hc ▸ hk)
      · obtain ⟨n₁, hn₁, hk₁⟩ := rest.cell_of_mem hb
        rw [Option.some.inj (hn₁.symm.trans hn')] at hk₁
        exact hdisj _ hk _ hk₁ rfl
    · refine ih rest hnodup (forall_mem_cons.1 hin).2 fun b n' hn' hk hb => ?_
      exact hout b n' hn' (.inr (.inr hk)) ⟨hne b n' hn' fun hc => hkey.2 (hc ▸ hk), hb⟩

end Rep

end NodeMem
