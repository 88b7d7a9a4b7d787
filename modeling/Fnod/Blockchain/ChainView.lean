import Fnod.Lib.BlockTree
import Fnod.Lib.Sim
import Fnod.Lib.Slice

/-!
# `chainview.go`: the view of a chain

A chain view is a slice with the nodes of a chain by their heights. `setTip` moves it to another
tip: it cuts or extends the slice, in the same array if that is large enough, and then writes the
nodes from the new tip down until it meets one that is there already.

**Theorem (`setTips_mirrors`).** After any sequence of `setTip` calls the view is that of its last
tip: it holds exactly the tip and its ancestors, each at its height, and so it answers `contains`,
`next` and `findFork` rightly.

The nodes below the first match are right because the old view was a chain too: what is left of it
after the slice is cut is the chain of one of its nodes (`resize_nodes`), and the entries that the
array still holds from a longer chain are cleared before they can be met. The loop is one induction
on the new tip (`fill_eq`).
-/

namespace Fnod

open BlockTree Except List

/-- A failure that is a panic. -/
abbrev Panics (α : Type) := Except (Fault Empty) α

def approxNodesPerWeek : Nat := 12 * 24 * 7

/-- `chainView`: the slice, and what stands after it in its array. -/
structure ChainView (β : Type) where
  nodes : List (List β)
  spare : List (List β)

namespace ChainView

variable {β : Type}

def empty : ChainView β := ⟨[], []⟩

/-- `cap(c.nodes)`. -/
def cap (c : ChainView β) : Nat := c.nodes.length + c.spare.length

/-- The loop that sets the nodes from an index on to nil. -/
def clear (nodes : List (List β)) (first : Nat) : List (List β) :=
  (List.range' first (nodes.length - first)).foldl (fun nodes i => nodes.set i []) nodes

/-- The slice gets the length that `setTip` needs. -/
def resize (c : ChainView β) (needed : Nat) : ChainView β :=
  if c.cap < needed then
    { nodes := c.nodes ++ List.replicate (needed - c.nodes.length) []
      spare := List.replicate approxNodesPerWeek [] }
  else
    { nodes := clear ((c.nodes ++ c.spare).take needed) c.nodes.length
      spare := (c.nodes ++ c.spare).drop needed }

def tip (c : ChainView β) : List β := c.nodes.getLast?.getD []

def height (c : ChainView β) : Int := c.nodes.length - 1

def nodeByHeight (c : ChainView β) (height : Int) : List β :=
  if height < 0 ∨ height ≥ c.nodes.length then [] else c.nodes.getD height.toNat []

variable [DecidableEq β]

/-- The loop of `setTip`. -/
def fill (nodes : List (List β)) : List β → Panics (List (List β))
  | [] => .ok nodes
  | b :: parent => do
    let node := b :: parent
    let old ← Slice.get nodes (BlockTree.height node).toNat
    if old = node then .ok nodes
    else
      let nodes ← Slice.set nodes (BlockTree.height node).toNat node
      fill nodes parent

def setTip (c : ChainView β) (node : List β) : Panics (ChainView β) :=
  if node = [] then .ok ⟨[], c.nodes ++ c.spare⟩
  else do
    let c := c.resize (BlockTree.height node + 1).toNat
    let nodes ← fill c.nodes node
    .ok { c with nodes := nodes }

/-- `contains`, of a node that is not nil. -/
def contains (c : ChainView β) (node : List β) : Bool :=
  c.nodeByHeight (BlockTree.height node) == node

def next (c : ChainView β) (node : List β) : List β :=
  if node = [] ∨ ¬ c.contains node then [] else c.nodeByHeight (BlockTree.height node + 1)

/-- The loop of `findFork`. -/
def walkDown (c : ChainView β) : List β → List β
  | [] => []
  | b :: parent => if c.contains (b :: parent) then b :: parent else c.walkDown parent

def findFork (c : ChainView β) (node : List β) : List β :=
  if node = [] then []
  else c.walkDown (if BlockTree.height node > c.height then ancestor node c.height else node)

/-! ## The view of a tip -/

/-- The view holds the chain of the tip. -/
def Mirrors (c : ChainView β) (tip : List β) : Prop := c.nodes = path [] tip

section SetTip

variable {c : ChainView β} {old node : List β}

omit [DecidableEq β] in
/-- What is cleared is nil, and the rest is as it was. -/
theorem clear_append (front back : List (List β)) :
    clear (front ++ back) front.length = front ++ replicate back.length [] := by
  unfold clear
  rw [length_append, Nat.add_sub_cancel_left]
  induction back generalizing front with
  | nil => rfl
  | cons n back ih =>
    have hset : (front ++ n :: back).set front.length [] = (front ++ [[]]) ++ back := by
      rw [set_append_right _ _ le_rfl, Nat.sub_self, append_assoc]
      rfl
    have hlen : (front ++ [([] : List β)]).length = front.length + 1 := by simp
    rw [length_cons, range'_succ, foldl_cons, hset, ← hlen, ih (front ++ [[]]), append_assoc,
      replicate_succ]
    rfl

/-- **The slice that is written** starts with the chain of an old node, and nil is after it. -/
theorem resize_nodes (h : Mirrors c old) (needed : Nat) : ∃ t k, t.length + k = needed ∧
      (c.resize needed).nodes = path [] t ++ replicate k [] := by
  have hlen : c.nodes.length = old.length := by rw [h, length_path_nil]
  unfold resize
  by_cases hcap : c.cap < needed
  · rw [if_pos hcap]
    refine ⟨old, needed - old.length, ?_, by rw [hlen, h]⟩
    unfold cap at hcap
    omega
  rw [if_neg hcap]
  unfold cap at hcap
  by_cases hcut : needed ≤ c.nodes.length
  · -- the slice is cut, and nothing is cleared
    refine ⟨old.drop (old.length - needed), 0, by rw [length_drop]; omega, ?_⟩
    have htake : (c.nodes ++ c.spare).take needed = path [] (old.drop (old.length - needed)) := by
      rw [take_append_of_le_length hcut, h, take_path_nil (by omega)]
    have hnone : clear ((c.nodes ++ c.spare).take needed) c.nodes.length =
        (c.nodes ++ c.spare).take needed := by
      unfold clear
      rw [length_take, Nat.sub_eq_zero_of_le (by omega)]
      rfl
    rw [hnone, htake, replicate_zero, append_nil]
  · refine ⟨old, needed - old.length, by omega, ?_⟩
    have htake : (c.nodes ++ c.spare).take needed =
        c.nodes ++ c.spare.take (needed - c.nodes.length) := by
      rw [take_append, take_of_length_le (by omega)]
    have hspare : (c.spare.take (needed - c.nodes.length)).length = needed - old.length := by
      rw [length_take]
      omega
    rw [htake, clear_append, hspare, h]

/-- **The loop** writes the chain of the node. -/
theorem fill_eq (t node : List β) (k : Nat) (rest : List (List β))
    (hlen : t.length + k = node.length) :
    fill (path [] t ++ replicate k [] ++ rest) node = .ok (path [] node ++ rest) := by
  induction node generalizing t k rest with
  | nil =>
    obtain ⟨ht, hk⟩ : t.length = 0 ∧ k = 0 := by
      rw [length_nil] at hlen
      omega
    obtain rfl := eq_nil_of_length_eq_zero ht
    subst hk
    rfl
  | cons b parent ih =>
    have hidx : (BlockTree.height (b :: parent)).toNat = parent.length := by
      rw [height_cons, BlockTree.height]
      omega
    -- the entry at the height of the node is the last one that may be stale
    have hlast : ∃ t' k' old, t'.length + k' = parent.length ∧
        (old = b :: parent → t = b :: parent) ∧
        path [] t ++ replicate k [] = path [] t' ++ replicate k' [] ++ [old] := by
      cases k with
      | zero =>
        cases t with
        | nil => cases hlen
        | cons c t =>
          rw [length_cons, length_cons] at hlen
          exact ⟨t, 0, c :: t, by omega, id, by simp [path_nil_cons]⟩
      | succ k =>
        rw [length_cons] at hlen
        refine ⟨t, k, [], by omega, fun h => absurd h.symm (cons_ne_nil _ _), ?_⟩
        rw [replicate_succ', append_assoc]
    obtain ⟨t', k', old, hlen', hmatch, hsplit⟩ := hlast
    have hfront : (path [] t' ++ replicate k' ([] : List β)).length = parent.length := by
      rw [length_append, length_path_nil, length_replicate, hlen']
    have hget : (Slice.get (path [] t ++ replicate k [] ++ rest) parent.length :
        Panics (List β)) = .ok old := by
      refine Slice.get_eq ?_
      rw [hsplit, append_assoc, ← hfront, getElem?_append_right le_rfl, Nat.sub_self]
      rfl
    unfold fill
    dsimp only
    rw [hidx, hget, ok_bind]
    by_cases hold : old = b :: parent
    · obtain rfl := hmatch hold
      have hk : k = 0 := by omega
      rw [if_pos hold, hk, replicate_zero, append_nil]
    · have hset : (Slice.set (path [] t ++ replicate k [] ++ rest) parent.length
          (b :: parent) : Panics (List (List β))) =
          .ok (path [] t' ++ replicate k' [] ++ (b :: parent) :: rest) := by
        have hlt : parent.length < (path [] t ++ replicate k [] ++ rest).length := by
          rw [hsplit, append_assoc, length_append, hfront, length_append, length_singleton]
          omega
        rw [Slice.set_eq hlt, hsplit, append_assoc, ← hfront, set_append_right _ _ le_rfl,
          Nat.sub_self]
        rfl
      rw [if_neg hold, hset, ok_bind, ih t' k' _ hlen', path_nil_cons, append_assoc]
      rfl

/-- **One call** moves the view to the new tip. -/
theorem setTip_mirrors (h : Mirrors c old) (node : List β) :
    ∃ c', c.setTip node = .ok c' ∧ c'.Mirrors node := by
  unfold setTip
  by_cases hnil : node = []
  · exact ⟨_, if_pos hnil, by rw [hnil]; rfl⟩
  · obtain ⟨t, k, hlen, hnodes⟩ := resize_nodes h (BlockTree.height node + 1).toNat
    have hneeded : (BlockTree.height node + 1).toNat = node.length := by
      rw [BlockTree.height]
      omega
    have hfill := fill_eq t node k [] (hlen.trans hneeded)
    rw [append_nil, append_nil] at hfill
    rw [if_neg hnil]
    dsimp only
    rw [hnodes, hfill, ok_bind]
    exact ⟨_, rfl, rfl⟩

end SetTip

/-! ## What the view answers -/

section Answers

variable {c : ChainView β} {tip node : List β}

section

variable (h : Mirrors c tip)

include h

theorem Mirrors.height_eq : c.height = BlockTree.height tip := by
  unfold height BlockTree.height
  rw [h, length_path_nil]

/-- A height of the view is that of an ancestor. -/
theorem Mirrors.nodeByHeight_eq (i : Int) : c.nodeByHeight i = ancestor tip i := by
  have hlen : c.nodes.length = tip.length := by rw [h, length_path_nil]
  unfold nodeByHeight
  by_cases hout : i < 0 ∨ i ≥ c.nodes.length
  · rw [if_pos hout, ancestor, if_pos]
    unfold BlockTree.height
    omega
  · have hlt : i.toNat < tip.length := by omega
    rw [if_neg hout, h, getD_eq_getElem?_getD, getElem?_path_nil hlt]
    have hi : (i.toNat : Int) = i := by omega
    rw [hi]
    rfl

theorem Mirrors.tip_eq : c.tip = tip := by
  unfold ChainView.tip
  rw [h]
  cases tip with
  | nil => rfl
  | cons b parent => simp [path_nil_cons]

theorem Mirrors.contains_eq (node : List β) : c.contains node = BlockTree.contains tip node := by
  unfold contains BlockTree.contains
  rw [h.nodeByHeight_eq]

theorem Mirrors.contains_iff (hne : node ≠ []) : c.contains node = true ↔ node <:+ tip := by
  rw [h.contains_eq, BlockTree.contains_iff hne]

theorem Mirrors.walkDown_eq (node : List β) : c.walkDown node = walkToView tip node := by
  induction node with
  | nil => rfl
  | cons b parent ih =>
    unfold walkDown walkToView
    rw [h.contains_eq, ih]

/-- The fork point that the view finds is that of the tree. -/
theorem Mirrors.findFork_eq (node : List β) : c.findFork node = BlockTree.findFork tip node := by
  unfold findFork BlockTree.findFork
  by_cases hnil : node = []
  · rw [if_pos hnil, hnil]
    split_ifs <;> simp [ancestor, walkToView]
  · rw [if_neg hnil, h.walkDown_eq, h.height_eq]

/-- The successor of a node is the node of the chain above it. -/
theorem Mirrors.next_eq_iff {succ : List β} (hsucc : succ ≠ []) :
    c.next node = succ ↔ node ≠ [] ∧ succ <:+ tip ∧ succ.tail = node := by
  unfold next
  rw [h.nodeByHeight_eq]
  constructor
  · intro hnext
    by_cases hout : node = [] ∨ ¬ c.contains node = true
    · rw [if_pos hout] at hnext
      exact absurd hnext.symm hsucc
    rw [if_neg hout] at hnext
    push Not at hout
    obtain ⟨hne, hin⟩ := hout
    have hnode := (h.contains_iff hne).1 hin
    have hs : succ <:+ tip := hnext ▸ ancestor_suffix _ _
    refine ⟨hne, hs, ?_⟩
    -- the tail is on the chain at the height of the node
    have hheight : BlockTree.height succ.tail = BlockTree.height node := by
      have hge := height_nonneg hne
      have hle : BlockTree.height node + 1 ≤ BlockTree.height tip := by
        by_contra hgt
        rw [ancestor, if_pos (by omega)] at hnext
        exact hsucc hnext.symm
      have hs := height_ancestor (by omega) hle
      rw [hnext] at hs
      unfold BlockTree.height at hs ⊢
      rw [length_tail]
      omega
    have hlen : succ.tail.length = node.length := by
      unfold BlockTree.height at hheight
      omega
    have htail : succ.tail <:+ tip := (tail_suffix succ).trans hs
    rw [suffix_iff_eq_drop.1 htail, suffix_iff_eq_drop.1 hnode, hlen]
  · rintro ⟨hne, hs, rfl⟩
    have hin : c.contains succ.tail = true := (h.contains_iff hne).2 ((tail_suffix succ).trans hs)
    have hheight : BlockTree.height succ.tail + 1 = BlockTree.height succ := by
      obtain ⟨b, parent, rfl⟩ := exists_cons_of_ne_nil hsucc
      exact (height_cons b parent).symm
    rw [if_neg (by simp [hne, hin]), hheight, ancestor_of_suffix hs hsucc]

end

end Answers

/-! ## Runs -/

/-- The view after calls of `setTip`, from a view without a tip. -/
def setTips (tips : List (List β)) : Panics (ChainView β) := tips.foldlM setTip empty

def lastTip (tips : List (List β)) : List β := tips.getLast?.getD []

/-- **The view mirrors its tip** after any calls. -/
theorem setTips_mirrors (tips : List (List β)) :
    ∃ c, setTips tips = .ok c ∧ c.Mirrors (lastTip tips) := by
  have hrun : ∀ (tips : List (List β)) (c : ChainView β) (old : List β), c.Mirrors old →
      ∃ c', tips.foldlM setTip c = .ok c' ∧ c'.Mirrors (tips.getLast?.getD old) := by
    intro tips
    induction tips with
    | nil => exact fun c old h => ⟨c, rfl, h⟩
    | cons node tips ih =>
      intro c old h
      obtain ⟨c₁, hset, h₁⟩ := setTip_mirrors h node
      obtain ⟨c', hfold, h'⟩ := ih c₁ node h₁
      refine ⟨c', by rw [foldlM_cons, hset, ok_bind, hfold], ?_⟩
      rwa [getLast?_cons, Option.getD_some]
  exact hrun tips empty [] rfl

/-- **A chain view** is that of the tip of the last call, for any calls: the node at a height is the
ancestor there and nil outside of the chain, the view contains the tip and its ancestors, the
successor of a node is its child on the chain, and the fork point is the highest node on both
chains. No call panics. -/
theorem chainView_of_tips (tips : List (List β)) :
    ∃ c, setTips tips = .ok c ∧ c.tip = lastTip tips ∧
      (∀ i, 0 ≤ i → i ≤ BlockTree.height (lastTip tips) →
        c.nodeByHeight i <:+ lastTip tips ∧ BlockTree.height (c.nodeByHeight i) = i) ∧
      (∀ i, i < 0 ∨ BlockTree.height (lastTip tips) < i → c.nodeByHeight i = []) ∧
      (∀ node ≠ [], c.contains node = true ↔ node <:+ lastTip tips) ∧
      (∀ node, ∀ succ ≠ [], c.next node = succ ↔
        node ≠ [] ∧ succ <:+ lastTip tips ∧ succ.tail = node) ∧
      (∀ node, c.findFork node <:+ lastTip tips ∧ c.findFork node <:+ node ∧
        ∀ anc, anc <:+ lastTip tips → anc <:+ node →
          BlockTree.height anc ≤ BlockTree.height (c.findFork node)) := by
  obtain ⟨c, hset, h⟩ := setTips_mirrors tips
  refine ⟨c, hset, h.tip_eq, ?_, ?_, fun _ hne => h.contains_iff hne,
    fun _ _ hne => h.next_eq_iff hne, ?_⟩
  · intro i h0 hle
    rw [h.nodeByHeight_eq]
    exact ⟨ancestor_suffix _ _, height_ancestor h0 hle⟩
  · intro i hout
    rw [h.nodeByHeight_eq]
    exact if_pos hout
  · intro node
    rw [h.findFork_eq]
    obtain ⟨htip, hnode⟩ := findFork_suffix (lastTip tips) node
    refine ⟨htip, hnode, fun anc hanc hanc' => ?_⟩
    have hlen := (suffix_findFork hanc hanc').length_le
    unfold BlockTree.height
    omega

end ChainView

end Fnod
