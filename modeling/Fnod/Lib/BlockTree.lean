import Mathlib.Algebra.Order.Ring.Int
import Mathlib.Data.List.Basic
import Mathlib.Data.List.Infix
import Mathlib.Tactic.Common

/-!
# Trees of nodes that point to their parents

A pointer into a tree of nodes, each of which points to its parent, is the list of what stands in
the node and its ancestors, from the node to the root. The nil pointer is the empty list, and the
parent of a node is the tail. So two pointers are equal exactly if they point to the same place, and
the ancestors of a node are its nonempty suffixes.

`ancestor`, `contains` and `findFork` are the walks that chains of blocks need: to an ancestor at a
given height, and to the point where a branch leaves the chain of a tip (`findFork_suffix`,
`suffix_findFork`).
-/

namespace BlockTree

open List

variable {β : Type*}

/-- The height of a node; the root has height 0, and nil is below it. -/
def height (node : List β) : Int := node.length - 1

/-- The ancestor at a height, or nil. -/
def ancestor (node : List β) (h : Int) : List β :=
  if h < 0 ∨ height node < h then [] else node.drop (height node - h).toNat

/-- The ancestor at a distance, or nil. -/
def relativeAncestor (node : List β) (distance : Int) : List β :=
  ancestor node (height node - distance)

/-- The nodes above `fork` on the way to `node`, lowest first. -/
def path (fork : List β) [DecidableEq β] : List β → List (List β)
  | [] => []
  | b :: parent => if b :: parent = fork then [] else path fork parent ++ [b :: parent]

section Heights

variable {node anc : List β} {h d : Int}

theorem height_cons (b : β) (parent : List β) : height (b :: parent) = height parent + 1 := by
  simp only [height, length_cons]
  omega

theorem height_nonneg (hne : node ≠ []) : 0 ≤ height node := by
  have := length_pos_iff.2 hne
  unfold height
  omega

/-- What a node hands down to its parent reaches all its ancestors. -/
theorem of_suffix {P : List β → Prop} (hstep : ∀ b parent, P (b :: parent) → parent ≠ [] → P parent)
    (h : P node) (hs : anc <:+ node) (hne : anc ≠ []) : P anc := by
  induction node with
  | nil => exact absurd (suffix_nil.1 hs) hne
  | cons b parent ih =>
    rcases suffix_cons_iff.1 hs with rfl | hs
    · exact h
    · exact ih (hstep b parent h fun hnil => hne (suffix_nil.1 (hnil ▸ hs))) hs

/-- What does not fall from a parent to its child does not fall along a branch. -/
theorem le_of_suffix {γ : Type*} [Preorder γ] {f : List β → γ}
    (hstep : ∀ b parent, b :: parent <:+ node → parent ≠ [] → f parent ≤ f (b :: parent))
    (hs : anc <:+ node) (hne : anc ≠ []) : f anc ≤ f node := by
  have hdown : anc <:+ node ∧ f anc ≤ f node :=
    of_suffix (P := fun n => n <:+ node ∧ f n ≤ f node) (fun b parent hb hparent =>
      ⟨(suffix_cons b parent).trans hb.1, (hstep b parent hb.1 hparent).trans hb.2⟩)
      ⟨suffix_rfl, le_rfl⟩ hs hne
  exact hdown.2

theorem height_lt_of_suffix (hs : anc <:+ node) (hne : anc ≠ node) : height anc < height node := by
  have hlen : anc.length < node.length :=
    lt_of_le_of_ne hs.length_le fun he => hne (hs.eq_of_length he)
  unfold height
  omega

theorem ancestor_eq_drop (h0 : 0 ≤ h) (hle : h ≤ height node) :
    ancestor node h = node.drop (height node - h).toNat := if_neg (by omega)

theorem ancestor_suffix (node : List β) (h : Int) : ancestor node h <:+ node := by
  unfold ancestor
  split_ifs
  · exact nil_suffix
  · exact drop_suffix _ _

theorem height_ancestor (h0 : 0 ≤ h) (hle : h ≤ height node) : height (ancestor node h) = h := by
  rw [ancestor_eq_drop h0 hle]
  unfold height at *
  rw [length_drop]
  omega

/-- A suffix is told by its height. -/
theorem ancestor_of_suffix (hs : anc <:+ node) (hne : anc ≠ []) :
    ancestor node (height anc) = anc := by
  have hlen := hs.length_le
  have h0 := height_nonneg hne
  rw [ancestor_eq_drop h0 (by unfold height; omega), suffix_iff_eq_drop.1 hs]
  congr 1
  unfold height
  rw [length_drop]
  omega

theorem ancestor_ancestor {h' : Int} (hh : h' ≤ h) (hle : h ≤ height node) :
    ancestor (ancestor node h) h' = ancestor node h' := by
  by_cases h0 : h' < 0
  · simp [ancestor, h0]
  · have hheight : height (ancestor node h) = h := height_ancestor (by omega) hle
    have hdrop : ancestor (ancestor node h) h' =
        (ancestor node h).drop (height (ancestor node h) - h').toNat :=
      ancestor_eq_drop (by omega) (by omega)
    rw [hdrop, hheight, ancestor_eq_drop (by omega) hle, ancestor_eq_drop (by omega) (by omega),
      drop_drop]
    congr 1
    omega

/-- A node and its ancestors agree on the ancestors below. -/
theorem ancestor_eq_of_suffix (hs : anc <:+ node) (h0 : 0 ≤ h) (hle : h ≤ height anc) :
    ancestor anc h = ancestor node h := by
  have hheight := height_ancestor h0 hle
  have hne : ancestor anc h ≠ [] := by
    intro he
    rw [he] at hheight
    simp only [height, length_nil] at hheight
    omega
  rw [← ancestor_of_suffix ((ancestor_suffix anc h).trans hs) hne, hheight]

theorem mem_take {k : Nat} {b : β} (hb : b ∈ node.take k) :
    ∃ parent, (b :: parent) <:+ node ∧ height node < height (b :: parent) + k := by
  induction node generalizing k with
  | nil => simp at hb
  | cons c parent ih =>
    cases k with
    | zero => simp at hb
    | succ k =>
      rcases mem_cons.1 hb with rfl | hb
      · exact ⟨parent, suffix_refl _, by push_cast; omega⟩
      · obtain ⟨p, hs, hlt⟩ := ih hb
        refine ⟨p, hs.trans (suffix_cons c parent), ?_⟩
        rw [height_cons c parent]
        push_cast
        omega

end Heights

section Views

variable [DecidableEq β] {tip node fork anc : List β}

/-- The chain of a tip holds the node. -/
def contains (tip node : List β) : Bool := ancestor tip (height node) == node

/-- Down from a node to the first one that the chain of the tip holds. -/
def walkToView (tip : List β) : List β → List β
  | [] => []
  | b :: parent => if contains tip (b :: parent) then b :: parent else walkToView tip parent

/-- Where the branch of a node leaves the chain of the tip. -/
def findFork (tip node : List β) : List β :=
  walkToView tip (if height tip < height node then ancestor node (height tip) else node)

theorem contains_iff (hne : node ≠ []) : contains tip node = true ↔ node <:+ tip := by
  rw [contains, beq_iff_eq]
  exact ⟨fun h => h ▸ ancestor_suffix _ _, fun h => ancestor_of_suffix h hne⟩

theorem walkToView_suffix (tip node : List β) :
    walkToView tip node <:+ tip ∧ walkToView tip node <:+ node := by
  induction node with
  | nil => exact ⟨nil_suffix, nil_suffix⟩
  | cons b parent ih =>
    unfold walkToView
    split_ifs with h
    · exact ⟨(contains_iff (cons_ne_nil _ _)).1 h, suffix_refl _⟩
    · exact ⟨ih.1, ih.2.trans (suffix_cons b parent)⟩

theorem suffix_walkToView (htip : anc <:+ tip) (hnode : anc <:+ node) :
    anc <:+ walkToView tip node := by
  induction node with
  | nil => exact hnode
  | cons b parent ih =>
    unfold walkToView
    split_ifs with h
    · exact hnode
    · rcases suffix_cons_iff.1 hnode with rfl | hparent
      · exact absurd ((contains_iff (cons_ne_nil _ _)).2 htip) h
      · exact ih hparent

theorem findFork_suffix (tip node : List β) :
    findFork tip node <:+ tip ∧ findFork tip node <:+ node := by
  obtain ⟨htip, hnode⟩ := walkToView_suffix tip
    (if height tip < height node then ancestor node (height tip) else node)
  refine ⟨htip, hnode.trans ?_⟩
  split_ifs
  · exact ancestor_suffix _ _
  · exact suffix_refl _

/-- The fork point is the highest such node. -/
theorem suffix_findFork (htip : anc <:+ tip) (hnode : anc <:+ node) :
    anc <:+ findFork tip node := by
  refine suffix_walkToView htip ?_
  split_ifs with hlt
  · by_cases hne : anc = []
    · exact hne ▸ nil_suffix
    · have hle : height anc ≤ height tip := by
        have := htip.length_le
        unfold height
        omega
      rw [← ancestor_of_suffix hnode hne, ← ancestor_ancestor hle (le_of_lt hlt)]
      exact ancestor_suffix _ _
  · exact hnode

theorem path_cons {b : β} {parent : List β} (hs : fork <:+ parent) :
    path fork (b :: parent) = path fork parent ++ [b :: parent] :=
  if_neg fun h => absurd (h ▸ hs).length_le (by simp)

/-- The nodes on the way are the ancestors of the node that are not below the fork. -/
theorem mem_path (hs : fork <:+ node) : anc ∈ path fork node ↔ anc <:+ node ∧ ¬ anc <:+ fork := by
  induction node with
  | nil => simp [path, suffix_nil.1 hs]
  | cons b parent ih =>
    rcases suffix_cons_iff.1 hs with rfl | hs
    · simp [path]
    · have hnot : ¬ b :: parent <:+ fork := fun h => absurd (h.trans hs).length_le (by simp)
      rw [path_cons hs, mem_append, ih hs, mem_singleton, suffix_cons_iff]
      constructor
      · rintro (⟨h, hfork⟩ | rfl)
        · exact ⟨.inr h, hfork⟩
        · exact ⟨.inl rfl, hnot⟩
      · rintro ⟨rfl | h, hfork⟩
        · exact .inr rfl
        · exact .inl ⟨h, hfork⟩

theorem suffix_of_mem_path (h : anc ∈ path fork node) : anc <:+ node := by
  induction node with
  | nil => cases h
  | cons b parent ih =>
    unfold path at h
    split_ifs at h
    · cases h
    · rcases mem_append.1 h with h | h
      · exact (ih h).trans (suffix_cons b parent)
      · exact mem_singleton.1 h ▸ suffix_refl _

theorem pairwise_path (fork node : List β) : (path fork node).Pairwise (· <:+ ·) := by
  induction node with
  | nil => exact .nil
  | cons b parent ih =>
    unfold path
    split_ifs
    · exact .nil
    · refine pairwise_append.2 ⟨ih, pairwise_singleton _ _, fun anc h _ hlast => ?_⟩
      rw [mem_singleton.1 hlast]
      exact (suffix_of_mem_path h).trans (suffix_cons b parent)

theorem getLastD_path (hs : fork <:+ node) : (path fork node).getLastD fork = node := by
  cases node with
  | nil => exact suffix_nil.1 hs
  | cons b parent =>
    rcases suffix_cons_iff.1 hs with rfl | hs
    · simp [path]
    · rw [path_cons hs, getLastD_concat]

/-- Where a walk leaves the chain of the tip. -/
theorem mem_path_findFork : anc ∈ path (findFork tip node) node ↔ anc <:+ node ∧ ¬ anc <:+ tip := by
  obtain ⟨htip, hnode⟩ := findFork_suffix tip node
  rw [mem_path hnode]
  exact and_congr_right fun h => not_congr ⟨fun hf => hf.trans htip, fun ht => suffix_findFork ht h⟩

/-! ### The whole chain of a node -/

theorem path_nil_cons (b : β) (parent : List β) :
    path [] (b :: parent) = path [] parent ++ [b :: parent] := path_cons nil_suffix

@[simp] theorem length_path_nil (node : List β) : (path [] node).length = node.length := by
  induction node with
  | nil => rfl
  | cons b parent ih => rw [path_nil_cons, length_append, ih, length_singleton, length_cons]

/-- The chain up to a height is the chain of the ancestor there. -/
theorem take_path_nil {n : Nat} (h : n ≤ node.length) :
    (path [] node).take n = path [] (node.drop (node.length - n)) := by
  induction node with
  | nil => simp [path]
  | cons b parent ih =>
    by_cases hn : n = parent.length + 1
    · rw [hn, length_cons, Nat.sub_self, drop_zero, take_of_length_le]
      rw [length_path_nil, length_cons]
    · have hle : n ≤ parent.length := by
        rw [length_cons] at h
        omega
      have hdrop : (b :: parent).length - n = (parent.length - n) + 1 := by
        rw [length_cons]
        omega
      rw [path_nil_cons, take_append_of_le_length (by simpa using hle), ih hle, hdrop,
        drop_succ_cons]

/-- The chain of a node holds its ancestors at their heights. -/
theorem getElem?_path_nil {i : Nat} (h : i < node.length) :
    (path [] node)[i]? = some (ancestor node i) := by
  induction node with
  | nil => cases h
  | cons b parent ih =>
    rw [path_nil_cons]
    by_cases hi : i = parent.length
    · have hlast : ancestor (b :: parent) (height (b :: parent)) = b :: parent :=
        ancestor_of_suffix (suffix_refl _) (cons_ne_nil _ _)
      have hheight : height (b :: parent) = (i : Int) := by
        rw [height, length_cons, hi]
        push_cast
        omega
      rw [List.getElem?_append_right (by simp [hi]), length_path_nil, hi, Nat.sub_self, ← hi,
        ← hheight, hlast]
      rfl
    · have hlt : i < parent.length := by
        rw [length_cons] at h
        omega
      rw [List.getElem?_append_left (by simpa using hlt), ih hlt]
      congr 1
      refine ancestor_eq_of_suffix (suffix_cons b parent) (by omega) ?_
      unfold height
      omega

end Views

end BlockTree
