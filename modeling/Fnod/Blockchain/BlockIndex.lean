import Fnod.Chaincfg.Chainhash
import Fnod.Lib.BlockTree
import Mathlib.Data.List.Nodup

/-!
# `blockindex.go`: the block index and its tips

The index holds a node for every block that passed the first checks, on the main chain or not. It
also keeps the tips of all branches, in slices by height. A node is added below an existing one, and
then it is a tip and its parent is none.

A pointer to a node is the list of the blocks from it to the genesis block (`BlockTree`). The height
in a header is checked against the position of the block before it gets here, so the height of a
node is that of its place.

**Theorem (`tipGeneration_iff`).** After any additions the table of tips is right. But
`TipGeneration` looks up the tips at the height of the best tip: these are the blocks that share the
parent of the best tip only if none of those has a child, the best tip included, and no unrelated
branch ends at this height.
-/

namespace Fnod

open BlockTree List

/-- What chain selection reads from a block: its hash, that of its parent, and the work that its
difficulty bits stand for. -/
structure NodeBlock where
  hash : Hash
  prevBlock : Hash
  work : Nat
deriving DecidableEq

/-- A pointer to a node of the index. -/
abbrev NodePtr := List NodeBlock

def NodePtr.hash : NodePtr → Hash
  | [] => default
  | b :: _ => b.hash

structure BlockStatus where
  dataStored : Bool
  valid : Bool
  validateFailed : Bool
  invalidAncestor : Bool
deriving DecidableEq

namespace BlockStatus

/-- `statusNone`. -/
def none : BlockStatus := ⟨false, false, false, false⟩

def knownInvalid (status : BlockStatus) : Bool := status.validateFailed || status.invalidAncestor

/-- The bits of two flags. -/
def or (status flags : BlockStatus) : BlockStatus where
  dataStored := status.dataStored || flags.dataStored
  valid := status.valid || flags.valid
  validateFailed := status.validateFailed || flags.validateFailed
  invalidAncestor := status.invalidAncestor || flags.invalidAncestor

/-- `statusDataStored`. -/
def ofDataStored : BlockStatus := { none with dataStored := true }

/-- `statusValid`. -/
def ofValid : BlockStatus := { none with valid := true }

/-- `statusValidateFailed`. -/
def ofValidateFailed : BlockStatus := { none with validateFailed := true }

/-- `statusInvalidAncestor`. -/
def ofInvalidAncestor : BlockStatus := { none with invalidAncestor := true }

end BlockStatus

/-- `blockIndex`. A height without an entry in the table of tips has `none`. -/
structure BlockIndex where
  index : Hash → Option NodePtr
  status : NodePtr → BlockStatus
  chainTips : Int → Option (List NodePtr)

def newBlockIndex : BlockIndex := ⟨fun _ => none, fun _ => BlockStatus.none, fun _ => none⟩

namespace BlockIndex

variable (ix : BlockIndex) (tip node : NodePtr)

def lookupNode (h : Hash) : Option NodePtr := ix.index h

def haveBlock (h : Hash) : Bool :=
  match ix.index h with
  | none => false
  | some node => (ix.status node).dataStored

def addChainTip : BlockIndex :=
  { ix with
    chainTips := fun h =>
      if h = height tip then some ((ix.chainTips h).getD [] ++ [tip]) else ix.chainTips h }

/-- `removeChainTip`: the first occurrence goes, and with the last node the entry. -/
def removeChainTip : BlockIndex :=
  let nodes := ((ix.chainTips (height tip)).getD []).erase tip
  { ix with
    chainTips := fun h =>
      if h = height tip then (if nodes = [] then none else some nodes) else ix.chainTips h }

def addNode (status : BlockStatus) : BlockIndex :=
  let ix := { ix with
    index := fun h => if h = node.hash then some node else ix.index h
    status := fun n => if n = node then status else ix.status n }
  let ix := ix.addChainTip node
  if node.tail ≠ [] then ix.removeChainTip node.tail else ix

def setStatusFlags (flags : BlockStatus) : BlockIndex :=
  { ix with status := fun n => if n = node then (ix.status n).or flags else ix.status n }

/-- The node is in the index. -/
def Has : Prop := node ≠ [] ∧ ix.index node.hash = some node

/-- The node has no child. -/
def Childless : Prop := ∀ b, ¬ ix.Has (b :: node)

def tipGeneration : List Hash :=
  ((ix.chainTips (height tip)).getD []).map NodePtr.hash

end BlockIndex

/-! ## The table of tips -/

/-- The index is a tree, and the table holds its leaves. -/
structure TipsRight (ix : BlockIndex) : Prop where
  hashed : ∀ h node, ix.index h = some node → node ≠ [] ∧ node.hash = h
  closed : ∀ node, ix.Has node → node.tail = [] ∨ ix.Has node.tail
  nonempty : ∀ h nodes, ix.chainTips h = some nodes → nodes ≠ []
  nodup : ∀ h nodes, ix.chainTips h = some nodes → nodes.Nodup
  mem : ∀ h node, node ∈ (ix.chainTips h).getD [] ↔
    ix.Has node ∧ height node = h ∧ ix.Childless node

/-- A node may be added: it is new, and its parent is in the index, unless it is the first one. -/
structure Addable (ix : BlockIndex) (node : NodePtr) : Prop where
  ne_nil : node ≠ []
  fresh : ix.index node.hash = none
  parent : (node.tail = [] ∧ ∀ n, ¬ ix.Has n) ∨ ix.Has node.tail

/-- Any sequence of additions to an empty index, and of changes of status in between. -/
inductive Additions : BlockIndex → Prop
  | new : Additions newBlockIndex
  | add {ix : BlockIndex} {node : NodePtr} {status : BlockStatus} :
      Additions ix → Addable ix node → Additions (ix.addNode node status)
  | flags {ix : BlockIndex} (node : NodePtr) (flags : BlockStatus) :
      Additions ix → Additions (ix.setStatusFlags node flags)

section Add

variable {ix : BlockIndex} {node n : NodePtr} {status : BlockStatus} {h : Int}

theorem BlockIndex.index_addNode (ix : BlockIndex) (node : NodePtr) (status : BlockStatus)
    (h : Hash) : (ix.addNode node status).index h =
      if h = node.hash then some node else ix.index h := by
  rcases node with _ | ⟨_, _ | _⟩
  all_goals rfl

theorem BlockIndex.status_addNode (ix : BlockIndex) (node : NodePtr) (status : BlockStatus)
    (n : NodePtr) :
    (ix.addNode node status).status n = if n = node then status else ix.status n := by
  rcases node with _ | ⟨_, _ | _⟩
  all_goals rfl

theorem BlockIndex.has_addNode (ha : Addable ix node) :
    (ix.addNode node status).Has n ↔ n = node ∨ ix.Has n := by
  unfold Has
  rw [index_addNode]
  split_ifs with hh
  · rw [hh, ha.fresh, Option.some.injEq]
    constructor
    · exact fun h => .inl h.2.symm
    · rintro (rfl | ⟨-, h⟩)
      · exact ⟨ha.ne_nil, rfl⟩
      · cases h
  · refine ⟨.inr, fun h => h.resolve_left ?_⟩
    rintro rfl
    exact hh rfl

theorem addable_genesis (genesis : NodeBlock) : Addable newBlockIndex [genesis] :=
  ⟨by simp, rfl, .inl ⟨rfl, fun _ hn => nomatch hn.2⟩⟩

theorem not_has_of_addable (ha : Addable ix node) : ¬ ix.Has node := fun h => by
  rw [BlockIndex.Has, ha.fresh] at h
  cases h.2

theorem BlockIndex.childless_addNode (hi : TipsRight ix) (ha : Addable ix node) :
    (ix.addNode node status).Childless n ↔ n ≠ node.tail ∧ (n = node ∨ ix.Childless n) := by
  have hnode : ∀ b, ¬ ix.Has (b :: node) := fun b hb => by
    rcases hi.closed _ hb with hnil | hhas
    · exact ha.ne_nil hnil
    · exact not_has_of_addable ha hhas
  unfold Childless
  simp only [has_addNode ha]
  constructor
  · refine fun h => ⟨fun he => ?_, .inr fun b hb => h b (.inr hb)⟩
    obtain ⟨b, parent, rfl⟩ := exists_cons_of_ne_nil ha.ne_nil
    exact h b (.inl (by rw [he, tail_cons]))
  · rintro ⟨hne, hn⟩ b (rfl | hb)
    · exact hne rfl
    · rcases hn with rfl | hn
      · exact hnode b hb
      · exact hn b hb

theorem BlockIndex.chainTips_addNode (ix : BlockIndex) (ha : Addable ix node) (h : Int) :
    (ix.addNode node status).chainTips h =
      if h = height node then some ((ix.chainTips h).getD [] ++ [node])
      else if h = height node.tail ∧ node.tail ≠ [] then
        (if ((ix.chainTips h).getD []).erase node.tail = [] then none
          else some (((ix.chainTips h).getD []).erase node.tail))
      else ix.chainTips h := by
  obtain ⟨b, parent, rfl⟩ := exists_cons_of_ne_nil ha.ne_nil
  have hheight := height_cons b parent
  unfold addNode addChainTip removeChainTip
  simp only [tail_cons]
  by_cases hparent : parent = []
  · simp [hparent]
  · rw [if_pos hparent]
    by_cases h1 : h = height (b :: parent)
    · simp [h1, show height (b :: parent) ≠ height parent by omega]
    · by_cases h2 : h = height parent
      · subst h2
        simp [h1, hparent]
      · simp [h1, h2]

theorem nodup_getD (hi : TipsRight ix) (h : Int) : ((ix.chainTips h).getD []).Nodup := by
  cases hn : ix.chainTips h with
  | none => exact nodup_nil
  | some nodes => exact hi.nodup h nodes hn

/-- A missing slice stands for the empty one. -/
theorem getD_ite_nil (nodes : List NodePtr) :
    (if nodes = [] then none else some nodes).getD [] = nodes := by
  split_ifs with h
  · exact h.symm
  · rfl

theorem BlockIndex.mem_chainTips_addNode (hi : TipsRight ix) (ha : Addable ix node) :
    n ∈ ((ix.addNode node status).chainTips h).getD [] ↔
      (n ∈ (ix.chainTips h).getD [] ∧ n ≠ node.tail) ∨ (n = node ∧ h = height node) := by
  have hheight : height node = height node.tail + 1 := by
    rw [← height_cons (node.head ha.ne_nil), cons_head_tail]
  have hat : ∀ {h n}, n ∈ (ix.chainTips h).getD [] → n ≠ [] ∧ height n = h := fun hn =>
    ⟨((hi.mem _ _).1 hn).1.1, ((hi.mem _ _).1 hn).2.1⟩
  rw [chainTips_addNode ix ha]
  by_cases h1 : h = height node
  · rw [if_pos h1, Option.getD_some, mem_append, mem_singleton]
    refine or_congr ⟨fun hn => ⟨hn, ?_⟩, And.left⟩ (by simp [h1])
    rintro rfl
    have := (hat hn).2
    omega
  · rw [if_neg h1]
    simp only [h1, and_false, or_false]
    by_cases h2 : h = height node.tail ∧ node.tail ≠ []
    · rw [if_pos h2, getD_ite_nil, (nodup_getD hi h).mem_erase_iff, and_comm]
    · rw [if_neg h2]
      refine ⟨fun hn => ⟨hn, ?_⟩, And.left⟩
      rintro rfl
      exact h2 ⟨(hat hn).2.symm, (hat hn).1⟩

/-- **An addition** keeps the table right. -/
theorem TipsRight.addNode (hi : TipsRight ix) (ha : Addable ix node) :
    TipsRight (ix.addNode node status) where
  hashed h n hn := by
    rw [BlockIndex.index_addNode] at hn
    split_ifs at hn with hh
    · cases hn
      exact ⟨ha.ne_nil, hh.symm⟩
    · exact hi.hashed h n hn
  closed n hn := by
    rw [BlockIndex.has_addNode ha] at hn ⊢
    rcases hn with rfl | hn
    · exact ha.parent.imp And.left .inr
    · exact (hi.closed n hn).imp_right .inr
  nonempty h nodes hnodes := by
    rw [BlockIndex.chainTips_addNode ix ha] at hnodes
    split_ifs at hnodes with h1 h2 h3
    · cases hnodes
      simp
    · cases hnodes
      exact h3
    · exact hi.nonempty h nodes hnodes
  nodup h nodes hnodes := by
    rw [BlockIndex.chainTips_addNode ix ha] at hnodes
    split_ifs at hnodes with h1 h2 h3
    · cases hnodes
      refine nodup_append.2 ⟨nodup_getD hi h, nodup_singleton _, ?_⟩
      rintro n hn n' hn' rfl
      rw [mem_singleton.1 hn'] at hn
      exact not_has_of_addable ha ((hi.mem h _).1 hn).1
    · cases hnodes
      exact (nodup_getD hi h).erase _
    · exact hi.nodup h nodes hnodes
  mem h n := by
    rw [BlockIndex.mem_chainTips_addNode hi ha, hi.mem, BlockIndex.has_addNode ha,
      BlockIndex.childless_addNode hi ha]
    constructor
    · rintro (⟨⟨hhas, hheight, hchild⟩, hne⟩ | ⟨rfl, rfl⟩)
      · exact ⟨.inr hhas, hheight, hne, .inr hchild⟩
      · refine ⟨.inl rfl, rfl, fun he => ?_, .inl rfl⟩
        obtain ⟨b, parent, rfl⟩ := exists_cons_of_ne_nil ha.ne_nil
        exact absurd (congrArg List.length he) (by simp)
    · rintro ⟨hhas, hheight, hne, hchild⟩
      rcases hhas with rfl | hhas
      · exact .inr ⟨rfl, hheight.symm⟩
      · refine .inl ⟨⟨hhas, hheight, hchild.resolve_left ?_⟩, hne⟩
        rintro rfl
        exact not_has_of_addable ha hhas

theorem TipsRight.setStatusFlags (hi : TipsRight ix) (node : NodePtr) (flags : BlockStatus) :
    TipsRight (ix.setStatusFlags node flags) :=
  ⟨hi.hashed, hi.closed, hi.nonempty, hi.nodup, hi.mem⟩

/-- **Any additions** keep the table right. -/
theorem Additions.tipsRight (h : Additions ix) : TipsRight ix := by
  induction h with
  | new =>
    constructor
    all_goals simp [newBlockIndex, BlockIndex.Has]
  | add _ ha ih => exact ih.addNode ha
  | flags node flags _ ih => exact ih.setStatusFlags node flags

end Add

/-! ## The generation of the best tip -/

section Generation

variable {ix : BlockIndex} {tip : NodePtr}

/-- The blocks that share the parent of the tip. -/
def Sibling (ix : BlockIndex) (tip n : NodePtr) : Prop := ix.Has n ∧ n.tail = tip.tail

/-- No block of the generation has a child, and only blocks of the generation are tips at its
height. -/
structure GenerationOfTips (ix : BlockIndex) (tip : NodePtr) : Prop where
  childless : ∀ n, Sibling ix tip n → ix.Childless n
  related : ∀ n, ix.Has n → height n = height tip → ix.Childless n → n.tail = tip.tail

theorem Sibling.height_eq (htip : ix.Has tip) {n : NodePtr} (h : Sibling ix tip n) :
    height n = height tip := by
  obtain ⟨b, parent, rfl⟩ := exists_cons_of_ne_nil htip.1
  obtain ⟨b', parent', rfl⟩ := exists_cons_of_ne_nil h.1.1
  have hparent : parent' = parent := h.2
  rw [height_cons, height_cons, hparent]

theorem BlockIndex.Has.hash_inj {n n' : NodePtr} (h : ix.Has n) (h' : ix.Has n')
    (he : n.hash = n'.hash) : n = n' := Option.some.inj (by rw [← h.2, ← h'.2, he])

/-- **Tips and generations.** The table of tips holds exactly the blocks without children, each once
under its height and without empty slots. What `TipGeneration` returns are the blocks with the
parent of the tip, each once, exactly if these are the tips at the height. -/
theorem tipGeneration_iff (hix : Additions ix) (htip : ix.Has tip) :
    (∀ h nodes, ix.chainTips h = some nodes → nodes ≠ [] ∧ nodes.Nodup) ∧
    (∀ h n, n ∈ (ix.chainTips h).getD [] ↔ ix.Has n ∧ height n = h ∧ ix.Childless n) ∧
    (ix.tipGeneration tip).Nodup ∧
    ((∀ hash, hash ∈ ix.tipGeneration tip ↔ ∃ n, Sibling ix tip n ∧ n.hash = hash) ↔
      GenerationOfTips ix tip) := by
  have hi := hix.tipsRight
  have hmem : ∀ hash, hash ∈ ix.tipGeneration tip ↔
      ∃ n, (ix.Has n ∧ height n = height tip ∧ ix.Childless n) ∧ n.hash = hash := fun hash => by
    simp only [BlockIndex.tipGeneration, mem_map, hi.mem]
  refine ⟨fun h nodes hn => ⟨hi.nonempty h nodes hn, hi.nodup h nodes hn⟩, hi.mem, ?_, ?_, ?_⟩
  · refine List.Nodup.map_on (fun n hn n' hn' he => ?_) (nodup_getD hi _)
    exact ((hi.mem _ _).1 hn).1.hash_inj ((hi.mem _ _).1 hn').1 he
  · -- a hash names one node, so equal sets of hashes are equal sets of nodes
    intro h
    refine ⟨fun n hn => ?_, fun n hn hheight hchild => ?_⟩
    · obtain ⟨n', ⟨hn', -, hchild⟩, he⟩ := (hmem n.hash).1 ((h n.hash).2 ⟨n, hn, rfl⟩)
      exact hn'.hash_inj hn.1 he ▸ hchild
    · obtain ⟨n', hn', he⟩ := (h n.hash).1 ((hmem n.hash).2 ⟨n, ⟨hn, hheight, hchild⟩, rfl⟩)
      exact hn'.1.hash_inj hn he ▸ hn'.2
  · intro h hash
    rw [hmem]
    constructor
    · rintro ⟨n, ⟨hn, hheight, hchild⟩, rfl⟩
      exact ⟨n, ⟨hn, h.related n hn hheight hchild⟩, rfl⟩
    · rintro ⟨n, hn, rfl⟩
      exact ⟨n, ⟨hn.1, hn.height_eq htip, h.childless n hn⟩, rfl⟩

end Generation

/-! A block of the generation that was built on is missing: `left` and `right` stand on the genesis
block, `left` has more work, and `child` extends `right`. -/

namespace Fork

def genesis : NodeBlock := ⟨Hash.ofNat 1, default, 1⟩

def left : NodeBlock := ⟨Hash.ofNat 2, genesis.hash, 5⟩

def right : NodeBlock := ⟨Hash.ofNat 3, genesis.hash, 1⟩

def child : NodeBlock := ⟨Hash.ofNat 4, right.hash, 1⟩

/-- Before `child` arrives. -/
def forkIndex : BlockIndex :=
  ((newBlockIndex.addNode [genesis] .ofDataStored).addNode [left, genesis] .ofDataStored).addNode
    [right, genesis] .ofDataStored

def grownIndex : BlockIndex := forkIndex.addNode [child, right, genesis] .ofDataStored

theorem left_addable : Addable (newBlockIndex.addNode [genesis] .ofDataStored) [left, genesis] :=
  ⟨by simp, by decide +kernel, .inr ⟨by simp, by decide +kernel⟩⟩

theorem right_addable :
    Addable ((newBlockIndex.addNode [genesis] .ofDataStored).addNode [left, genesis] .ofDataStored)
      [right, genesis] :=
  ⟨by simp, by decide +kernel, .inr ⟨by simp, by decide +kernel⟩⟩

theorem forkIndex_additions : Additions forkIndex :=
  .add (.add (.add .new (addable_genesis _)) left_addable) right_addable

theorem forkIndex_has {n : NodePtr} :
    forkIndex.Has n ↔ n = [right, genesis] ∨ n = [left, genesis] ∨ n = [genesis] := by
  have hnew : ¬ newBlockIndex.Has n := fun h => nomatch h.2
  rw [forkIndex, BlockIndex.has_addNode right_addable, BlockIndex.has_addNode left_addable,
    BlockIndex.has_addNode (addable_genesis _)]
  simp only [hnew, or_false]

theorem forkIndex_generation : GenerationOfTips forkIndex [left, genesis] where
  childless n hn b hb := by
    rw [forkIndex_has] at hb
    have hne := (forkIndex_has.1 hn.1)
    have htail := hn.2
    rcases hb with hb | hb | hb <;> cases hb <;> simp_all
  related n hn hheight _ := by
    rcases forkIndex_has.1 hn with rfl | rfl | rfl
    · rfl
    · rfl
    · cases hheight

theorem grownIndex_additions : Additions grownIndex :=
  .add forkIndex_additions ⟨by simp, by decide +kernel, .inr ⟨by simp, by decide +kernel⟩⟩

end Fork

open Fork in
/-- Before `child` arrives, the generation is both blocks. -/
theorem forkIndex_tipGeneration : GenerationOfTips forkIndex [left, genesis] ∧
    ∀ hash, hash ∈ forkIndex.tipGeneration [left, genesis] ↔
      ∃ n, Sibling forkIndex [left, genesis] n ∧ n.hash = hash :=
  ⟨forkIndex_generation, (tipGeneration_iff forkIndex_additions
    ⟨by simp, by decide +kernel⟩).2.2.2.2 forkIndex_generation⟩

open Fork in
/-- Afterwards only `left` is returned, and `right` still has the same parent. -/
theorem grownIndex_tipGeneration : Additions grownIndex ∧ grownIndex.Has [left, genesis] ∧
    grownIndex.tipGeneration [left, genesis] = [left.hash] ∧
    Sibling grownIndex [left, genesis] [right, genesis] ∧
      NodePtr.hash [right, genesis] ≠ left.hash :=
  ⟨grownIndex_additions, ⟨by simp, by decide +kernel⟩, by decide +kernel,
    ⟨⟨by simp, by decide +kernel⟩, rfl⟩, by decide +kernel⟩

end Fnod
