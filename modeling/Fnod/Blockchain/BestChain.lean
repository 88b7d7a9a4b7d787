import Fnod.Blockchain.Chain

/-!
# The best chain

What `maybeAcceptBlock` does with a new block, said once (`Best.maybeAcceptBlock_cases`).

* A block that is `Acceptable` joins the index. If it extends the best chain or has more work, it is
  the new tip, and the blocks on the way to it are marked as valid (`Chain.adopted`).
* Any other block leaves the best chain as it was (`Refused`), also when a reorganization to its
  branch failed half way and was undone. The blocks that may be marked as invalid are those from a
  bad block of the branch up to the new one.

The invariant is `Best`. The blocks of the best chain are known to be valid and none of them is
known to be invalid, so the way back never fails.
-/

namespace Fnod

open BlockIndex BlockTree Chain List

/-- The indexes differ in flags only. Nodes get the flags of invalid blocks exactly where the
predicate holds, and lose none. -/
structure Marks (marked : NodePtr → Prop) (ix ix' : BlockIndex) : Prop where
  index : ix'.index = ix.index
  chainTips : ix'.chainTips = ix.chainTips
  stored : ∀ n, (ix.status n).dataStored = true → (ix'.status n).dataStored = true
  known : ∀ n, (ix.status n).knownValid = true → (ix'.status n).knownValid = true
  invalid : ∀ n, (ix'.status n).knownInvalid = true ↔
    (ix.status n).knownInvalid = true ∨ marked n

/-- The block or one of its ancestors is known to be invalid. -/
def BlockIndex.Invalid (ix : BlockIndex) (node : NodePtr) : Prop :=
  ∃ anc, anc <:+ node ∧ anc ≠ [] ∧ (ix.status anc).knownInvalid = true

/-- The best chain is in the index, its blocks are known to be valid, and none is known to be
invalid. -/
structure Best (genesis : NodeBlock) (c : Chain) : Prop where
  right : TipsRight c.index
  rooted : ∀ n, c.index.Has n → [genesis] <:+ n
  tip : c.index.Has c.tip
  valid : ¬ c.index.Invalid c.tip
  known : ∀ n, n <:+ c.tip → n ≠ [] → (c.index.status n).knownValid = true

/-- The blocks between a tip and a node are marked as valid. -/
def BlockIndex.validated (ix : BlockIndex) (tip node : NodePtr) : BlockIndex :=
  { ix with
    status := fun n =>
      if n <:+ node ∧ ¬ n <:+ tip then (ix.status n).or .ofValid else ix.status n }

/-- A node joins the index. -/
def Chain.added (c : Chain) (node : NodePtr) : Chain :=
  { c with index := c.index.addNode node .ofDataStored }

/-- A node that is accepted joins the index. If it extends the best chain or has more work, it is
the new tip. -/
def Chain.adopted (c : Chain) (node : NodePtr) : Chain :=
  if node.tail = c.tip ∨ workSum c.tip < workSum node then
    ⟨(c.added node).index.validated c.tip node, node⟩
  else c.added node

/-- A block can be attached: it is not known to be invalid, and it connects or did so before. -/
def Chain.Attachable (connects : NodePtr → Bool) (c : Chain) (n : NodePtr) : Prop :=
  (c.index.status n).knownInvalid = false ∧
    ((c.index.status n).knownValid = true ∨ connects n = true)

/-- The block passes the checks that come before its node is added. -/
def Enters (checks : Checks) (c : Chain) (block : NodeBlock) (prevNode : NodePtr) : Prop :=
  c.index.index block.prevBlock = some prevNode ∧ (c.index.status prevNode).knownInvalid = false ∧
    checks.context c (block :: prevNode) = true

/-- The stake node of a block far below the tip can be fetched. -/
def Chain.Staked (checks : Checks) (c : Chain) (node : NodePtr) : Prop :=
  height node < height c.tip - minMemoryNodes → checks.stake (c.added node) node = true

/-- The block can be accepted: it passes the first checks, its stake node can be fetched, and if the
best chain is to end with it, all blocks that are new there can be attached. -/
structure Acceptable (connects : NodePtr → Bool) (checks : Checks) (c : Chain) (block : NodeBlock)
    (prevNode : NodePtr) : Prop where
  enters : Enters checks c block prevNode
  stake : c.Staked checks (block :: prevNode)
  onTip : prevNode = c.tip → checks.fastAdd = true ∨ connects (block :: prevNode) = true
  branch : prevNode ≠ c.tip → workSum c.tip < workSum (block :: prevNode) →
    ∀ n ∈ (block :: prevNode).tails, ¬ n <:+ c.tip →
      (c.added (block :: prevNode)).Attachable connects n

/-- A node entered the index and was refused: the best chain is the same, and blocks were marked as
invalid at most from one that cannot be attached up to the new one. -/
structure Refused (connects : NodePtr → Bool) (checks : Checks) (c : Chain) (node : NodePtr)
    (c' : Chain) : Prop where
  tip : c'.tip = c.tip
  marks : ∃ bad : Option NodePtr,
    (∀ x ∈ bad, x <:+ node ∧ ¬ x <:+ c.tip ∧
      (x = node ∨ c.Staked checks node ∧ workSum c.tip < workSum node ∧
        ¬ (c.added node).Attachable connects x)) ∧
    Marks (fun n => ∃ x ∈ bad, x <:+ n ∧ n <:+ node) (c.added node).index c'.index

/-- What becomes of a block that enters the index: it is adopted if it is acceptable, and refused if
not. -/
def Outcome (connects : NodePtr → Bool) (checks : Checks) (c : Chain) (block : NodeBlock)
    (prevNode : NodePtr) (r : Chain × Except ProcessError Int) : Prop :=
  (Acceptable connects checks c block prevNode ∧
    ∃ forkLen, r = (c.adopted (block :: prevNode), .ok forkLen)) ∨
  (¬ Acceptable connects checks c block prevNode ∧
    ∃ c' err, r = (c', .error err) ∧ Refused connects checks c (block :: prevNode) c')

/-! ## Flags -/

section Flags

variable {ix ix' ix'' : BlockIndex} {node tip : NodePtr} {S S' : NodePtr → Prop}

theorem BlockStatus.knownInvalid_or (s flags : BlockStatus) :
    (s.or flags).knownInvalid = (s.knownInvalid || flags.knownInvalid) := by
  simp only [BlockStatus.or, BlockStatus.knownInvalid, Bool.or_assoc, Bool.or_left_comm]

theorem BlockStatus.or_ofValid {s : BlockStatus} (h : s.knownValid = true) : s.or .ofValid = s := by
  rcases s with ⟨_, _, _, _⟩
  simp_all [BlockStatus.or, BlockStatus.ofValid, BlockStatus.none, BlockStatus.knownValid]

/-- A flag that is set on some nodes. -/
theorem foldl_setStatusFlags (flags : BlockStatus) (nodes : List NodePtr) (ix : BlockIndex) :
    nodes.foldl (fun ix n => ix.setStatusFlags n flags) ix =
      { ix with
        status := fun n => if n ∈ nodes then (ix.status n).or flags else ix.status n } := by
  induction nodes generalizing ix with
  | nil => simp
  | cons m nodes ih =>
    have hor : ∀ s : BlockStatus, (s.or flags).or flags = s.or flags := fun s => by
      simp [BlockStatus.or]
    rw [foldl_cons, ih]
    unfold setStatusFlags
    congr 1
    funext n
    by_cases hm : n = m <;> by_cases hn : n ∈ nodes <;> simp [hm, hn, hor]

theorem Marks.foldl (flags : BlockStatus) (nodes : List NodePtr) (ix : BlockIndex) :
    Marks (fun n => n ∈ nodes ∧ flags.knownInvalid = true) ix
      (nodes.foldl (fun ix n => ix.setStatusFlags n flags) ix) := by
  rw [foldl_setStatusFlags]
  refine ⟨rfl, rfl, fun n hn => ?_, fun n hn => ?_, fun n => ?_⟩ <;> dsimp only
  · split_ifs <;> simp [BlockStatus.or, hn]
  · split_ifs
    · exact Bool.or_eq_true_iff.2 (.inl hn)
    · exact hn
  · split_ifs with hmem <;> simp [hmem, BlockStatus.knownInvalid_or]

theorem Marks.trans (h : Marks S ix ix') (h' : Marks S' ix' ix'') :
    Marks (fun n => S n ∨ S' n) ix ix'' where
  index := h'.index.trans h.index
  chainTips := h'.chainTips.trans h.chainTips
  stored n hn := h'.stored n (h.stored n hn)
  known n hn := h'.known n (h.known n hn)
  invalid n := by rw [h'.invalid, h.invalid, or_assoc]

theorem Marks.congr (h : Marks S ix ix')
    (hS : ∀ n, (ix.status n).knownInvalid = true ∨ S n ↔
      (ix.status n).knownInvalid = true ∨ S' n) : Marks S' ix ix' :=
  { h with invalid := fun n => (h.invalid n).trans (hS n) }

theorem Marks.has_iff (h : Marks S ix ix') (n : NodePtr) : ix'.Has n ↔ ix.Has n := by
  rw [BlockIndex.Has, BlockIndex.Has, h.index]

theorem Marks.tipsRight (h : Marks S ix ix') (ht : TipsRight ix) : TipsRight ix' := by
  constructor
  · rw [h.index]
    exact ht.hashed
  · simpa only [h.has_iff] using ht.closed
  · rw [h.chainTips]
    exact ht.nonempty
  · rw [h.chainTips]
    exact ht.nodup
  · simpa only [h.chainTips, BlockIndex.Childless, h.has_iff] using ht.mem

theorem validated_eq (ix : BlockIndex) (tip node : NodePtr) :
    (path (findFork tip node) node).foldl (fun ix n => ix.setStatusFlags n .ofValid) ix =
      ix.validated tip node := by
  rw [foldl_setStatusFlags]
  simp only [validated, mem_path_findFork]

theorem Marks.validated (ix : BlockIndex) (tip node : NodePtr) :
    Marks (fun _ => False) ix (ix.validated tip node) := by
  rw [← validated_eq]
  exact (Marks.foldl _ _ ix).congr fun n => or_congr_right (iff_false_intro fun h => nomatch h.2)

/-- Blocks that are known to be valid are marked again. -/
theorem marked_of_known [DecidablePred S] (h : ∀ n, S n → (ix.status n).knownValid = true) :
    { ix with status := fun n => if S n then (ix.status n).or .ofValid else ix.status n } = ix := by
  congr 1
  funext n
  split_ifs with hn
  · exact BlockStatus.or_ofValid (h n hn)
  · rfl

theorem validated_cons (ix : BlockIndex) (b : NodeBlock) (tip : NodePtr) :
    ix.validated tip (b :: tip) = ix.setStatusFlags (b :: tip) .ofValid := by
  have hiff : ∀ n, (n <:+ b :: tip ∧ ¬ n <:+ tip) ↔ n = b :: tip := fun n => by
    rw [suffix_cons_iff]
    refine ⟨fun h => h.1.resolve_right h.2, ?_⟩
    rintro rfl
    exact ⟨.inl rfl, fun h => absurd h.length_le (by simp)⟩
  simp only [BlockIndex.validated, BlockIndex.setStatusFlags, hiff]

end Flags

/-! ## Reorganizations -/

section Chains

variable {genesis block : NodeBlock} {c c' : Chain} {ix : BlockIndex} {connects : NodePtr → Bool}
  {fork m n node target tip : NodePtr} {pre rest nodes : List NodePtr}

theorem attachNodes_ok (hs : fork <:+ node) (hfork : fork ≠ [])
    (h : ∀ n ∈ path fork node, (ix.status n).knownInvalid = false) :
    attachNodes ix fork node nodes = .ok (path fork node ++ nodes) := by
  induction node generalizing nodes with
  | nil => exact absurd (suffix_nil.1 hs) hfork
  | cons b parent ih =>
    unfold attachNodes
    rcases suffix_cons_iff.1 hs with rfl | hs
    · simp [path]
    · have hne := (ne_cons_of_suffix (a := b) hs).symm
      rw [path_cons hs, forall_mem_append, forall_mem_singleton] at h
      rw [if_neg hne, if_neg (by simp [h.2]), ih hs h.1, path_cons hs, append_assoc]
      rfl

/-- The first loop stops at the highest node that is known to be invalid. -/
theorem attachNodes_error (hs : fork <:+ node) (hfork : fork ≠ [])
    (h : ∃ n ∈ path fork node, (ix.status n).knownInvalid = true) :
    ∃ m ∈ path fork node, (ix.status m).knownInvalid = true ∧
      attachNodes ix fork node nodes = .error (path m node ++ nodes) := by
  induction node generalizing nodes with
  | nil => exact absurd (suffix_nil.1 hs) hfork
  | cons b parent ih =>
    rcases suffix_cons_iff.1 hs with rfl | hs
    · simp [path] at h
    · have hne := (ne_cons_of_suffix (a := b) hs).symm
      unfold attachNodes
      rw [if_neg hne, path_cons hs]
      by_cases hinvalid : (ix.status (b :: parent)).knownInvalid = true
      · exact ⟨b :: parent, by simp, hinvalid, by simp [hinvalid, path]⟩
      · obtain ⟨n, hn, hflag⟩ := h
        rw [path_cons hs, mem_append, mem_singleton] at hn
        have hn := hn.resolve_right fun he => hinvalid (he ▸ hflag)
        obtain ⟨m, hm, hflag, heq⟩ := @ih ((b :: parent) :: nodes) hs ⟨n, hn, hflag⟩
        refine ⟨m, mem_append_left _ hm, hflag, ?_⟩
        rw [if_neg hinvalid, heq, path_cons (suffix_of_mem_path hm), append_assoc]
        rfl

theorem detach_eq (hs : fork <:+ tip) (hfork : fork ≠ []) : detach fork tip = fork := by
  induction tip with
  | nil => exact absurd (suffix_nil.1 hs) hfork
  | cons b parent ih =>
    unfold detach
    split_ifs with he
    · exact he
    · exact ih ((suffix_cons_iff.1 hs).resolve_left (Ne.symm he))

/-- The third loop, as long as the blocks connect. -/
theorem attach_append
    (h : ∀ n ∈ pre, (c.index.status n).knownValid = true ∨ connects n = true) :
    Chain.attach connects c (pre ++ rest) = Chain.attach connects
      ⟨pre.foldl (fun ix n => ix.setStatusFlags n .ofValid) c.index, pre.getLastD c.tip⟩ rest := by
  induction pre generalizing c with
  | nil => rfl
  | cons n pre ih =>
    obtain ⟨hn, hpre⟩ := forall_mem_cons.1 h
    have hflag : Chain.attach connects c (n :: (pre ++ rest)) =
        Chain.attach connects ⟨c.index.setStatusFlags n .ofValid, n⟩ (pre ++ rest) := by
      rw [Chain.attach]
      by_cases hknown : (c.index.status n).knownValid = true
      · have hsame : c.index.setStatusFlags n .ofValid = c.index :=
          marked_of_known fun _ he => he ▸ hknown
        rw [if_pos hknown, hsame]
      · rw [if_neg hknown, if_pos (hn.resolve_left hknown)]
    rw [cons_append, hflag, ih, foldl_cons, getLastD_cons]
    intro m hm
    exact (hpre m hm).imp_left ((Marks.foldl .ofValid [n] c.index).known m)

/-- A branch all of whose blocks can be attached. -/
theorem reorganizeChainInternal_ok (hfork : findFork c.tip target ≠ [])
    (h : ∀ n, n <:+ target → ¬ n <:+ c.tip → c.Attachable connects n) :
    c.reorganizeChainInternal connects target =
      (⟨c.index.validated c.tip target, target⟩, none) := by
  obtain ⟨htip, hs⟩ := findFork_suffix c.tip target
  have hpath : ∀ n ∈ path (findFork c.tip target) target, c.Attachable connects n :=
    fun n hn => h n (mem_path_findFork.1 hn).1 (mem_path_findFork.1 hn).2
  unfold Chain.reorganizeChainInternal
  dsimp only
  rw [attachNodes_ok hs hfork fun n hn => (hpath n hn).1, detach_eq htip hfork]
  dsimp only
  rw [attach_append (c := ⟨c.index, findFork c.tip target⟩) fun n hn => (hpath n hn).2,
    validated_eq, getLastD_path hs]
  rfl

/-- The third loop, if a block does not connect: it and the blocks above it are marked. -/
theorem attach_bad
    (hbad : ∃ n ∈ nodes, (c.index.status n).knownValid = false ∧ connects n = false) :
    ∃ pre x post ix, nodes = pre ++ x :: post ∧ (c.index.status x).knownValid = false ∧
      connects x = false ∧ Marks (· ∈ x :: post) c.index ix ∧
      Chain.attach connects c nodes = (⟨ix, pre.getLastD c.tip⟩, some .connect) := by
  obtain ⟨x, hfound⟩ : ∃ x, nodes.find?
      (fun n => !((c.index.status n).knownValid || connects n)) = some x := by
    obtain ⟨n, hn, hno⟩ := hbad
    exact Option.isSome_iff_exists.1 (find?_isSome.2 ⟨n, hn, by simp [hno]⟩)
  obtain ⟨hx, pre, post, rfl, hpre⟩ := find?_eq_some_iff_append.1 hfound
  simp only [Bool.or_eq_false_iff, Bool.not_eq_eq_eq_not, Bool.not_true, Bool.not_false,
    Bool.or_eq_true] at hx hpre
  have hx' : ((pre.foldl (fun ix n => ix.setStatusFlags n .ofValid) c.index).status
      x).knownValid = false := by
    have hnot : x ∉ pre := fun hmem => by simpa [hx] using hpre x hmem
    rw [foldl_setStatusFlags]
    simp [hnot, hx.1]
  rw [attach_append hpre, Chain.attach, if_neg (by simp [hx']), if_neg (by simp [hx.2])]
  refine ⟨pre, x, post, _, rfl, hx.1, hx.2, (((Marks.foldl .ofValid pre _).trans
    (.foldl .ofValidateFailed [x] _)).trans (.foldl .ofInvalidAncestor post _)).congr
      fun n => ?_, rfl⟩
  simp [BlockStatus.knownInvalid, BlockStatus.ofValid, BlockStatus.ofValidateFailed,
    BlockStatus.ofInvalidAncestor, BlockStatus.none]

/-- The nodes of a path from one of them on. -/
theorem mem_path_from {x : NodePtr} {post : List NodePtr}
    (hpath : path (findFork tip target) target = pre ++ x :: post) :
    n ∈ x :: post ↔ x <:+ n ∧ n <:+ target := by
  have hmem : ∀ n, n ∈ pre ++ x :: post ↔ n <:+ target ∧ ¬ n <:+ tip := fun n => by
    rw [← hpath, mem_path_findFork]
  have hpair := pairwise_path (findFork tip target) target
  rw [hpath, pairwise_append, pairwise_cons] at hpair
  constructor
  · intro hn
    refine ⟨?_, ((hmem n).1 (mem_append_right _ hn)).1⟩
    rcases mem_cons.1 hn with rfl | hn
    · exact suffix_refl _
    · exact hpair.2.1.1 n hn
  · rintro ⟨hxn, hnt⟩
    have hx := ((hmem x).1 (by simp)).2
    rcases mem_append.1 ((hmem n).2 ⟨hnt, fun h => hx (hxn.trans h)⟩) with hn | hn
    · rw [(hpair.2.2 n hn x mem_cons_self).eq_of_length_le hxn.length_le]
      exact mem_cons_self
    · exact hn

/-- A branch with a block that cannot be attached. The blocks from such a block on are marked. -/
theorem reorganizeChainInternal_bad (hfork : findFork c.tip target ≠ [])
    (hbad : ∃ n, n <:+ target ∧ ¬ n <:+ c.tip ∧ ¬ c.Attachable connects n) :
    ∃ ix tip err x, c.reorganizeChainInternal connects target = (⟨ix, tip⟩, some err) ∧
      findFork c.tip target <:+ tip ∧
      (x <:+ target ∧ ¬ x <:+ c.tip ∧ ¬ c.Attachable connects x) ∧
      Marks (fun n => x <:+ n ∧ n <:+ target) c.index ix := by
  obtain ⟨htip, hs⟩ := findFork_suffix c.tip target
  unfold Chain.reorganizeChainInternal
  dsimp only
  by_cases hflag : ∃ n ∈ path (findFork c.tip target) target,
      (c.index.status n).knownInvalid = true
  · obtain ⟨m, hm, hinvalid, heq⟩ := attachNodes_error hs hfork hflag
    have hmt := suffix_of_mem_path hm
    rw [heq, append_nil]
    refine ⟨_, _, _, m, rfl, htip,
      ⟨hmt, (mem_path_findFork.1 hm).2, by simp [Attachable, hinvalid]⟩,
      (Marks.foldl .ofInvalidAncestor _ _).congr fun n => ?_⟩
    rw [mem_path hmt]
    constructor
    · rintro (h | ⟨⟨hnt, hnm⟩, -⟩)
      · exact .inl h
      · exact .inr ⟨(suffix_or_suffix_of_suffix hnt hmt).resolve_left hnm, hnt⟩
    · rintro (h | ⟨hmn, hnt⟩)
      · exact .inl h
      · by_cases hnm : n <:+ m
        · exact .inl (hnm.eq_of_length_le hmn.length_le ▸ hinvalid)
        · exact .inr ⟨⟨hnt, hnm⟩, rfl⟩
  · have hflag' : ∀ n ∈ path (findFork c.tip target) target,
        (c.index.status n).knownInvalid = false := by simpa using hflag
    obtain ⟨pre, x, post, ix, hpath, hvalid, hconnects, hmarks, heq⟩ :=
      @attach_bad ⟨c.index, findFork c.tip target⟩ connects
        (path (findFork c.tip target) target) <| by
          obtain ⟨n, hn, hnt, hno⟩ := hbad
          have hmem := mem_path_findFork.2 ⟨hn, hnt⟩
          exact ⟨n, hmem, by simpa [Attachable, hflag' n hmem] using hno⟩
    have hmem : ∀ n ∈ pre ++ x :: post, n <:+ target ∧ ¬ n <:+ c.tip := fun n hn =>
      mem_path_findFork.1 (hpath ▸ hn)
    rw [attachNodes_ok hs hfork hflag', detach_eq htip hfork, append_nil]
    refine ⟨ix, _, _, x, heq, ?_, ⟨(hmem x (by simp)).1, (hmem x (by simp)).2,
      fun h => by simp [Attachable, hvalid, hconnects] at h⟩,
      hmarks.congr fun n => or_congr_right (mem_path_from hpath)⟩
    rcases eq_nil_or_concat pre with rfl | ⟨l, m, rfl⟩
    · exact suffix_refl _
    · obtain ⟨hmt, hmtip⟩ := hmem m (by simp)
      rw [concat_eq_append, getLastD_concat]
      exact (suffix_or_suffix_of_suffix hs hmt).resolve_right fun h => hmtip (h.trans htip)

theorem TipsRight.has_suffix (hi : TipsRight ix) (hn : ix.Has node) (hs : n <:+ node)
    (hne : n ≠ []) : ix.Has n :=
  BlockTree.of_suffix (fun _ _ hb hparent => (hi.closed _ hb).resolve_left hparent) hn hs hne

theorem Best.fork_ne_nil (h : Best genesis c) (htarget : [genesis] <:+ target) :
    findFork c.tip target ≠ [] := by
  intro he
  have := suffix_findFork (h.rooted _ h.tip) htarget
  simp [he] at this

theorem Best.reorganizeChain_ok (h : Best genesis c) (htarget : c.index.Has target)
    (hne : c.tip ≠ target) (hall : ∀ n, n <:+ target → ¬ n <:+ c.tip → c.Attachable connects n) :
    c.reorganizeChain connects target = (⟨c.index.validated c.tip target, target⟩, none) := by
  unfold Chain.reorganizeChain
  rw [if_neg htarget.1, if_neg hne,
    reorganizeChainInternal_ok (h.fork_ne_nil (h.rooted _ htarget)) hall]

/-- **A reorganization that fails is undone.** -/
theorem Best.reorganizeChain_bad (h : Best genesis c) (htarget : c.index.Has target)
    (hbad : ∃ n, n <:+ target ∧ ¬ n <:+ c.tip ∧ ¬ c.Attachable connects n) :
    ∃ ix err x, c.reorganizeChain connects target = (⟨ix, c.tip⟩, some err) ∧
      (x <:+ target ∧ ¬ x <:+ c.tip ∧ ¬ c.Attachable connects x) ∧
      Marks (fun n => x <:+ n ∧ n <:+ target) c.index ix := by
  have hroot := h.rooted _ h.tip
  have hroot' := h.rooted _ htarget
  have hne : c.tip ≠ target := by
    rintro rfl
    obtain ⟨n, hn, hnot, -⟩ := hbad
    exact hnot hn
  obtain ⟨ix, tip, err, x, heq, htip, hx, hmarks⟩ :=
    reorganizeChainInternal_bad (h.fork_ne_nil hroot') hbad
  have hold : ∀ n, n <:+ c.tip → ¬ n <:+ tip → (⟨ix, tip⟩ : Chain).Attachable connects n ∧
      (ix.status n).knownValid = true := fun n hn hnot => by
    have hnil : n ≠ [] := by
      rintro rfl
      exact hnot nil_suffix
    have hknown := hmarks.known n (h.known n hn hnil)
    refine ⟨⟨?_, .inl hknown⟩, hknown⟩
    rw [Bool.eq_false_iff, Ne, hmarks.invalid]
    rintro (hflag | ⟨hxn, -⟩)
    · exact h.valid ⟨n, hn, hnil, hflag⟩
    · exact hx.2.1 (hxn.trans hn)
  have hback : Chain.reorganizeChainInternal connects ⟨ix, tip⟩ c.tip = _ :=
    reorganizeChainInternal_ok (fun he => by
      simpa [he] using suffix_findFork ((suffix_findFork hroot hroot').trans htip) hroot)
      fun n hn hnot => (hold n hn hnot).1
  refine ⟨ix, err, x, ?_, hx, hmarks⟩
  unfold Chain.reorganizeChain
  rw [if_neg htarget.1, if_neg hne, heq]
  dsimp only
  rw [hback, validated, marked_of_known fun n hn => (hold n hn.1 hn.2).2]

/-! ## A new block -/

variable {checks : Checks} {prevNode : NodePtr}

theorem tip_added (c : Chain) (node : NodePtr) : (c.added node).tip = c.tip := rfl

theorem Addable.status_added (ha : Addable c.index node) (hn : c.index.Has n) :
    (c.added node).index.status n = c.index.status n := by
  refine (status_addNode _ _ _ n).trans (if_neg ?_)
  rintro rfl
  exact not_has_of_addable ha hn

theorem Best.addable (h : Best genesis c) (hfresh : c.index.index block.hash = none)
    (hprev : c.index.index block.prevBlock = some prevNode) :
    Addable c.index (block :: prevNode) := by
  obtain ⟨hne, he⟩ := h.right.hashed _ _ hprev
  exact ⟨by simp, hfresh, .inr ⟨hne, he ▸ hprev⟩⟩

section

variable (h : Best genesis c) (ha : Addable c.index node)

include h ha

/-- A new leaf of the tree. -/
theorem Best.added : Best genesis (c.added node) := by
  have hhas : ∀ n, n <:+ c.tip → n ≠ [] → c.index.Has n := fun _ => h.right.has_suffix h.tip
  refine ⟨h.right.addNode ha, fun n hn => ?_, (has_addNode ha).2 (.inr h.tip), ?_,
    fun n hn hne => ?_⟩
  · rcases (has_addNode ha).1 hn with rfl | hn
    · exact (h.rooted _ (ha.parent.resolve_left fun hl => hl.2 _ h.tip)).trans (tail_suffix _)
    · exact h.rooted n hn
  · rintro ⟨anc, hs, hne, hinvalid⟩
    rw [ha.status_added (hhas anc hs hne)] at hinvalid
    exact h.valid ⟨anc, hs, hne, hinvalid⟩
  · rw [ha.status_added (hhas n hn hne)]
    exact h.known n hn hne

/-- **A block that is refused** leaves the best chain as it was. -/
theorem Best.refused (hr : Refused connects checks c node c') : Best genesis c' := by
  have hadded := h.added ha
  obtain ⟨bad, hbad, hmarks⟩ := hr.marks
  refine ⟨hmarks.tipsRight hadded.right, fun n hn => hadded.rooted n ((hmarks.has_iff n).1 hn), ?_,
    ?_, fun n hn hne => hmarks.known n (hadded.known n (hr.tip ▸ hn) hne)⟩
  · rw [hr.tip]
    exact (hmarks.has_iff _).2 hadded.tip
  · rintro ⟨anc, hs, hne, hinvalid⟩
    rw [hr.tip] at hs
    rcases (hmarks.invalid anc).1 hinvalid with hflag | ⟨x, hx, hxa, -⟩
    · exact hadded.valid ⟨anc, hs, hne, hflag⟩
    · exact (hbad x hx).2.1 (hxa.trans hs)

end

section

variable (h : Best genesis c) (ha : Addable c.index (block :: prevNode))

include h ha

/-- **A block that is acceptable** is adopted. -/
theorem Best.adopted (hf : Acceptable connects checks c block prevNode) :
    Best genesis (c.adopted (block :: prevNode)) := by
  have hadded := h.added ha
  have hsame := Marks.validated (c.added (block :: prevNode)).index c.tip (block :: prevNode)
  unfold Chain.adopted
  split_ifs with htop
  · refine ⟨hsame.tipsRight hadded.right, fun n hn => hadded.rooted n ((hsame.has_iff n).1 hn),
      (hsame.has_iff _).2 ((has_addNode ha).2 (.inl rfl)), ?_, fun n hn hne => ?_⟩
    · rintro ⟨anc, hs, hne, hinvalid⟩
      rw [hsame.invalid, or_false] at hinvalid
      by_cases hanc : anc <:+ c.tip
      · exact hadded.valid ⟨anc, hanc, hne, hinvalid⟩
      · by_cases htip : prevNode = c.tip
        · obtain rfl := (suffix_cons_iff.1 hs).resolve_right (htip ▸ hanc)
          rw [Chain.added, status_addNode, if_pos rfl] at hinvalid
          cases hinvalid
        · have hok := hf.branch htip (htop.resolve_left htip) anc ((mem_tails _ _).2 hs) hanc
          rw [hok.1] at hinvalid
          cases hinvalid
    · unfold BlockIndex.validated
      dsimp only
      split_ifs with hoff
      · exact Bool.or_true _
      · refine hadded.known n ?_ hne
        by_contra hanc
        exact hoff ⟨hn, hanc⟩
  · exact hadded

variable (henters : Enters checks c block prevNode) (hstake : c.Staked checks (block :: prevNode))

include henters hstake

/-- **`connectBestChain`** with a node on the tip. -/
theorem Best.connectBestChain_onTip (htip : prevNode = c.tip) :
    Outcome connects checks c block prevNode ((c.added (block :: prevNode)).connectBestChain
      connects (block :: prevNode) block checks.fastAdd) := by
  subst htip
  have hnew : (c.added (block :: c.tip)).index.status (block :: c.tip) = .ofDataStored :=
    (status_addNode _ _ _ _).trans (if_pos rfl)
  have htop : c.adopted (block :: c.tip) =
      ⟨(c.added (block :: c.tip)).index.setStatusFlags (block :: c.tip) .ofValid,
        block :: c.tip⟩ := (if_pos (.inl rfl)).trans (by rw [validated_cons])
  unfold Outcome Chain.connectBestChain
  rw [tip_added, hnew, if_pos (h.right.hashed _ _ henters.1).2.symm, htop]
  by_cases hok : checks.fastAdd = true ∨ connects (block :: c.tip) = true
  · refine .inl ⟨⟨henters, hstake, fun _ => hok, fun hne => absurd rfl hne⟩, 0, if_neg ?_⟩
    rcases hok with h | h <;> simp [h]
  · have hno : checks.fastAdd = false ∧ connects (block :: c.tip) = false := by simpa using hok
    refine .inr ⟨fun hf => hok (hf.onTip rfl), _, _, if_pos (by rw [hno.1, hno.2]; rfl), rfl,
      some (block :: c.tip), ?_, (Marks.foldl .ofValidateFailed [_] _).congr fun n => ?_⟩
    · simp only [Option.mem_some, forall_eq']
      exact ⟨suffix_refl _, fun hs => absurd hs.length_le (by simp), .inl trivial⟩
    · simp only [mem_singleton, Option.mem_some, exists_eq_left']
      refine or_congr_right ⟨fun hn => hn.1 ▸ ⟨suffix_refl _, suffix_refl _⟩, fun hn => ⟨?_, rfl⟩⟩
      exact hn.2.eq_of_length_le hn.1.length_le

/-- **`connectBestChain`** with a node on another branch. -/
theorem Best.connectBestChain_branch (htip : prevNode ≠ c.tip) :
    Outcome connects checks c block prevNode ((c.added (block :: prevNode)).connectBestChain
      connects (block :: prevNode) block checks.fastAdd) := by
  have hhash : block.prevBlock ≠ c.tip.hash := fun he => by
    have := h.tip.2
    rw [← he, henters.1] at this
    exact htip (Option.some.inj this)
  unfold Outcome Chain.connectBestChain
  rw [tip_added, if_neg hhash]
  by_cases hwork : workSum (block :: prevNode) ≤ workSum c.tip
  · have hlow : c.adopted (block :: prevNode) = c.added (block :: prevNode) :=
      if_neg (by simp [htip, hwork])
    rw [if_pos hwork, hlow]
    exact .inl ⟨⟨henters, hstake, fun he => absurd he htip, fun _ hlt => absurd hlt
      (not_lt.2 hwork)⟩, _, rfl⟩
  · have htop : c.adopted (block :: prevNode) =
        ⟨(c.added (block :: prevNode)).index.validated c.tip (block :: prevNode),
          block :: prevNode⟩ := if_pos (.inr (not_le.1 hwork))
    have hadded := h.added ha
    have hhas : (c.added (block :: prevNode)).index.Has _ := (has_addNode ha).2 (.inl rfl)
    rw [if_neg hwork, htop]
    by_cases hall : ∀ n, n <:+ block :: prevNode → ¬ n <:+ c.tip →
        (c.added (block :: prevNode)).Attachable connects n
    · have hne : c.tip ≠ block :: prevNode := fun he => not_has_of_addable ha (he ▸ h.tip)
      rw [hadded.reorganizeChain_ok hhas hne hall]
      exact .inl ⟨⟨henters, hstake, fun he => absurd he htip,
        fun _ _ n hn => hall n ((mem_tails _ _).1 hn)⟩, 0, rfl⟩
    · push Not at hall
      obtain ⟨ix, err, x, heq, hx, hmarks⟩ := hadded.reorganizeChain_bad hhas hall
      rw [heq]
      refine .inr ⟨fun hf => ?_, _, err, rfl, rfl, some x, ?_, by simpa using hmarks⟩
      · exact hx.2.2 (hf.branch htip (not_le.1 hwork) x ((mem_tails _ _).2 hx.1) hx.2.1)
      · simp only [Option.mem_some, forall_eq']
        exact ⟨hx.1, hx.2.1, .inr ⟨hstake, not_le.1 hwork, hx.2.2⟩⟩

end

/-- **What `maybeAcceptBlock` does with a new block.** -/
theorem Best.maybeAcceptBlock_cases (h : Best genesis c) (connects : NodePtr → Bool)
    (checks : Checks) (hfresh : c.index.index block.hash = none) :
    ((∀ prevNode, ¬ Enters checks c block prevNode) ∧
      ∃ err, c.maybeAcceptBlock connects checks block = (c, .error err)) ∨
    ∃ prevNode, Enters checks c block prevNode ∧ Addable c.index (block :: prevNode) ∧
      Outcome connects checks c block prevNode (c.maybeAcceptBlock connects checks block) := by
  unfold Chain.maybeAcceptBlock BlockIndex.lookupNode
  cases hprev : c.index.index block.prevBlock with
  | none => exact .inl ⟨fun prevNode he => by simp [Enters, hprev] at he, _, rfl⟩
  | some prevNode =>
    dsimp only
    by_cases hinvalid : (c.index.status prevNode).knownInvalid = true
    · exact .inl ⟨fun _ he => by simp_all [Enters], _, if_pos hinvalid⟩
    · by_cases hctx : checks.context c (block :: prevNode) = true
      · have henters : Enters checks c block prevNode := ⟨hprev, by simpa using hinvalid, hctx⟩
        have ha := h.addable hfresh hprev
        refine .inr ⟨prevNode, henters, ha, ?_⟩
        rw [if_neg hinvalid, if_neg (by simp [hctx])]
        by_cases hstake : c.Staked checks (block :: prevNode)
        · rw [if_neg (by simpa [Chain.Staked, Chain.added] using hstake)]
          by_cases htip : prevNode = c.tip
          · exact h.connectBestChain_onTip ha henters hstake htip
          · exact h.connectBestChain_branch ha henters hstake htip
        · rw [if_pos (by simpa [Chain.Staked, Chain.added] using hstake)]
          exact .inr ⟨fun hf => hstake hf.stake, _, _, rfl, rfl, none, by simp,
            (Marks.foldl .none [] _).congr fun n => by simp⟩
      · exact .inl ⟨fun _ he => by simp_all [Enters], _,
          by rw [if_neg hinvalid, if_pos (by simp [hctx])]⟩

end Chains

end Fnod
