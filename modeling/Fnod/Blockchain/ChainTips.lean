import Fnod.Blockchain.Adoption
import Mathlib.Data.List.Sort
import Mathlib.Data.Prod.Lex

/-!
# `chainquery.go`: the tips of the chain

`ChainTips` gathers the tips from the index, sorts them, and describes each.

**Theorem (`chainTips_run`).** After any calls of `ProcessBlock` the tips are listed and described
rightly, but for one thing: a tip is reported as invalid only if it carries a flag itself. When a
block fails in a reorganization, only the blocks above it on that branch are marked. The report is
right if no call leaves blocks above a failed one unmarked (`ProcessCall.MarksAll`).

The invariant is that a block above one that is known to be invalid is known to be so, too
(`Flagged`).
-/

namespace Fnod

open BlockIndex BlockTree Chain List

/-- The status of a tip in `ChainTipInfo`. -/
inductive TipStatus
  | active
  | invalid
  | headersOnly
  | validFork
  | validHeaders
deriving DecidableEq

structure ChainTipInfo where
  height : Int
  hash : Hash
  branchLen : Int
  status : TipStatus
deriving DecidableEq

/-- `nodeHeightSorter`: by height, and then by hash. -/
def nodeKey (node : NodePtr) : Int ×ₗ Hash := toLex (height node, node.hash)

namespace Chain

def tipStatus (c : Chain) (tip : NodePtr) : TipStatus :=
  let status := c.index.status tip
  if tip = c.tip then .active
  else if status.knownInvalid then .invalid
  else if !status.dataStored then .headersOnly
  else if status.knownValid then .validFork
  else .validHeaders

/-- The description of a tip. Without a fork with the best chain it panics. -/
def tipInfo (c : Chain) (tip : NodePtr) : Option ChainTipInfo :=
  let fork := findFork c.tip tip
  if fork = [] then none
  else some ⟨height tip, tip.hash, height tip - height fork, c.tipStatus tip⟩

/-- The tips of the index, where its map is passed over in some order, by descending height. -/
def sortedTips (c : Chain) (order : List Int) : List NodePtr :=
  (order.flatMap fun h => (c.index.chainTips h).getD []).insertionSort
    (Order.Preimage nodeKey (· ≥ ·))

def chainTips (c : Chain) (order : List Int) : Option (List ChainTipInfo) :=
  (c.sortedTips order).mapM c.tipInfo

end Chain

/-! ## Marked branches -/

/-- A block above one that is known to be invalid is known to be so, too. -/
def Flagged (ix : BlockIndex) : Prop :=
  ∀ n, ix.Has n → ix.Invalid n → (ix.status n).knownInvalid = true

/-- If the best chain is to move to the branch of a node, and a block of it cannot be attached, the
branch is the only one above that block, apart from blocks that are known to be invalid. -/
def Chain.OneBranch (connects : NodePtr → Bool) (checks : Checks) (c : Chain) (node : NodePtr) :
    Prop :=
  node.tail ≠ c.tip → c.Staked checks node → workSum c.tip < workSum node →
    ∀ x, x <:+ node → ¬ x <:+ c.tip → ¬ (c.added node).Attachable connects x →
      ∀ n, c.index.Has n → x <:+ n → (c.index.status n).knownInvalid = false → n <:+ node

/-- Each of the blocks finds only one branch, up to the first that is not acceptable. -/
def OneBranchAll (connects : NodePtr → Bool) (checks : Checks) : Chain → List NodeBlock → Prop
  | _, [] => True
  | c, b :: bs => ∀ prevNode, Enters checks c b prevNode →
      c.OneBranch connects checks (b :: prevNode) ∧ (Acceptable connects checks c b prevNode →
        OneBranchAll connects checks (c.adopted (b :: prevNode)) bs)

/-- No block above one that fails is left unmarked, by the submitted block or by the orphans below
it. -/
def ProcessCall.MarksAll (connects : NodePtr → Bool) (b : BlockChain) (call : ProcessCall) : Prop :=
  call.Passes b → OneBranchAll connects call.checks b.chain
    (call.block :: b.pool.below call.block.hash)

section Flags

variable {genesis block : NodeBlock} {c c' : Chain} {connects : NodePtr → Bool} {checks : Checks}
  {prevNode : NodePtr} {prevOf : Hash → Hash} {bs : List NodeBlock}

section

variable (h : Flagged c.index) (hbest : Best genesis c)
  (ha : Addable c.index (block :: prevNode)) (henters : Enters checks c block prevNode)

include h hbest ha henters

/-- A new node has no ancestor that is known to be invalid. -/
theorem Flagged.not_invalid :
    ¬ (c.added (block :: prevNode)).index.Invalid (block :: prevNode) := by
  rintro ⟨anc, hs, hne, hinvalid⟩
  rw [Chain.added, status_addNode] at hinvalid
  split_ifs at hinvalid with he
  · cases hinvalid
  · have hs := (suffix_cons_iff.1 hs).resolve_left he
    have hprev : c.index.Has prevNode := ha.parent.resolve_left fun hl => hl.2 _ hbest.tip
    have := h prevNode hprev ⟨anc, hs, hne, hinvalid⟩
    rw [henters.2.1] at this
    cases this

theorem Flagged.added : Flagged (c.added (block :: prevNode)).index := by
  intro n hn hinvalid
  rcases (has_addNode ha).1 hn with rfl | hn
  · exact absurd hinvalid (h.not_invalid hbest ha henters)
  · obtain ⟨anc, hs, hne, hflag⟩ := hinvalid
    rw [ha.status_added (hbest.right.has_suffix hn hs hne)] at hflag
    rw [ha.status_added hn]
    exact h n hn ⟨anc, hs, hne, hflag⟩

theorem Flagged.adopted : Flagged (c.adopted (block :: prevNode)).index := by
  have hm := adopted_marks c (block :: prevNode)
  rintro n hn ⟨anc, hs, hne, hflag⟩
  rw [hm.invalid, or_false] at hflag ⊢
  exact h.added hbest ha henters n ((hm.has_iff n).1 hn) ⟨anc, hs, hne, hflag⟩

theorem Flagged.refused (hone : c.OneBranch connects checks (block :: prevNode))
    (hr : Refused connects checks c (block :: prevNode) c') : Flagged c'.index := by
  obtain ⟨bad, hbad, hm⟩ := hr.marks
  rintro n hn ⟨anc, hs, hne, hflag⟩
  have hn := (hm.has_iff n).1 hn
  rw [hm.invalid] at hflag ⊢
  rcases hflag with hflag | ⟨x, hx, hxa, -⟩
  · exact .inl (h.added hbest ha henters n hn ⟨anc, hs, hne, hflag⟩)
  · -- the block that failed is below the node
    have hxn := hxa.trans hs
    obtain ⟨hxnode, hxtip, hwhy⟩ := hbad x hx
    rcases (has_addNode ha).1 hn with rfl | hn'
    · exact .inr ⟨x, hx, hxn, suffix_refl _⟩
    · have hxne : x ≠ block :: prevNode := fun he =>
        not_has_of_addable ha (hbest.right.has_suffix hn' (he ▸ hxn) (by simp))
      obtain ⟨hstake, hwork, hno⟩ := hwhy.resolve_left hxne
      have htop : prevNode ≠ c.tip := by
        rintro rfl
        exact hxtip ((suffix_cons_iff.1 hxnode).resolve_left hxne)
      rw [ha.status_added hn']
      by_cases hflagged : (c.index.status n).knownInvalid = true
      · exact .inl hflagged
      · exact .inr ⟨x, hx, hxn, hone htop hstake hwork x hxnode hxtip hno n hn' hxn
          (by simpa using hflagged)⟩

end

theorem Flagged.acceptAll (h : Flagged c.index) (hbest : Best genesis c) (hfresh : Fresh c bs)
    (hone : OneBranchAll connects checks c bs) :
    Flagged (acceptAll (Chain.acceptOrphan connects checks) c bs).1.index := by
  induction bs generalizing c with
  | nil => exact h
  | cons b bs ih =>
    rw [Fnod.acceptAll, Chain.acceptOrphan]
    rcases hbest.maybeAcceptBlock_cases connects checks (hfresh.2 b mem_cons_self) with
      ⟨-, err, he⟩ | ⟨prevNode, henters, ha, ⟨hf, forkLen, he⟩ | ⟨-, c', err, he, hr⟩⟩
    all_goals rw [he]; dsimp only
    · exact h
    · exact ih (h.adopted hbest ha henters) (hbest.adopted ha hf)
        (hfresh.entered (adopted_marks c _)) ((hone prevNode henters).2 hf)
    · exact h.refused hbest ha henters (hone prevNode henters).1 hr

/-- **Marks reach all blocks above a failed one**, in a run whose calls see to it. -/
theorem ProcessRun.flagged {steps : List ProcessStep} {b : BlockChain}
    (h : ProcessRun connects prevOf genesis steps b)
    (hmarks : ∀ s ∈ steps, s.call.MarksAll connects s.before) : Flagged b.chain.index := by
  induction h with
  | new =>
    exact fun n hn hinvalid => by
      rcases (has_addNode (addable_genesis genesis)).1 hn with rfl | hn
      · exact absurd hinvalid newBlockChain_best.valid
      · cases hn.2
  | call hrun hlegal hcall ih =>
    have hold := ih fun s hs => hmarks s (mem_append_left _ hs)
    have hr := hrun.chainRight
    obtain ⟨_, _, hstep, -, hchain, -⟩ := processBlock_spec hr hlegal
    cases hcall.symm.trans hstep
    rcases hchain with hchain | ⟨hpass, hchain⟩
    all_goals rw [hchain]
    · exact hold
    · exact hold.acceptAll hr.best (hr.fresh hpass)
        (hmarks _ (mem_append_right _ mem_cons_self) hpass)

end Flags

/-! ## The tips -/

/-- What is said of a tip. The branch leaves the best chain at the last block that they share. -/
structure Describes (c : Chain) (tip : NodePtr) (info : ChainTipInfo) : Prop where
  height : info.height = height tip
  hash : info.hash = tip.hash
  branchLen : ∃ fork, fork ≠ [] ∧ (∀ anc, anc <:+ fork ↔ anc <:+ c.tip ∧ anc <:+ tip) ∧
    info.branchLen = BlockTree.height tip - BlockTree.height fork
  active : info.status = .active ↔ tip = c.tip
  invalid : info.status = .invalid ↔ (c.index.status tip).knownInvalid = true

section Tips

variable {genesis : NodeBlock} {c : Chain} {order : List Int}

/-- **The description of a tip.** -/
theorem Best.tipInfo {tip : NodePtr} (h : Best genesis c) (htip : c.index.Has tip) :
    ∃ info, c.tipInfo tip = some info ∧ Describes c tip info := by
  have hfork := h.fork_ne_nil (h.rooted _ htip)
  refine ⟨_, if_neg hfork, rfl, rfl, ⟨_, hfork, fun anc => ?_, rfl⟩, ?_, ?_⟩
  · obtain ⟨hs, hs'⟩ := findFork_suffix c.tip tip
    exact ⟨fun ha => ⟨ha.trans hs, ha.trans hs'⟩, fun ha => suffix_findFork ha.1 ha.2⟩
  · dsimp only [tipStatus]
    split_ifs <;> simp_all
  · have hbest : tip = c.tip → ¬ (c.index.status tip).knownInvalid = true := fun he hinvalid =>
      h.valid ⟨tip, he ▸ suffix_refl _, htip.1, hinvalid⟩
    dsimp only [tipStatus]
    split_ifs <;> simp_all

theorem mem_sortedTips (hi : TipsRight c.index) (hmap : ∀ h, h ∈ order ↔ c.index.chainTips h ≠ none)
    {n : NodePtr} : n ∈ c.sortedTips order ↔ c.index.Has n ∧ c.index.Childless n := by
  rw [sortedTips, mem_insertionSort, mem_flatMap]
  constructor
  · rintro ⟨h, -, hn⟩
    obtain ⟨hhas, -, hchild⟩ := (hi.mem h n).1 hn
    exact ⟨hhas, hchild⟩
  · rintro ⟨hhas, hchild⟩
    have hn := (hi.mem (height n) n).2 ⟨hhas, rfl, hchild⟩
    refine ⟨height n, (hmap _).2 fun hnone => ?_, hn⟩
    rw [hnone] at hn
    cases hn

theorem TipsRight.exists_tip {ix : BlockIndex} {h : Int} (hi : TipsRight ix)
    (hh : ix.chainTips h ≠ none) : ∃ n, ix.Has n ∧ height n = h := by
  obtain ⟨nodes, hnodes⟩ := Option.ne_none_iff_exists'.1 hh
  obtain ⟨n, hn⟩ := exists_mem_of_ne_nil _ (hi.nonempty _ _ hnodes)
  obtain ⟨hhas, hheight, -⟩ := (hi.mem h n).1 (hnodes ▸ hn)
  exact ⟨n, hhas, hheight⟩

theorem nodup_sortedTips (hi : TipsRight c.index) (horder : order.Nodup) :
    (c.sortedTips order).Nodup := by
  rw [sortedTips, (perm_insertionSort _ _).nodup_iff, nodup_flatMap]
  refine ⟨fun h _ => nodup_getD hi h, horder.imp fun hne n hn hn' => hne ?_⟩
  exact ((hi.mem _ n).1 hn).2.1.symm.trans ((hi.mem _ n).1 hn').2.1

theorem sorted_sortedTips : (c.sortedTips order).Pairwise fun n n' => height n' ≤ height n := by
  refine (pairwise_insertionSort _ _).imp fun {n n'} hle => ?_
  simp only [Order.Preimage, nodeKey, ge_iff_le, Prod.Lex.toLex_le_toLex] at hle
  omega

theorem exists_mapM {α β : Type} {f : α → Option β} {R : α → β → Prop} {l : List α}
    (h : ∀ a ∈ l, ∃ b, f a = some b ∧ R a b) : ∃ bs, l.mapM f = some bs ∧ Forall₂ R l bs := by
  induction l with
  | nil => exact ⟨[], rfl, .nil⟩
  | cons a l ih =>
    obtain ⟨⟨b, hb, hR⟩, hl⟩ := forall_mem_cons.1 h
    obtain ⟨bs, hbs, hall⟩ := ih hl
    exact ⟨b :: bs, by simp [mapM_cons, hb, hbs], .cons hR hall⟩

/-- **The tips of the chain.** After any calls of `ProcessBlock`, in whatever order the map of tips
is passed over, `ChainTips` lists the blocks without children, each once and by descending height,
with the distance from the best chain, and `active` for the best tip. If no call left blocks above a
failed one unmarked, a tip is reported as invalid exactly if it or an ancestor is known to be so. -/
theorem chainTips_run {connects : NodePtr → Bool} {prevOf : Hash → Hash} {steps : List ProcessStep}
    {b : BlockChain} (h : ProcessRun connects prevOf genesis steps b) (horder : order.Nodup)
    (hmap : ∀ h, h ∈ order ↔ b.chain.index.chainTips h ≠ none) :
    ∃ tips infos, b.chain.chainTips order = some infos ∧ Forall₂ (Describes b.chain) tips infos ∧
      tips.Nodup ∧ (∀ n, n ∈ tips ↔ b.chain.index.Has n ∧ b.chain.index.Childless n) ∧
      tips.Pairwise (fun n n' => height n' ≤ height n) ∧
      ((∀ s ∈ steps, s.call.MarksAll connects s.before) →
        Forall₂ (fun tip info => info.status = .invalid ↔ b.chain.index.Invalid tip)
          tips infos) := by
  have hbest := h.chainRight.best
  have hmem : ∀ n, n ∈ b.chain.sortedTips order ↔ _ := fun n => mem_sortedTips hbest.right hmap
  have hdesc : ∀ n ∈ b.chain.sortedTips order, ∃ info, b.chain.tipInfo n = some info ∧
      b.chain.index.Has n ∧ Describes b.chain n info := fun n hn =>
    have htip := ((hmem n).1 hn).1
    (hbest.tipInfo htip).imp fun _ hd => ⟨hd.1, htip, hd.2⟩
  obtain ⟨infos, hinfos, hall⟩ := exists_mapM hdesc
  refine ⟨_, infos, hinfos, hall.imp fun _ _ hd => hd.2, nodup_sortedTips hbest.right horder, hmem,
    sorted_sortedTips, fun hmarks => hall.imp fun n info hd => hd.2.invalid.trans ⟨?_, ?_⟩⟩
  · exact fun hflag => ⟨n, suffix_refl _, hd.1.1, hflag⟩
  · exact h.flagged hmarks n hd.1

/-- **The best chain** is known to be valid, and never known to be invalid. -/
theorem best_run {connects prevOf steps b} (h : ProcessRun connects prevOf genesis steps b) :
    Best genesis b.chain := h.chainRight.best

end Tips

/-! The branch of `heavy` has the most work, but its block `right` does not connect. -/

namespace UnmarkedTip

open Fork

def heavy : NodeBlock := ⟨Hash.ofNat 5, right.hash, 9⟩

def prevOf (h : Hash) : Hash := if h = child.hash ∨ h = heavy.hash then right.hash else genesis.hash

def connects (n : NodePtr) : Bool := n.hash != right.hash

def arrives (block : NodeBlock) : ProcessCall :=
  ⟨block, ⟨false, fun _ _ => true, fun _ _ => true, fun _ _ => true⟩, [], 0⟩

/-- The calls, one after another. -/
def after (blocks : List NodeBlock) : BlockChain :=
  blocks.foldl (fun b block => ((b.processBlock connects (arrives block)).map (·.1)).getD b)
    (newBlockChain genesis)

theorem commits : left.Commits prevOf ∧ right.Commits prevOf ∧ child.Commits prevOf ∧
    heavy.Commits prevOf := by
  unfold NodeBlock.Commits
  decide +kernel

theorem run_fork : ∃ r r', ProcessRun connects prevOf genesis
    [⟨newBlockChain genesis, arrives left, after [left], r⟩,
      ⟨after [left], arrives right, after [left, right], r'⟩] (after [left, right]) :=
  ⟨_, _, (ProcessRun.new.call ⟨commits.1, .refl _⟩ rfl).call ⟨commits.2.1, .refl _⟩ rfl⟩

theorem run_both : ∃ steps, ProcessRun connects prevOf genesis steps
    (after [left, right, child, heavy]) ∧
      steps.map ProcessStep.call = [arrives left, arrives right, arrives child, arrives heavy] := by
  obtain ⟨_, _, h⟩ := run_fork
  have h3 := h.call (c := arrives child) ⟨commits.2.2.1, .refl _⟩ rfl
  exact ⟨_, h3.call (c := arrives heavy) ⟨commits.2.2.2, .refl _⟩ rfl, rfl⟩

theorem heavy_has {n : NodePtr} (h : (after [left, right, heavy]).chain.index.Has n) :
    n = [heavy, right, genesis] ∨ n = [right, genesis] ∨ n = [left, genesis] ∨ n = [genesis] := by
  by_cases he : n.hash = heavy.hash
  · have hn : (if n.hash = heavy.hash then some [heavy, right, genesis] else _) = some n := h.2
    rw [if_pos he] at hn
    exact .inl (Option.some.inj hn).symm
  · have hn : (if n.hash = heavy.hash then _ else forkIndex.index n.hash) = some n := h.2
    rw [if_neg he] at hn
    exact .inr (forkIndex_has.1 ⟨h.1, hn⟩)

/-- The first two blocks leave the best chain alone or extend it. -/
theorem fork_marksAll : (arrives left).MarksAll connects (newBlockChain genesis) ∧
    (arrives right).MarksAll connects (after [left]) := by
  refine ⟨fun _ prevNode henters => ⟨fun htop => ?_, fun _ => trivial⟩,
    fun _ prevNode henters => ⟨fun _ _ hwork => ?_, fun _ => trivial⟩⟩
  · have hprev : (newBlockChain genesis).chain.index.index left.prevBlock = some [genesis] := by
      decide +kernel
    cases hprev.symm.trans henters.1
    exact absurd rfl htop
  · have hprev : (after [left]).chain.index.index right.prevBlock = some [genesis] := by
      decide +kernel
    cases hprev.symm.trans henters.1
    exact absurd hwork (by decide +kernel)

/-- Above `right`, which fails, there is only `heavy`. -/
theorem heavy_marksAll : (arrives heavy).MarksAll connects (after [left, right]) := by
  intro _ prevNode henters
  have hprev : (after [left, right]).chain.index.index heavy.prevBlock = some [right, genesis] := by
    decide +kernel
  cases hprev.symm.trans henters.1
  refine ⟨fun _ _ _ x hx hxtip _ n hn hxn _ => ?_, fun _ => trivial⟩
  rcases forkIndex_has.1 ⟨hn.1, hn.2⟩ with rfl | rfl | rfl
  · exact suffix_cons _ _
  · exact absurd hxn hxtip
  · exact absurd (hxn.trans (suffix_cons _ _)) hxtip

end UnmarkedTip

open UnmarkedTip Fork in
/-- The branch of `heavy` fails to connect and is reported as invalid. -/
theorem chainTips_run_heavy : ∃ steps b, ProcessRun connects prevOf genesis steps b ∧
    steps.map ProcessStep.call = [arrives left, arrives right, arrives heavy] ∧
    ∃ tips infos, b.chain.chainTips [1, 2] = some infos ∧
      infos = [⟨2, heavy.hash, 2, .invalid⟩, ⟨1, left.hash, 0, .active⟩] ∧
      Forall₂ (fun tip info => info.status = .invalid ↔ b.chain.index.Invalid tip) tips infos := by
  obtain ⟨_, _, h⟩ := run_fork
  have h3 : ProcessRun connects prevOf genesis _ (after [left, right, heavy]) :=
    h.call (c := arrives heavy) ⟨commits.2.2.2, .refl _⟩ rfl
  have hmap : ∀ h, h ∈ ([1, 2] : List Int) ↔
      (after [left, right, heavy]).chain.index.chainTips h ≠ none := by
    refine fun h => ⟨fun hh => ?_, fun hh => ?_⟩
    · rcases mem_pair.1 hh with rfl | rfl <;> decide +kernel
    · obtain ⟨n, hn, hheight⟩ := h3.chainRight.best.right.exists_tip hh
      rcases heavy_has hn with rfl | rfl | rfl | rfl <;> subst hheight
      all_goals revert hh; decide +kernel
  obtain ⟨tips, infos, hinfos, -, -, -, -, hall⟩ := chainTips_run h3 (by decide) hmap
  refine ⟨_, _, h3, rfl, tips, infos, hinfos, ?_, hall ?_⟩
  · refine Option.some.inj (hinfos.symm.trans ?_)
    decide +kernel
  · simp only [forall_mem_append, forall_mem_cons, not_mem_nil, false_implies, implies_true,
      and_true]
    exact ⟨fork_marksAll, heavy_marksAll⟩

open UnmarkedTip Fork in
/-- The best chain stays at `left` when the blocks of the heavier branch are tried and refused. -/
theorem best_run_heavy : ∃ steps b, ProcessRun connects prevOf genesis steps b ∧
    steps.map ProcessStep.call = [arrives left, arrives right, arrives child, arrives heavy] ∧
    (b.chain.index.status [heavy, right, genesis]).knownInvalid = true ∧
    b.chain.tip = [left, genesis] ∧ Best genesis b.chain := by
  obtain ⟨steps, h, hcalls⟩ := run_both
  exact ⟨steps, _, h, hcalls, by decide +kernel, by decide +kernel, best_run h⟩

open UnmarkedTip Fork in
/-- The other child of `right` is not reported as invalid. -/
theorem unmarkedTip_run : ∃ steps b, ProcessRun connects prevOf genesis steps b ∧
    b.chain.index.Invalid [child, right, genesis] ∧ b.chain.chainTips [1, 2] = some
      [⟨2, heavy.hash, 2, .invalid⟩, ⟨2, child.hash, 2, .validHeaders⟩,
        ⟨1, left.hash, 0, .active⟩] := by
  obtain ⟨steps, h, -⟩ := run_both
  have hinvalid : (after [left, right, child, heavy]).chain.index.Invalid [child, right, genesis] :=
    ⟨[right, genesis], by decide +kernel, by decide +kernel, by decide +kernel⟩
  exact ⟨steps, _, h, hinvalid, by decide +kernel⟩

end Fnod
