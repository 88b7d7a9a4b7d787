import Fnod.Blockchain.BestChain

/-!
# Adoption of orphans

When a block is accepted, the orphans below it are tried one after another, breadth first. The first
one that is rejected ends the call with its error.

**Theorem (`adoption_run`).** In a run of `ProcessBlock` calls, no orphan is ever left in the pool
with its parent in the index, and errors are only reported for the submitted block, exactly if the
orphans below each acceptable block are acceptable one after another, and no block with orphans
below it enters the index without being acceptable.

`processHashes_eq` connects the loops of `processOrphans`, which take the pool apart as they go,
with the list of the orphans below a block (`OrphanPool.below`), and `Best.acceptAll` says what
becomes of the chain along this list. The rest is an invariant of those loops: an orphan whose
parent is in the index has this parent in the queue.
-/

namespace Fnod

open BlockIndex List OrphanPool

/-! ## The orphans below a block -/

/-- The orphans that a search from the hashes of a queue finds, breadth first. -/
def breadthFirst (children : Hash → List OrphanBlock) : Nat → List Hash → List OrphanBlock
  | 0, _ => []
  | _ + 1, [] => []
  | fuel + 1, h :: queue =>
    children h ++ breadthFirst children fuel (queue ++ (children h).map (·.block.hash))

/-- The orphans that name a block as their parent. -/
def OrphanPool.children (pool : OrphanPool) (h : Hash) : List OrphanBlock :=
  (pool.prevOrphans h).getD []

/-- The orphans below a block. -/
def OrphanPool.below (pool : OrphanPool) (h : Hash) : List NodeBlock :=
  (breadthFirst pool.children (pool.orphans.length + 1) [h]).map OrphanBlock.block

/-- Accept blocks up to the first error. -/
def acceptAll {σ ε : Type} (accept : σ → NodeBlock → σ × Option ε) :
    σ → List NodeBlock → σ × Option ε
  | s, [] => (s, none)
  | s, b :: bs =>
    match accept s b with
    | (s', some err) => (s', some err)
    | (s', none) => acceptAll accept s' bs

variable {pool : OrphanPool}

section Search

variable {σ ε : Type} {accept : σ → NodeBlock → σ × Option ε} {prevOf : Hash → Hash}
  {queue : List Hash}

/-- The search only looks at what it can reach. -/
theorem breadthFirst_congr {children children' : Hash → List OrphanBlock} (P : Hash → Prop)
    (heq : ∀ h, P h → children h = children' h)
    (hstep : ∀ h, P h → ∀ o ∈ children h, P o.block.hash) (fuel : Nat) (hq : ∀ h ∈ queue, P h) :
    breadthFirst children fuel queue = breadthFirst children' fuel queue := by
  induction fuel generalizing queue with
  | zero => rfl
  | succ fuel ih =>
    cases queue with
    | nil => rfl
    | cons h queue =>
      have hh := hq h mem_cons_self
      rw [breadthFirst, breadthFirst, ← heq h hh]
      congr 1
      refine ih ?_
      simp only [forall_mem_append, forall_mem_map]
      exact ⟨(forall_mem_cons.1 hq).2, hstep h hh⟩

/-- One orphan of the search: it is found first, and the others without it. -/
theorem breadthFirst_cons (hp : PoolRight prevOf pool) {h : Hash} (hq : (h :: queue).Nodup)
    (hout : ∀ h' ∈ h :: queue, pool.has h' = false) {o : OrphanBlock} {rest : List OrphanBlock}
    (hchildren : pool.children h = o :: rest) (fuel : Nat) :
    breadthFirst pool.children (fuel + 1) (h :: queue) =
      o :: breadthFirst (pool.removeOrphanBlock o).children (fuel + 1)
        (h :: queue ++ [o.block.hash]) := by
  have hmem : ∀ o' ∈ pool.children h, o' ∈ pool.orphans ∧ o'.block.prevBlock = h :=
    fun o' ho' => (hp.mem h o').1 ho'
  obtain ⟨ho, hparent⟩ := hmem o (by simp [hchildren])
  have hnotin := has_eq_false.1 (hout h mem_cons_self)
  have hrest : (pool.removeOrphanBlock o).children h = rest := by
    rw [children, prevOrphans_removeOrphanBlock, if_pos hparent.symm]
    change (pool.children h).filter _ = rest
    have hnodup : (pool.children h).Nodup := hp.nodup h
    rw [hchildren] at hmem hnodup ⊢
    rw [filter_cons_of_neg (by simp), filter_eq_self]
    intro o' ho'
    refine bne_iff_ne.2 fun he => ?_
    have heq := hp.eq_of_hash (hmem o' (mem_cons_of_mem _ ho')).1 ho he
    exact (nodup_cons.1 hnodup).1 (heq ▸ ho')
  rw [breadthFirst, hchildren, cons_append, cons_append, breadthFirst, hrest]
  congr 2
  rw [append_assoc, map_cons, singleton_append]
  -- nothing that is still reachable has the parent of the orphan as its parent
  refine breadthFirst_congr (· ≠ h) (fun h' hne => ?_) (fun h' _ o' ho' => ?_) fuel ?_
  · rw [children, children, prevOrphans_removeOrphanBlock,
      if_neg (by rwa [hparent])]
  · exact hnotin o' ((hp.mem h' o').1 ho').1
  · simp only [forall_mem_append, forall_mem_cons, forall_mem_map]
    refine ⟨fun h' hmem' he => ?_, hnotin o ho, fun o' ho' => hnotin o' ?_⟩
    · exact (nodup_cons.1 hq).1 (he ▸ hmem')
    · exact (hmem o' (by simp [hchildren, ho'])).1

/-- **The loops of `processOrphans`** try the orphans below the hashes of the queue, breadth first,
up to the first one that is rejected. -/
theorem processHashes_eq {fuel fuel' : Nat} {s : σ} (hp : PoolRight prevOf pool) (hq : queue.Nodup)
    (hout : ∀ h ∈ queue, pool.has h = false) (hfuel : 2 * pool.orphans.length + queue.length < fuel)
    (hfuel' : pool.orphans.length + queue.length ≤ fuel') :
    (processHashes accept fuel s pool queue).map (fun r => (r.1, r.2.2)) =
      some (acceptAll accept s
        ((breadthFirst pool.children fuel' queue).map OrphanBlock.block)) := by
  induction fuel generalizing s pool queue fuel' with
  | zero => omega
  | succ fuel ih =>
    cases queue with
    | nil => cases fuel' <;> rfl
    | cons h queue =>
      simp only [length_cons] at hfuel hfuel'
      obtain ⟨fuel', rfl⟩ : ∃ f, fuel' = f + 1 := ⟨fuel' - 1, by omega⟩
      rw [processHashes]
      cases hchildren : (pool.prevOrphans h).getD [] with
      | nil =>
        change pool.children h = [] at hchildren
        rw [breadthFirst, hchildren, map_nil, append_nil, nil_append]
        exact ih hp (nodup_cons.1 hq).2 (forall_mem_cons.1 hout).2
          (by omega) (by omega)
      | cons o rest =>
        obtain ⟨ho, -⟩ := (hp.mem h o).1 (hchildren ▸ mem_cons_self)
        have hlen := hp.length_removeOrphanBlock o
        rw [if_pos (PoolRight.has_iff.2 ⟨o, ho, rfl⟩)] at hlen
        rw [breadthFirst_cons hp hq hout hchildren, map_cons, acceptAll]
        dsimp only
        rcases hacc : accept s o.block with ⟨s', _ | err⟩
        · refine ih (hp.removeOrphanBlock (hp.commits o ho)) ?_ (fun h' hmem => ?_) ?_ ?_
          · refine nodup_append.2 ⟨hq, by simp, fun h' hmem h'' hmem' he => ?_⟩
            exact has_eq_false.1 (hout h' hmem) o ho (he.trans (mem_singleton.1 hmem')).symm
          · rcases mem_append.1 hmem with hmem | hmem
            · exact has_of_removeOrphanBlock (hout h' hmem)
            · rw [mem_singleton.1 hmem]
              exact has_removeOrphanBlock pool o
          · simp only [length_append, length_cons, length_nil]
            omega
          · simp only [length_append, length_cons, length_nil]
            omega
        · rfl

theorem processOrphans_eq (accept : σ → NodeBlock → σ × Option ε) (s : σ) {h : Hash}
    (hp : PoolRight prevOf pool) (hout : pool.has h = false) :
    (pool.processOrphans accept s h).map (fun r => (r.1, r.2.2)) =
      some (acceptAll accept s (pool.below h)) :=
  processHashes_eq hp (nodup_singleton h) (by simpa using hout) (by simp) (by simp)

/-- No orphan is found twice. The loops with a function that only takes down what it is asked show
it. -/
theorem below_nodup {h : Hash} (hp : PoolRight prevOf pool) (hout : pool.has h = false) :
    ((pool.below h).map NodeBlock.hash).Nodup ∧
      ∀ b ∈ pool.below h, ∃ o ∈ pool.orphans, o.block = b := by
  let record (s : List NodeBlock) (b : NodeBlock) : List NodeBlock × Option Unit := (s ++ [b], none)
  have hall : ∀ bs s, acceptAll record s bs = (s ++ bs, none) := by
    intro bs
    induction bs with
    | nil => simp [acceptAll]
    | cons b bs ih =>
      intro s
      exact (ih (s ++ [b])).trans (by rw [append_assoc, singleton_append])
  have hI : LoopInv record prevOf fun s pool' _ => (s.map NodeBlock.hash).Nodup ∧
      (∀ b ∈ s, (∃ o ∈ pool.orphans, o.block = b) ∧ pool'.has b.hash = false) ∧
      ∀ o ∈ pool'.orphans, o ∈ pool.orphans := by
    refine ⟨fun _ h _ => h, ?_⟩
    rintro s _ pool' _ _ o _ ⟨hnodup, hs, hsub⟩ ho _ ⟨⟩
    simp only [map_append, map_cons, map_nil, forall_mem_append, forall_mem_singleton]
    refine ⟨nodup_append.2 ⟨hnodup, nodup_singleton _, ?_⟩,
      ⟨fun b hb => ⟨(hs b hb).1, has_of_removeOrphanBlock (hs b hb).2⟩, ⟨o, hsub o ho, rfl⟩,
        has_removeOrphanBlock pool' o⟩, fun o' ho' => hsub o' (mem_removeOrphanBlock.1 ho').1⟩
    rintro _ hmem _ hmem' rfl
    obtain ⟨b, hb, he⟩ := mem_map.1 hmem
    exact has_eq_false.1 (hs b hb).2 o ho (he.trans (mem_singleton.1 hmem')).symm
  obtain ⟨s, pool', err, hrun, -, -, -, hend⟩ :=
    processOrphans_spec hI (s := []) h hp ⟨nodup_nil, nofun, fun _ ho => ho⟩
  have heq := processOrphans_eq record [] hp hout
  rw [hrun, hall] at heq
  cases heq
  exact ⟨hend.1, fun b hb => (hend.2.1 b hb).1⟩

end Search

/-! ## The chain and its pool -/

/-- What holds of the chain and the pool at all times: the best chain and the pool are right, every
node has its data, and no orphan is in the index. -/
structure ChainRight (genesis : NodeBlock) (prevOf : Hash → Hash) (c : Chain) (pool : OrphanPool) :
    Prop where
  poolRight : PoolRight prevOf pool
  best : Best genesis c
  stored : ∀ n, c.index.Has n → (c.index.status n).dataStored = true
  apart : ∀ o ∈ pool.orphans, c.index.index o.block.hash = none

/-- No orphan has its parent in the index. -/
def Settled (b : BlockChain) : Prop :=
  ∀ o ∈ b.pool.orphans, b.chain.index.index o.block.prevBlock = none

/-- The blocks are acceptable one after another, each to the chain that has adopted those before it.
-/
def AllAcceptable (connects : NodePtr → Bool) (checks : Checks) : Chain → List NodeBlock → Prop
  | _, [] => True
  | c, b :: bs => ∃ prevNode, Acceptable connects checks c b prevNode ∧
      AllAcceptable connects checks (c.adopted (b :: prevNode)) bs

/-- The blocks are different, and new to the index. -/
def Fresh (c : Chain) (bs : List NodeBlock) : Prop :=
  (bs.map NodeBlock.hash).Nodup ∧ ∀ b ∈ bs, c.index.index b.hash = none

section Chains

variable {genesis : NodeBlock} {connects : NodePtr → Bool} {checks : Checks} {prevOf : Hash → Hash}
  {c c' : Chain} {block : NodeBlock} {node prevNode : NodePtr} {S : NodePtr → Prop}
  {bs : List NodeBlock}

theorem adopted_marks (c : Chain) (node : NodePtr) :
    Marks (fun _ => False) (c.added node).index (c.adopted node).index := by
  unfold Chain.adopted
  split_ifs
  · exact .validated _ _ _
  · exact (Marks.foldl .none [] _).congr fun n => by simp

/-- The index after a block has entered it has the block, and else what it had. -/
theorem Marks.index_eq_none (hm : Marks S (c.added (block :: prevNode)).index c'.index)
    (hash : Hash) : c'.index.index hash = none ↔ hash ≠ block.hash ∧ c.index.index hash = none := by
  rw [hm.index, Chain.added, index_addNode, NodePtr.hash]
  split_ifs with hh <;> simp [hh]

theorem Fresh.entered (h : Fresh c (block :: bs))
    (hm : Marks S (c.added (block :: prevNode)).index c'.index) : Fresh c' bs := by
  obtain ⟨hnot, hnodup⟩ := nodup_cons.1 h.1
  refine ⟨hnodup, fun b hb => (hm.index_eq_none _).2 ⟨fun he => ?_, h.2 b (mem_cons_of_mem _ hb)⟩⟩
  exact hnot (he ▸ mem_map_of_mem hb)

theorem Best.maybeAcceptBlock_ok_iff (h : Best genesis c)
    (hfresh : c.index.index block.hash = none) :
    (∃ c' forkLen, c.maybeAcceptBlock connects checks block = (c', .ok forkLen)) ↔
      ∃ prevNode, Acceptable connects checks c block prevNode := by
  rcases h.maybeAcceptBlock_cases connects checks hfresh with
    ⟨hno, err, he⟩ | ⟨prevNode, henters, -, ⟨hf, forkLen, he⟩ | ⟨hf, c', err, he, -⟩⟩
  · exact iff_of_false (by simp [he]) fun ⟨prevNode, hf⟩ => hno prevNode hf.enters
  · exact iff_of_true ⟨_, _, he⟩ ⟨_, hf⟩
  · refine iff_of_false (by simp [he]) fun ⟨prevNode', hf'⟩ => hf ?_
    cases henters.1.symm.trans hf'.enters.1
    exact hf'

/-- **Blocks that are tried one after another.** -/
theorem Best.acceptAll (h : Best genesis c) (hfresh : Fresh c bs) :
    Best genesis (acceptAll (Chain.acceptOrphan connects checks) c bs).1 ∧
      ((acceptAll (Chain.acceptOrphan connects checks) c bs).2 = none ↔
        AllAcceptable connects checks c bs) := by
  induction bs generalizing c with
  | nil => exact ⟨h, iff_of_true rfl trivial⟩
  | cons b bs ih =>
    rw [Fnod.acceptAll, Chain.acceptOrphan]
    rcases h.maybeAcceptBlock_cases connects checks (hfresh.2 b mem_cons_self) with
      ⟨hno, err, he⟩ | ⟨prevNode, henters, ha, ⟨hf, forkLen, he⟩ | ⟨hf, c', err, he, hr⟩⟩
    all_goals rw [he]; dsimp only
    · exact ⟨h, iff_of_false nofun fun ⟨prevNode, hf, _⟩ => hno prevNode hf.enters⟩
    · obtain ⟨hbest, hiff⟩ := ih (h.adopted ha hf) (hfresh.entered (adopted_marks c _))
      refine ⟨hbest, hiff.trans ⟨fun hall => ⟨_, hf, hall⟩, ?_⟩⟩
      rintro ⟨prevNode', hf', hall⟩
      cases henters.1.symm.trans hf'.enters.1
      exact hall
    · refine ⟨h.refused ha hr, iff_of_false nofun ?_⟩
      rintro ⟨prevNode', hf', -⟩
      cases henters.1.symm.trans hf'.enters.1
      exact hf hf'

theorem ChainRight.index_eq_none (hr : ChainRight genesis prevOf c pool) {h : Hash}
    (hnot : c.index.haveBlock h = false) : c.index.index h = none := by
  unfold haveBlock at hnot
  cases hn : c.index.index h with
  | none => rfl
  | some node =>
    obtain ⟨hne, rfl⟩ := hr.best.right.hashed h node hn
    simp [hn, hr.stored node ⟨hne, hn⟩] at hnot

/-- A block that is neither in the index nor in the pool enters the index. -/
theorem ChainRight.entered (hr : ChainRight genesis prevOf c pool)
    (ha : Addable c.index (block :: prevNode)) (hpool : pool.has block.hash = false)
    (hbest : Best genesis c') (hm : Marks S (c.added (block :: prevNode)).index c'.index) :
    ChainRight genesis prevOf c' pool := by
  refine ⟨hr.poolRight, hbest, fun n hn => hm.stored n ?_, fun o ho => ?_⟩
  · rw [Chain.added, status_addNode]
    split_ifs with he
    · rfl
    · exact hr.stored n (((has_addNode ha).1 ((hm.has_iff n).1 hn)).resolve_left he)
  · exact (hm.index_eq_none _).2 ⟨has_eq_false.1 hpool o ho, hr.apart o ho⟩

/-- **`maybeAcceptBlock`** on a block that is neither in the index nor in the pool. -/
theorem ChainRight.maybeAcceptBlock (hr : ChainRight genesis prevOf c pool)
    (connects : NodePtr → Bool) (checks : Checks) (hindex : c.index.index block.hash = none)
    (hpool : pool.has block.hash = false) :
    ChainRight genesis prevOf (c.maybeAcceptBlock connects checks block).1 pool := by
  rcases hr.best.maybeAcceptBlock_cases connects checks hindex with
    ⟨-, err, he⟩ | ⟨prevNode, -, ha, ⟨hf, forkLen, he⟩ | ⟨-, c', err, he, hr'⟩⟩
  all_goals rw [he]
  · exact hr
  · exact hr.entered ha hpool (hr.best.adopted ha hf) (adopted_marks c _)
  · obtain ⟨bad, -, hm⟩ := hr'.marks
    exact hr.entered ha hpool (hr.best.refused ha hr') hm

theorem index_of_accepted {forkLen : Int} (h : Best genesis c)
    (hfresh : c.index.index block.hash = none)
    (hacc : c.maybeAcceptBlock connects checks block = (c', .ok forkLen)) (hash : Hash) :
    c'.index.index hash ≠ none ↔ hash = block.hash ∨ c.index.index hash ≠ none := by
  rcases h.maybeAcceptBlock_cases connects checks hfresh with
    ⟨-, err, he⟩ | ⟨prevNode, -, -, ⟨-, forkLen, he⟩ | ⟨-, c', err, he, -⟩⟩
  all_goals cases hacc.symm.trans he
  rw [Ne, (adopted_marks c _).index_eq_none, not_and_or, not_not]

theorem acceptOrphan_eq_none (h : c.acceptOrphan connects checks block = (c', none)) :
    ∃ forkLen, c.maybeAcceptBlock connects checks block = (c', .ok forkLen) := by
  unfold Chain.acceptOrphan at h
  rcases hacc : c.maybeAcceptBlock connects checks block with ⟨c'', err | forkLen⟩
  · rw [hacc] at h
    cases h
  · rw [hacc] at h
    cases h
    exact ⟨forkLen, rfl⟩

theorem acceptOrphan_fst :
    (c.acceptOrphan connects checks block).1 = (c.maybeAcceptBlock connects checks block).1 := by
  unfold Chain.acceptOrphan
  rcases c.maybeAcceptBlock connects checks block with ⟨c', err | forkLen⟩ <;> rfl

/-- An orphan that leaves the pool is tried. -/
theorem ChainRight.acceptOrphan (hr : ChainRight genesis prevOf c pool) {o : OrphanBlock}
    (ho : o ∈ pool.orphans) {err : Option ProcessError}
    (hacc : c.acceptOrphan connects checks o.block = (c', err)) :
    ChainRight genesis prevOf c' (pool.removeOrphanBlock o) := by
  obtain rfl : (c.maybeAcceptBlock connects checks o.block).1 = c' := by
    rw [← acceptOrphan_fst, hacc]
  refine ChainRight.maybeAcceptBlock ?_ connects checks (hr.apart o ho)
    (has_removeOrphanBlock pool o)
  exact ⟨hr.poolRight.removeOrphanBlock (hr.poolRight.commits o ho), hr.best, hr.stored,
    fun o' ho' => hr.apart o' (mem_removeOrphanBlock.1 ho').1⟩

/-- The invariant of the loops: if the pool was settled before the block came, an orphan whose
parent is in the index has it in the queue. -/
def Queued (genesis : NodeBlock) (prevOf : Hash → Hash) (settled : Prop) (c : Chain)
    (pool : OrphanPool) (queue : List Hash) : Prop :=
  ChainRight genesis prevOf c pool ∧ (settled →
    ∀ o ∈ pool.orphans, c.index.index o.block.prevBlock ≠ none → o.block.prevBlock ∈ queue)

theorem queued_loopInv (connects : NodePtr → Bool) (checks : Checks) (settled : Prop) :
    LoopInv (Chain.acceptOrphan connects checks) prevOf (Queued genesis prevOf settled) where
  pop _ h hnone := by
    refine ⟨h.1, fun hs o ho hparent => ?_⟩
    exact (mem_cons.1 (h.2 hs o ho hparent)).resolve_left (hnone o ho)
  adopt {c c' pool h queue o} hp hq ho _ hacc := by
    refine ⟨hq.1.acceptOrphan ho hacc, fun hs o' ho' hparent => ?_⟩
    obtain ⟨forkLen, hok⟩ := acceptOrphan_eq_none hacc
    rw [mem_append, mem_singleton]
    rcases (index_of_accepted hq.1.best (hq.1.apart o ho) hok _).1 hparent with he | hold
    · exact .inr he
    · exact .inl (hq.2 hs o' (mem_removeOrphanBlock.1 ho').1 hold)

/-! ## Calls of `ProcessBlock` -/

/-- The calls of the network: hashes commit to the parents of blocks, and the pool is passed over in
some order. -/
def ProcessCall.Legal (prevOf : Hash → Hash) (b : BlockChain) (call : ProcessCall) : Prop :=
  call.block.Commits prevOf ∧ (call.visits.map Prod.fst).Perm b.pool.orphans

/-- The block is new and sane. -/
def ProcessCall.Passes (b : BlockChain) (call : ProcessCall) : Prop :=
  b.chain.index.haveBlock call.block.hash = false ∧ b.pool.has call.block.hash = false ∧
    call.checks.sane b.chain call.block = true

/-- The submitted block itself is accepted, into the pool or into the chain. -/
def ProcessCall.Accepted (connects : NodePtr → Bool) (b : BlockChain) (call : ProcessCall) : Prop :=
  call.Passes b ∧ (b.chain.index.haveBlock call.block.prevBlock = false ∨
    ∃ chain forkLen,
      b.chain.maybeAcceptBlock connects call.checks call.block = (chain, .ok forkLen))

/-- No orphan is in the way: if the block is acceptable, so are the orphans below it one after
another, and if it enters the index without being acceptable, there are none. -/
structure ProcessCall.Adopts (connects : NodePtr → Bool) (b : BlockChain) (call : ProcessCall) :
    Prop where
  accepted : ∀ prevNode, call.Passes b →
    Acceptable connects call.checks b.chain call.block prevNode →
    AllAcceptable connects call.checks b.chain (call.block :: b.pool.below call.block.hash)
  entered : ∀ prevNode, call.Passes b → Enters call.checks b.chain call.block prevNode →
    ¬ Acceptable connects call.checks b.chain call.block prevNode →
    ∀ o ∈ b.pool.orphans, o.block.prevBlock ≠ call.block.hash

/-- What the call does with a block whose parent is known: it tries the block, and the orphans below
it. -/
def ProcessCall.tried (connects : NodePtr → Bool) (b : BlockChain) (call : ProcessCall) :
    Chain × Option ProcessError :=
  acceptAll (Chain.acceptOrphan connects call.checks) b.chain
    (call.block :: b.pool.below call.block.hash)

variable {b : BlockChain} {call : ProcessCall} {pool' : OrphanPool} {chain : Chain}

/-- What a call promises: the pool stays settled, and an error is about the submitted block. -/
def CallRight (connects : NodePtr → Bool) (b : BlockChain) (call : ProcessCall) (b' : BlockChain)
    (r : Except ProcessError (Int × Bool)) : Prop :=
  Settled b' ∧ ((∃ err, r = .error err) → ¬ call.Accepted connects b)

theorem callRight_of_not_passes (hpass : ¬ call.Passes b) {r : Except ProcessError (Int × Bool)}
    (hs : Settled b) : CallRight connects b call b r ↔ call.Adopts connects b :=
  iff_of_true ⟨hs, fun _ h => hpass h.1⟩ ⟨fun _ h => absurd h hpass, fun _ h => absurd h hpass⟩

theorem mem_addOrphanBlock {block : NodeBlock} {visits : List (OrphanBlock × Int)} {now : Int}
    (h : pool.addOrphanBlock block visits now = some pool') {o : OrphanBlock}
    (ho : o ∈ pool'.orphans) : o ∈ pool.orphans ∨ o.block = block := by
  have hinsert : ∀ p : OrphanPool, o ∈ (p.insert ⟨block, now + hour⟩).orphans →
      o ∈ p.orphans ∨ o.block = block := fun p hmem => by
    rcases mem_append.1 hmem with hmem | hmem
    · exact .inl (mem_filter.1 hmem).1
    · exact .inr (by rw [mem_singleton.1 hmem])
  unfold addOrphanBlock at h
  dsimp only at h
  split_ifs at h
  · split at h
    · cases h
    · cases h
      refine (hinsert _ ho).imp_left fun hmem => ?_
      exact (mem_visits.1 (mem_removeOrphanBlock.1 hmem).1).1
  · cases h
    exact (hinsert _ ho).imp_left fun hmem => (mem_visits.1 hmem).1

section

variable (hr : ChainRight genesis prevOf b.chain b.pool) (hpass : call.Passes b)

include hr hpass

/-- A block whose parent is unknown joins the pool. -/
theorem callRight_orphan (hparent : b.chain.index.haveBlock call.block.prevBlock = false)
    (hright : PoolRight prevOf pool')
    (hadd : b.pool.addOrphanBlock call.block call.visits call.now = some pool') :
    ChainRight genesis prevOf b.chain pool' ∧ (Settled b →
      (CallRight connects b call { b with pool := pool' } (.ok (0, true)) ↔
        call.Adopts connects b)) := by
  have hno : ∀ prevNode, ¬ Enters call.checks b.chain call.block prevNode := fun _ h => by
    rw [Enters, hr.index_eq_none hparent] at h
    cases h.1
  refine ⟨⟨hright, hr.best, hr.stored, fun o ho => ?_⟩, fun hs =>
    iff_of_true ⟨fun o ho => ?_, by rintro ⟨_, ⟨⟩⟩⟩
    ⟨fun _ _ h => absurd h.enters (hno _), fun _ _ h => absurd h (hno _)⟩⟩
  · rcases mem_addOrphanBlock hadd ho with hold | he
    · exact hr.apart o hold
    · exact he ▸ hr.index_eq_none hpass.1
  · rcases mem_addOrphanBlock hadd ho with hold | he
    · exact hs o hold
    · exact he ▸ hr.index_eq_none hparent

theorem callRight_rejected {err : ProcessError}
    (hparent : b.chain.index.haveBlock call.block.prevBlock = true)
    (hacc : b.chain.maybeAcceptBlock connects call.checks call.block = (chain, .error err))
    (hs : Settled b) :
    CallRight connects b call { b with chain := chain } (.error err) ↔ call.Adopts connects b := by
  have hfresh := hr.index_eq_none hpass.1
  have hno : ∀ prevNode, ¬ Acceptable connects call.checks b.chain call.block prevNode :=
    fun prevNode hf => by
      obtain ⟨_, _, hok⟩ := (hr.best.maybeAcceptBlock_ok_iff hfresh).2 ⟨prevNode, hf⟩
      cases hacc.symm.trans hok
  have hnot : ¬ call.Accepted connects b := by
    rintro ⟨-, h | ⟨_, _, h⟩⟩
    · rw [hparent] at h
      cases h
    · cases hacc.symm.trans h
  have hadopts : call.Adopts connects b ↔
      ∀ prevNode, Enters call.checks b.chain call.block prevNode →
      ∀ o ∈ b.pool.orphans, o.block.prevBlock ≠ call.block.hash :=
    ⟨fun h prevNode he => h.entered prevNode hpass he (hno prevNode), fun h =>
      ⟨fun _ _ hf => absurd hf (hno _), fun prevNode _ he _ => h prevNode he⟩⟩
  rw [CallRight, hadopts, and_iff_left fun _ => hnot]
  rcases hr.best.maybeAcceptBlock_cases connects call.checks hfresh with
    ⟨hout, err', he⟩ | ⟨prevNode, henters, -, ⟨hf, _, -⟩ | ⟨-, c', err', he, hr'⟩⟩
  · cases hacc.symm.trans he
    exact iff_of_true hs fun prevNode h => absurd h (hout prevNode)
  · exact absurd hf (hno prevNode)
  · cases hacc.symm.trans he
    obtain ⟨bad, -, hm⟩ := hr'.marks
    constructor
    · exact fun h _ _ o ho => ((hm.index_eq_none _).1 (h o ho)).1
    · exact fun h o ho => (hm.index_eq_none _).2 ⟨h prevNode henters o ho, hs o ho⟩

theorem ChainRight.fresh : Fresh b.chain (call.block :: b.pool.below call.block.hash) := by
  obtain ⟨hnodup, hbelow⟩ := below_nodup hr.poolRight hpass.2.1
  refine ⟨nodup_cons.2 ⟨fun hmem => ?_, hnodup⟩, forall_mem_cons.2 ⟨hr.index_eq_none hpass.1, ?_⟩⟩
  · obtain ⟨b', hb', he⟩ := mem_map.1 hmem
    obtain ⟨o, ho, rfl⟩ := hbelow b' hb'
    exact has_eq_false.1 hpass.2.1 o ho he
  · intro b' hb'
    obtain ⟨o, ho, rfl⟩ := hbelow b' hb'
    exact hr.apart o ho

/-- A block that is accepted, with the orphans below it. -/
theorem callRight_accepted {forkLen : Int} (hright : ChainRight genesis prevOf chain b.pool)
    (hacc : b.chain.maybeAcceptBlock connects call.checks call.block = (chain, .ok forkLen)) :
    ∃ pool' err, b.pool.processOrphans (Chain.acceptOrphan connects call.checks) chain
      call.block.hash = some ((call.tried connects b).1, pool', err) ∧
      ChainRight genesis prevOf (call.tried connects b).1 pool' ∧
      (Settled b → (CallRight connects b call ⟨(call.tried connects b).1, pool'⟩ (match err with
        | some err => .error err
        | none => .ok (forkLen, false)) ↔ call.Adopts connects b)) := by
  have hfresh := hr.index_eq_none hpass.1
  have hstart : Queued genesis prevOf (Settled b) chain b.pool [call.block.hash] := by
    refine ⟨hright, fun hs o ho hparent => ?_⟩
    rcases (index_of_accepted hr.best hfresh hacc _).1 hparent with he | hold
    · exact mem_singleton.2 he
    · exact absurd (hs o ho) hold
  obtain ⟨chain', pool', err, hrun, -, -, -, hend⟩ := processOrphans_spec
    (queued_loopInv connects call.checks (Settled b)) call.block.hash hr.poolRight hstart
  have htried : call.tried connects b = (chain', err) := by
    have heq := processOrphans_eq (Chain.acceptOrphan connects call.checks) chain hr.poolRight
      hpass.2.1
    rw [hrun, Option.map_some, Option.some.injEq] at heq
    rw [heq, ProcessCall.tried, acceptAll, Chain.acceptOrphan, hacc]
  have hall : (call.tried connects b).2 = none ↔ _ := (hr.best.acceptAll (hr.fresh hpass)).2
  rw [htried] at hall ⊢
  have hadopts : call.Adopts connects b ↔ err = none := by
    obtain ⟨prevNode, hf⟩ := (hr.best.maybeAcceptBlock_ok_iff hfresh).1 ⟨_, _, hacc⟩
    refine ⟨fun h => hall.2 (h.accepted prevNode hpass hf), fun he => ⟨fun _ _ _ => hall.1 he,
      fun prevNode' _ henters hno => ?_⟩⟩
    cases hf.enters.1.symm.trans henters.1
    exact absurd hf hno
  refine ⟨pool', err, hrun, ?_, fun hs => ?_⟩
  · cases err with
    | none => exact hend.1
    | some err =>
      obtain ⟨chain₀, pool₀, _, _, o, -, hq, ho, -, he, rfl⟩ := hend
      exact hq.1.acceptOrphan ho he
  · rw [hadopts]
    cases err with
    | none =>
      refine iff_of_true ⟨fun o ho => ?_, by rintro ⟨_, ⟨⟩⟩⟩ rfl
      by_contra hparent
      exact not_mem_nil (hend.2 hs o ho hparent)
    | some err =>
      refine iff_of_false (fun h => h.2 ⟨err, rfl⟩ ⟨hpass, .inr ⟨chain, forkLen, hacc⟩⟩) nofun

end

/-- **One call** of `ProcessBlock`: it returns, and keeps its promises exactly if no orphan is in
the way. -/
theorem processBlock_spec (hr : ChainRight genesis prevOf b.chain b.pool)
    (hlegal : call.Legal prevOf b) :
    ∃ b' r, b.processBlock connects call = some (b', r) ∧
      ChainRight genesis prevOf b'.chain b'.pool ∧
      (b'.chain = b.chain ∨ call.Passes b ∧ b'.chain = (call.tried connects b).1) ∧
      (Settled b → (CallRight connects b call b' r ↔ call.Adopts connects b)) := by
  unfold BlockChain.processBlock
  by_cases hhave : b.chain.index.haveBlock call.block.hash = true
  · rw [if_pos hhave]
    exact ⟨b, _, rfl, hr, .inl rfl, callRight_of_not_passes fun h => by simp [h.1] at hhave⟩
  · by_cases hpool : b.pool.has call.block.hash = true
    · rw [if_neg hhave, if_pos hpool]
      exact ⟨b, _, rfl, hr, .inl rfl, callRight_of_not_passes fun h => by simp [h.2.1] at hpool⟩
    · by_cases hsane : call.checks.sane b.chain call.block = true
      · have hpass : call.Passes b := ⟨by simpa using hhave, by simpa using hpool, hsane⟩
        rw [if_neg hhave, if_neg hpool, if_neg (by simp [hsane])]
        by_cases hparent : b.chain.index.haveBlock call.block.prevBlock = true
        · have hright := hr.maybeAcceptBlock connects call.checks (hr.index_eq_none hpass.1)
            hpass.2.1
          rw [if_neg (by simp [hparent])]
          rcases hacc : b.chain.maybeAcceptBlock connects call.checks call.block with
            ⟨chain, err | forkLen⟩
          · rw [hacc] at hright
            refine ⟨_, _, rfl, hright, .inr ⟨hpass, ?_⟩, callRight_rejected hr hpass hparent hacc⟩
            rw [ProcessCall.tried, acceptAll, Chain.acceptOrphan, hacc]
          · rw [hacc] at hright
            obtain ⟨pool', err, hrun, hright', hiff⟩ := callRight_accepted hr hpass hright hacc
            dsimp only
            rw [hrun]
            exact ⟨_, _, rfl, hright', .inr ⟨hpass, rfl⟩, hiff⟩
        · rw [if_pos (by simp [hparent])]
          obtain ⟨pool', hadd, hpool', -⟩ :=
            addOrphanBlock_spec hr.poolRight hlegal.1 hpass.2.1 hlegal.2 call.now
          obtain ⟨hright, hiff⟩ := callRight_orphan hr hpass (by simpa using hparent) hpool' hadd
          rw [hadd]
          exact ⟨_, _, rfl, hright, .inl rfl, hiff⟩
      · rw [if_neg hhave, if_neg hpool, if_pos (by simp [hsane])]
        exact ⟨b, _, rfl, hr, .inl rfl, callRight_of_not_passes fun h => by simp [h.2.2] at hsane⟩

/-! ## Runs -/

/-- The chain of a new node: the genesis block. -/
def newBlockChain (genesis : NodeBlock) : BlockChain where
  chain :=
    { index := newBlockIndex.addNode [genesis] (BlockStatus.or .ofDataStored .ofValid)
      tip := [genesis] }
  pool := newOrphanPool

/-- A step of a run: the state that the call met, and its result. -/
structure ProcessStep where
  before : BlockChain
  call : ProcessCall
  after : BlockChain
  result : Except ProcessError (Int × Bool)

/-- Any run of legal calls, with its steps and the last state. -/
inductive ProcessRun (connects : NodePtr → Bool) (prevOf : Hash → Hash) (genesis : NodeBlock) :
    List ProcessStep → BlockChain → Prop
  | new : ProcessRun connects prevOf genesis [] (newBlockChain genesis)
  | call {steps : List ProcessStep} {b b' : BlockChain} {c : ProcessCall}
      {r : Except ProcessError (Int × Bool)} :
      ProcessRun connects prevOf genesis steps b → c.Legal prevOf b →
      b.processBlock connects c = some (b', r) →
      ProcessRun connects prevOf genesis (steps ++ [⟨b, c, b', r⟩]) b'

variable {steps : List ProcessStep}

theorem newBlockChain_best : Best genesis (newBlockChain genesis).chain := by
  have hadd := addable_genesis genesis
  have hstatus : ∀ n, n <:+ [genesis] → n ≠ [] →
      (newBlockChain genesis).chain.index.status n = .or .ofDataStored .ofValid :=
      fun n hs hne => by
    obtain rfl := (suffix_cons_iff.1 hs).resolve_right fun h => hne (suffix_nil.1 h)
    rw [newBlockChain, status_addNode, if_pos rfl]
  refine ⟨(Additions.add .new hadd).tipsRight, fun n hn => ?_, (has_addNode hadd).2 (.inl rfl), ?_,
    fun n hs hne => by rw [hstatus n hs hne]; rfl⟩
  · rcases (has_addNode hadd).1 hn with rfl | hn
    · exact suffix_refl _
    · cases hn.2
  · rintro ⟨anc, hs, hne, hinvalid⟩
    rw [hstatus anc hs hne] at hinvalid
    cases hinvalid

theorem newBlockChain_right :
    ChainRight genesis prevOf (newBlockChain genesis).chain (newBlockChain genesis).pool := by
  refine ⟨.new, newBlockChain_best, fun n hn => ?_, by simp [newBlockChain, newOrphanPool]⟩
  rcases (has_addNode (addable_genesis genesis)).1 hn with rfl | hn
  · rw [newBlockChain, status_addNode, if_pos rfl]
    rfl
  · cases hn.2

/-- **The chain is right** after any run. -/
theorem ProcessRun.chainRight (h : ProcessRun connects prevOf genesis steps b) :
    ChainRight genesis prevOf b.chain b.pool := by
  induction h with
  | new => exact newBlockChain_right
  | call _ hlegal hcall ih =>
    obtain ⟨b', r, hrun, hkept, -⟩ := processBlock_spec ih hlegal
    cases hcall.symm.trans hrun
    exact hkept

/-- The last state of a run is settled if all its calls kept their promises. -/
theorem ProcessRun.settled (h : ProcessRun connects prevOf genesis steps b)
    (hsteps : ∀ s ∈ steps, CallRight connects s.before s.call s.after s.result) : Settled b := by
  cases h with
  | new => simp [Settled, newBlockChain, newOrphanPool]
  | call => exact (hsteps _ (mem_append_right _ mem_cons_self)).1

end Chains

/-! A block `parent` arrives after its two children. The first child is rejected. -/

namespace RejectedOrphan

def genesis : NodeBlock := ⟨Hash.ofNat 1, default, 1⟩

def parent : NodeBlock := ⟨Hash.ofNat 2, genesis.hash, 1⟩

def bad : NodeBlock := ⟨Hash.ofNat 3, parent.hash, 1⟩

def good : NodeBlock := ⟨Hash.ofNat 4, parent.hash, 1⟩

def prevOf (h : Hash) : Hash := if h = parent.hash then genesis.hash else parent.hash

theorem commits : parent.Commits prevOf ∧ bad.Commits prevOf ∧ good.Commits prevOf := by
  unfold NodeBlock.Commits
  decide +kernel

def connects : NodePtr → Bool := fun _ => true

/-- Only `bad` breaks a rule that depends on its ancestors. -/
def checks : Checks where
  fastAdd := false
  sane _ _ := true
  context _ node := node.hash != bad.hash
  stake _ _ := true

/-- A block arrives at time 0, with some orphans in the pool. -/
def arrives (block : NodeBlock) (orphans : List NodeBlock) : ProcessCall :=
  ⟨block, checks, orphans.map fun o => (⟨o, 0 + hour⟩, 0), 0⟩

/-- The state after `good` alone has arrived. -/
def oneOrphan : BlockChain :=
  { newBlockChain genesis with pool := newOrphanPool.insert ⟨good, 0 + hour⟩ }

theorem parent_adopts : (arrives parent [good]).Adopts connects oneOrphan := by
  have hindex : oneOrphan.chain.index.index parent.prevBlock = some [genesis] := by decide +kernel
  have hbelow : oneOrphan.pool.below parent.hash = [good] := by decide +kernel
  refine ⟨fun prevNode _ hf => ?_, fun prevNode _ henters hf => ?_⟩
  · cases hindex.symm.trans hf.enters.1
    have henters : Enters checks (oneOrphan.chain.adopted [parent, genesis])
      good [parent, genesis] :=
      ⟨by decide +kernel, by decide +kernel, rfl⟩
    rw [show (arrives parent [good]).block.hash = parent.hash from rfl, hbelow]
    refine ⟨_, hf, _, ⟨henters, fun _ => rfl, fun _ => .inr rfl, fun h => ?_⟩, trivial⟩
    exact absurd (by decide +kernel) h
  · cases hindex.symm.trans henters.1
    refine absurd ⟨henters, fun _ => rfl, fun _ => .inr rfl, fun h => ?_⟩ hf
    exact absurd (by decide +kernel) h

theorem good_adopts : (arrives good []).Adopts connects (newBlockChain genesis) where
  accepted _ _ hf := by
    have hindex : (newBlockChain genesis).chain.index.index good.prevBlock = none := by
      decide +kernel
    cases hindex.symm.trans hf.enters.1
  entered _ _ _ _ := by simp [newBlockChain, newOrphanPool]

end RejectedOrphan

end Fnod
