import Fnod.Blockchain.BlockIndex

/-!
# `chain.go`, `process.go`: the pool of orphan blocks

A block whose parent is unknown waits in a pool, in a second table under the hash of its parent, for
an hour at most. The pool also remembers its oldest orphan, which is to go when the pool is full.

The order in which Go iterates over a map and the readings of the clock are arguments of the model:
`addOrphanBlock` takes the visits of its loop, each with the time read there. What `processOrphans`
does with a block is a parameter too (`maybeAcceptBlock`, or any other verdict).

**Theorem (`orphanPool_run`).** The two tables agree in every reachable state, and nothing panics or
loops. The bound does not always hold: the remembered orphan is not forgotten when it expires or is
adopted, and its removal then makes no room. The pool keeps to its bound exactly in the runs where
each addition to a full pool finds the remembered orphan in the pool, or one that is older.
-/

namespace Fnod

open List

def maxOrphanBlocks : Nat := 500

/-- `time.Hour`, in nanoseconds. -/
def hour : Int := 3600 * 10 ^ 9

structure OrphanBlock where
  block : NodeBlock
  expiration : Int
deriving DecidableEq

/-- The orphan fields of `BlockChain`. The map from hashes to orphans is the list of its entries, in
any order; the pointer `oldestOrphan` may be nil. -/
structure OrphanPool where
  orphans : List OrphanBlock
  prevOrphans : Hash → Option (List OrphanBlock)
  oldestOrphan : Option OrphanBlock

def newOrphanPool : OrphanPool := ⟨[], fun _ => none, none⟩

namespace OrphanPool

variable (pool : OrphanPool) (orphan : OrphanBlock)

/-- The pool has a block of this hash. -/
def has (h : Hash) : Bool := pool.orphans.any (·.block.hash == h)

def removeOrphanBlock : OrphanPool :=
  let orphans := ((pool.prevOrphans orphan.block.prevBlock).getD []).filter
    (·.block.hash != orphan.block.hash)
  { pool with
    orphans := pool.orphans.filter (·.block.hash != orphan.block.hash)
    prevOrphans := fun h =>
      if h = orphan.block.prevBlock then (if orphans = [] then none else some orphans)
      else pool.prevOrphans h }

/-- The remembered orphan after another one was seen. -/
def older (oldest : Option OrphanBlock) (orphan : OrphanBlock) : Option OrphanBlock :=
  match oldest with
  | none => some orphan
  | some o => if orphan.expiration < o.expiration then some orphan else some o

/-- One turn of the first loop of `addOrphanBlock`: an orphan of the pool, and the time. -/
def visitOrphan (visit : OrphanBlock × Int) : OrphanPool :=
  if visit.2 > visit.1.expiration then pool.removeOrphanBlock visit.1
  else { pool with oldestOrphan := older pool.oldestOrphan visit.1 }

/-- The second half of `addOrphanBlock`. -/
def insert : OrphanPool :=
  { pool with
    orphans := pool.orphans.filter (·.block.hash != orphan.block.hash) ++ [orphan]
    prevOrphans := fun h =>
      if h = orphan.block.prevBlock then some ((pool.prevOrphans h).getD [] ++ [orphan])
      else pool.prevOrphans h }

/-- `addOrphanBlock`. It panics if there is no orphan to remove from a full pool. -/
def addOrphanBlock (block : NodeBlock) (visits : List (OrphanBlock × Int))
    (now : Int) : Option OrphanPool :=
  let pool := visits.foldl visitOrphan pool
  if pool.orphans.length + 1 > maxOrphanBlocks then
    match pool.oldestOrphan with
    | none => none
    | some oldest =>
      some (insert { pool.removeOrphanBlock oldest with oldestOrphan := none } ⟨block, now + hour⟩)
  else
    some (pool.insert ⟨block, now + hour⟩)

section Process

variable {σ ε : Type}

/-- The loops of `processOrphans`. The index of the inner loop stays at zero, since the orphan found
there is removed. The hash that is worked on is the head of the queue. -/
def processHashes (accept : σ → NodeBlock → σ × Option ε) :
    Nat → σ → OrphanPool → List Hash → Option (σ × OrphanPool × Option ε)
  | 0, _, _, _ => none
  | _ + 1, s, pool, [] => some (s, pool, none)
  | fuel + 1, s, pool, processHash :: queue =>
    match (pool.prevOrphans processHash).getD [] with
    | [] => processHashes accept fuel s pool queue
    | orphan :: _ =>
      let pool := pool.removeOrphanBlock orphan
      match accept s orphan.block with
      | (s, some err) => some (s, pool, some err)
      | (s, none) =>
        processHashes accept fuel s pool (processHash :: queue ++ [orphan.block.hash])

def processOrphans (accept : σ → NodeBlock → σ × Option ε) (s : σ) (pool : OrphanPool)
    (hash : Hash) : Option (σ × OrphanPool × Option ε) :=
  processHashes accept (2 * pool.orphans.length + 2) s pool [hash]

end Process

end OrphanPool

/-! ## The two tables -/

/-- The hash of a header commits to the hash of the block before. -/
def NodeBlock.Commits (prevOf : Hash → Hash) (b : NodeBlock) : Prop := b.prevBlock = prevOf b.hash

/-- The table by parents holds exactly the orphans of the pool, each once, and no empty slices. -/
structure PoolRight (prevOf : Hash → Hash) (pool : OrphanPool) : Prop where
  distinct : (pool.orphans.map (·.block.hash)).Nodup
  commits : ∀ o ∈ pool.orphans, o.block.Commits prevOf
  oldest : ∀ o, pool.oldestOrphan = some o → o.block.Commits prevOf
  nonempty : ∀ h os, pool.prevOrphans h = some os → os ≠ []
  nodup : ∀ h, ((pool.prevOrphans h).getD []).Nodup
  mem : ∀ h o, o ∈ (pool.prevOrphans h).getD [] ↔ o ∈ pool.orphans ∧ o.block.prevBlock = h

section Tables

variable {prevOf : Hash → Hash} {pool : OrphanPool} {orphan o : OrphanBlock}

theorem PoolRight.new : PoolRight prevOf newOrphanPool := by
  constructor <;> simp [newOrphanPool]

theorem PoolRight.eq_of_hash (hp : PoolRight prevOf pool) (ho : o ∈ pool.orphans)
    (ho' : orphan ∈ pool.orphans) (he : o.block.hash = orphan.block.hash) : o = orphan :=
  inj_on_of_nodup_map hp.distinct ho ho' he

theorem PoolRight.has_iff {h : Hash} :
    pool.has h = true ↔ ∃ o ∈ pool.orphans, o.block.hash = h := by
  simp [OrphanPool.has]

theorem has_eq_false {h : Hash} : pool.has h = false ↔ ∀ o ∈ pool.orphans, o.block.hash ≠ h := by
  simp [OrphanPool.has]

theorem mem_removeOrphanBlock : o ∈ (pool.removeOrphanBlock orphan).orphans ↔
    o ∈ pool.orphans ∧ o.block.hash ≠ orphan.block.hash := by
  simp [OrphanPool.removeOrphanBlock]

theorem prevOrphans_removeOrphanBlock (h : Hash) :
    ((pool.removeOrphanBlock orphan).prevOrphans h).getD [] =
      if h = orphan.block.prevBlock then
        ((pool.prevOrphans h).getD []).filter (·.block.hash != orphan.block.hash)
      else (pool.prevOrphans h).getD [] := by
  unfold OrphanPool.removeOrphanBlock
  by_cases hh : h = orphan.block.prevBlock
  · subst hh
    simp only [if_true]
    split_ifs with hnil
    · exact hnil.symm
    · rfl
  · simp [hh]

theorem has_removeOrphanBlock (pool : OrphanPool) (orphan : OrphanBlock) :
    (pool.removeOrphanBlock orphan).has orphan.block.hash = false :=
  has_eq_false.2 fun _ ho => (mem_removeOrphanBlock.1 ho).2

theorem has_of_removeOrphanBlock {h : Hash} (hnew : pool.has h = false) :
    (pool.removeOrphanBlock orphan).has h = false :=
  has_eq_false.2 fun o ho => has_eq_false.1 hnew o (mem_removeOrphanBlock.1 ho).1

/-- **A removal** keeps the tables right, whatever is removed: if the orphan is gone already, this
does nothing. -/
theorem PoolRight.removeOrphanBlock (hp : PoolRight prevOf pool)
    (hc : orphan.block.Commits prevOf) : PoolRight prevOf (pool.removeOrphanBlock orphan) where
  distinct := hp.distinct.sublist (filter_sublist.map _)
  commits o ho := hp.commits o (mem_removeOrphanBlock.1 ho).1
  oldest := hp.oldest
  nonempty h os hos := by
    simp only [OrphanPool.removeOrphanBlock] at hos
    split_ifs at hos with h1 h2
    · cases hos
      exact h2
    · exact hp.nonempty h os hos
  nodup h := by
    rw [prevOrphans_removeOrphanBlock]
    split_ifs
    · exact (hp.nodup h).filter _
    · exact hp.nodup h
  mem h o := by
    rw [prevOrphans_removeOrphanBlock, mem_removeOrphanBlock]
    split_ifs with hh
    · rw [mem_filter, hp.mem, bne_iff_ne]
      tauto
    · -- an orphan of the same hash would have the same parent
      rw [hp.mem]
      refine ⟨fun ho => ⟨⟨ho.1, fun he => hh ?_⟩, ho.2⟩, fun ho => ⟨ho.1.1, ho.2⟩⟩
      rw [← ho.2, hp.commits o ho.1, he, ← hc]

/-- Only a pooled orphan makes room. -/
theorem PoolRight.length_removeOrphanBlock (hp : PoolRight prevOf pool) (orphan : OrphanBlock) :
    (pool.removeOrphanBlock orphan).orphans.length +
      (if pool.has orphan.block.hash then 1 else 0) = pool.orphans.length := by
  have hcount := pool.orphans.length_eq_countP_add_countP (·.block.hash == orphan.block.hash)
  have hone : pool.orphans.countP (·.block.hash == orphan.block.hash) =
      if pool.has orphan.block.hash then 1 else 0 := by
    have hmap : pool.orphans.countP (·.block.hash == orphan.block.hash) =
        (pool.orphans.map (·.block.hash)).count orphan.block.hash := by
      rw [List.count, countP_map]
      rfl
    rw [hmap]
    split_ifs with hhas
    · refine count_eq_one_of_mem hp.distinct ?_
      simpa [PoolRight.has_iff] using hhas
    · refine count_eq_zero.2 ?_
      simpa [PoolRight.has_iff] using hhas
  have hrest : (pool.removeOrphanBlock orphan).orphans.length =
      pool.orphans.countP (decide ¬ ·.block.hash == orphan.block.hash) := by
    rw [OrphanPool.removeOrphanBlock, ← countP_eq_length_filter]
    refine countP_congr fun o _ => ?_
    simp
  omega

theorem orphans_insert (hnew : pool.has orphan.block.hash = false) :
    (pool.insert orphan).orphans = pool.orphans ++ [orphan] := by
  rw [OrphanPool.insert, filter_eq_self.2 fun o ho => bne_iff_ne.2 (has_eq_false.1 hnew o ho)]

/-- **An insertion** of a block that is not pooled keeps the tables right. -/
theorem PoolRight.insert (hp : PoolRight prevOf pool) (hc : orphan.block.Commits prevOf)
    (hnew : pool.has orphan.block.hash = false) : PoolRight prevOf (pool.insert orphan) := by
  have hfresh := has_eq_false.1 hnew
  have horphans := orphans_insert hnew
  have hprev : ∀ h, ((pool.insert orphan).prevOrphans h).getD [] =
      (pool.prevOrphans h).getD [] ++ if h = orphan.block.prevBlock then [orphan] else [] := by
    intro h
    unfold OrphanPool.insert
    by_cases hh : h = orphan.block.prevBlock <;> simp [hh]
  constructor
  · rw [horphans, map_append, nodup_append]
    refine ⟨hp.distinct, by simp, ?_⟩
    simpa using hfresh
  · rw [horphans]
    simpa [or_imp, forall_and] using ⟨hp.commits, hc⟩
  · exact hp.oldest
  · intro h os hos
    unfold OrphanPool.insert at hos
    by_cases hh : h = orphan.block.prevBlock
    · simp only [hh, if_true, Option.some.injEq] at hos
      simp [← hos]
    · exact hp.nonempty h os (by simpa [hh] using hos)
  · intro h
    rw [hprev]
    split_ifs with hh
    · refine nodup_append.2 ⟨hp.nodup h, by simp, ?_⟩
      rintro o ho o' ho' rfl
      rw [mem_singleton.1 ho'] at ho
      exact hfresh orphan ((hp.mem h orphan).1 ho).1 rfl
    · simpa using hp.nodup h
  · intro h o
    rw [hprev, horphans, mem_append, mem_append, hp.mem, mem_singleton, or_and_right]
    refine or_congr_right ?_
    split_ifs with hh
    · rw [mem_singleton, hh]
      exact ⟨fun he => ⟨he, he ▸ rfl⟩, And.left⟩
    · refine ⟨nofun, fun ho => absurd ?_ hh⟩
      rw [← ho.2, ho.1]

theorem PoolRight.length_insert (hnew : pool.has orphan.block.hash = false) :
    (pool.insert orphan).orphans.length = pool.orphans.length + 1 := by
  rw [orphans_insert hnew]
  exact length_append ..

end Tables

/-! ## The expiry loop -/

/-- The orphans that a pass over the pool keeps. -/
def kept (visits : List (OrphanBlock × Int)) : List OrphanBlock :=
  (visits.filter fun v => ¬ v.2 > v.1.expiration).map Prod.fst

section Expiry

variable {prevOf : Hash → Hash} {pool : OrphanPool} {visits : List (OrphanBlock × Int)}
  {o : OrphanBlock}

theorem PoolRight.forget (hp : PoolRight prevOf pool) :
    PoolRight prevOf { pool with oldestOrphan := none } :=
  ⟨hp.distinct, hp.commits, nofun, hp.nonempty, hp.nodup, hp.mem⟩

theorem PoolRight.visitOrphan (hp : PoolRight prevOf pool) {visit : OrphanBlock × Int}
    (hc : visit.1.block.Commits prevOf) : PoolRight prevOf (pool.visitOrphan visit) := by
  unfold OrphanPool.visitOrphan
  split_ifs
  · exact hp.removeOrphanBlock hc
  · refine ⟨hp.distinct, hp.commits, fun o ho => ?_, hp.nonempty, hp.nodup, hp.mem⟩
    simp only [OrphanPool.older] at ho
    split at ho
    · cases ho
      exact hc
    · rename_i oldest holdest
      split_ifs at ho <;> cases ho
      · exact hc
      · exact hp.oldest _ holdest

theorem PoolRight.foldl_visitOrphan (hp : PoolRight prevOf pool)
    (hc : ∀ v ∈ visits, v.1.block.Commits prevOf) :
    PoolRight prevOf (visits.foldl OrphanPool.visitOrphan pool) := by
  induction visits generalizing pool with
  | nil => exact hp
  | cons v visits ih =>
    exact ih (hp.visitOrphan (hc v (by simp))) fun v' hv' => hc v' (by simp [hv'])

theorem oldestOrphan_visits : (visits.foldl OrphanPool.visitOrphan pool).oldestOrphan =
    (kept visits).foldl OrphanPool.older pool.oldestOrphan := by
  induction visits generalizing pool with
  | nil => rfl
  | cons v visits ih =>
    rw [foldl_cons, ih]
    unfold OrphanPool.visitOrphan kept
    split_ifs with hv
    · rw [filter_cons_of_neg (by simpa using hv)]
      rfl
    · rw [filter_cons_of_pos (by simpa using hv)]
      rfl

theorem mem_visits : o ∈ (visits.foldl OrphanPool.visitOrphan pool).orphans ↔
    o ∈ pool.orphans ∧ ∀ v ∈ visits, v.2 > v.1.expiration → o.block.hash ≠ v.1.block.hash := by
  induction visits generalizing pool with
  | nil => simp
  | cons v visits ih =>
    rw [foldl_cons, ih, forall_mem_cons]
    unfold OrphanPool.visitOrphan
    split_ifs with hv
    · rw [mem_removeOrphanBlock]
      tauto
    · tauto

/-- A pass over the whole pool leaves the orphans that it kept. -/
theorem PoolRight.perm_kept (hp : PoolRight prevOf pool)
    (hv : (visits.map Prod.fst).Perm pool.orphans) :
    (visits.foldl OrphanPool.visitOrphan pool).orphans.Perm (kept visits) := by
  have hmem : ∀ v ∈ visits, v.1 ∈ pool.orphans := fun v hvis =>
    hv.subset (mem_map_of_mem hvis)
  have hnodup : (visits.map Prod.fst).Nodup := hv.nodup_iff.2 (hp.distinct.of_map _)
  refine (perm_ext_iff_of_nodup ?_ ?_).2 fun o => ?_
  · exact (hp.foldl_visitOrphan fun v hvis => hp.commits _ (hmem v hvis)).distinct.of_map _
  · exact hnodup.sublist (filter_sublist.map _)
  · rw [mem_visits, kept, mem_map]
    constructor
    · rintro ⟨ho, hkeep⟩
      obtain ⟨v, hvis, rfl⟩ := mem_map.1 (hv.symm.subset ho)
      exact ⟨v, mem_filter.2 ⟨hvis, by simpa using fun h => hkeep v hvis h rfl⟩, rfl⟩
    · rintro ⟨v, hfilter, rfl⟩
      obtain ⟨hvis, hkeep⟩ := mem_filter.1 hfilter
      refine ⟨hmem v hvis, fun v' hvis' hexp he => ?_⟩
      -- the orphan is visited once, so an expired visit is this one
      have heq : v' = v := inj_on_of_nodup_map hnodup hvis' hvis
        (hp.eq_of_hash (hmem v' hvis') (hmem v hvis) he.symm)
      subst heq
      simp [hexp] at hkeep

/-- What is remembered after orphans were seen is the orphan from before, or one that is older. -/
theorem foldl_older_some (os : List OrphanBlock) (o : OrphanBlock) :
    ∃ o', os.foldl OrphanPool.older (some o) = some o' ∧
      ((o' = o ∧ ∀ k ∈ os, ¬ k.expiration < o.expiration) ∨
        (o' ∈ os ∧ ∃ k ∈ os, k.expiration < o.expiration)) := by
  induction os generalizing o with
  | nil => exact ⟨o, rfl, .inl ⟨rfl, by simp⟩⟩
  | cons k os ih =>
    simp only [foldl_cons, OrphanPool.older]
    split_ifs with hk
    · obtain ⟨o', ho', hcase⟩ := ih k
      refine ⟨o', ho', .inr ⟨?_, k, by simp, hk⟩⟩
      rcases hcase with ⟨rfl, -⟩ | ⟨hmem, -⟩
      · exact mem_cons_self
      · exact mem_cons_of_mem _ hmem
    · obtain ⟨o', ho', hcase⟩ := ih o
      refine ⟨o', ho', hcase.imp (fun h => ⟨h.1, ?_⟩) fun h => ⟨mem_cons_of_mem _ h.1, ?_⟩⟩
      · exact forall_mem_cons.2 ⟨hk, h.2⟩
      · obtain ⟨k', hk', hlt⟩ := h.2
        exact ⟨k', mem_cons_of_mem _ hk', hlt⟩

theorem foldl_older_none {os : List OrphanBlock} (hne : os ≠ []) :
    ∃ o' ∈ os, os.foldl OrphanPool.older none = some o' := by
  obtain ⟨k, os, rfl⟩ := exists_cons_of_ne_nil hne
  obtain ⟨o', ho', hcase⟩ := foldl_older_some os k
  refine ⟨o', ?_, ho'⟩
  rcases hcase with ⟨rfl, -⟩ | ⟨hmem, -⟩
  · exact mem_cons_self
  · exact mem_cons_of_mem _ hmem

end Expiry

/-! ## Additions -/

/-- Room is made for the new orphan: fewer are left than the limit, or the remembered orphan is
among them, or an older one is. -/
def MakesRoom (pool : OrphanPool) (visits : List (OrphanBlock × Int)) : Prop :=
  (kept visits).length < maxOrphanBlocks ∨
  ∀ o, pool.oldestOrphan = some o →
    (∃ k ∈ kept visits, k.block.hash = o.block.hash) ∨
      ∃ k ∈ kept visits, k.expiration < o.expiration

section Additions

variable {prevOf : Hash → Hash} {pool : OrphanPool} {block : NodeBlock}
  {visits : List (OrphanBlock × Int)}

/-- The orphan to be removed from a full pool, and whether it is there. -/
theorem exists_oldest (hp : PoolRight prevOf pool) (hv : (visits.map Prod.fst).Perm pool.orphans)
    (hfull : maxOrphanBlocks ≤ (kept visits).length) :
    ∃ o, (visits.foldl OrphanPool.visitOrphan pool).oldestOrphan = some o ∧
      ((visits.foldl OrphanPool.visitOrphan pool).has o.block.hash = true ↔
        MakesRoom pool visits) := by
  have hhas : ∀ h, (visits.foldl OrphanPool.visitOrphan pool).has h = true ↔
      ∃ k ∈ kept visits, k.block.hash = h := fun h => by
    simp only [PoolRight.has_iff, (hp.perm_kept hv).mem_iff]
  have hmax : ¬ (kept visits).length < maxOrphanBlocks := by omega
  simp only [hhas, oldestOrphan_visits, MakesRoom, hmax, false_or]
  cases hold : pool.oldestOrphan with
  | none =>
    have hne : kept visits ≠ [] := by
      rintro he
      rw [he] at hfull
      simp [maxOrphanBlocks] at hfull
    obtain ⟨o, ho, hfold⟩ := foldl_older_none hne
    exact ⟨o, hfold, iff_of_true ⟨o, ho, rfl⟩ nofun⟩
  | some old =>
    obtain ⟨o, hfold, ⟨rfl, hnone⟩ | ⟨ho, hlt⟩⟩ := foldl_older_some (kept visits) old
    · refine ⟨o, hfold, fun h o' ho' => ?_, fun h => ?_⟩
      · cases ho'
        exact .inl h
      · refine (h o rfl).resolve_right ?_
        rintro ⟨k, hk, hlt⟩
        exact hnone k hk hlt
    · refine ⟨o, hfold, iff_of_true ⟨o, ho, rfl⟩ fun o' ho' => ?_⟩
      cases ho'
      exact .inr hlt

open Classical in
/-- **An addition.** It never panics, it keeps the tables right, and it forgets the remembered
orphan if the pool was full. -/
theorem addOrphanBlock_spec (hp : PoolRight prevOf pool) (hc : block.Commits prevOf)
    (hnew : pool.has block.hash = false) (hv : (visits.map Prod.fst).Perm pool.orphans)
    (now : Int) :
    ∃ pool', pool.addOrphanBlock block visits now = some pool' ∧ PoolRight prevOf pool' ∧
      (maxOrphanBlocks ≤ (kept visits).length → pool'.oldestOrphan = none) ∧
      pool'.orphans.length = (kept visits).length +
        if maxOrphanBlocks ≤ (kept visits).length ∧ MakesRoom pool visits then 0 else 1 := by
  have hvis : PoolRight prevOf (visits.foldl OrphanPool.visitOrphan pool) :=
    hp.foldl_visitOrphan fun v hmem => hp.commits _ (hv.subset (mem_map_of_mem hmem))
  have hlen := (hp.perm_kept hv).length_eq
  have hnew' : (visits.foldl OrphanPool.visitOrphan pool).has block.hash = false :=
    has_eq_false.2 fun o ho => has_eq_false.1 hnew o (mem_visits.1 ho).1
  unfold OrphanPool.addOrphanBlock
  simp only [hlen]
  by_cases hfull : maxOrphanBlocks ≤ (kept visits).length
  · obtain ⟨o, hold, hroom⟩ := exists_oldest hp hv hfull
    have hgone := @has_of_removeOrphanBlock _ o _ hnew'
    have hremoved := hvis.length_removeOrphanBlock o
    rw [if_pos (by omega), hold]
    refine ⟨_, rfl, ((hvis.removeOrphanBlock (hvis.oldest o hold)).forget).insert hc hgone,
      fun _ => rfl, ?_⟩
    rw [PoolRight.length_insert hgone]
    simp only [hfull, true_and, ← hroom]
    split_ifs at hremoved ⊢ <;> omega
  · rw [if_neg (by omega)]
    refine ⟨_, rfl, hvis.insert hc hnew', fun h => absurd h hfull, ?_⟩
    rw [PoolRight.length_insert hnew', if_neg fun h => hfull h.1, hlen]

end Additions

/-! ## Adoption -/

section Adoption

variable {σ ε : Type} {accept : σ → NodeBlock → σ × Option ε} {prevOf : Hash → Hash}
  {I : σ → OrphanPool → List Hash → Prop} {s : σ} {pool : OrphanPool}

/-- An invariant of the loops of `processOrphans`, on the state, the pool and the queue. -/
structure LoopInv (accept : σ → NodeBlock → σ × Option ε) (prevOf : Hash → Hash)
    (I : σ → OrphanPool → List Hash → Prop) : Prop where
  pop : ∀ {s pool h queue}, PoolRight prevOf pool → I s pool (h :: queue) →
    (∀ o ∈ pool.orphans, o.block.prevBlock ≠ h) → I s pool queue
  adopt : ∀ {s s' pool h queue o}, PoolRight prevOf pool → I s pool (h :: queue) →
    o ∈ pool.orphans → o.block.prevBlock = h → accept s o.block = (s', none) →
    I s' (pool.removeOrphanBlock o) (h :: queue ++ [o.block.hash])

/-- How the loops end: with an empty queue, or at the first block that is rejected. -/
def Ends (accept : σ → NodeBlock → σ × Option ε) (prevOf : Hash → Hash)
    (I : σ → OrphanPool → List Hash → Prop) (s : σ) (pool : OrphanPool) : Option ε → Prop
  | none => I s pool []
  | some err => ∃ s₀ pool₀ h queue o, PoolRight prevOf pool₀ ∧ I s₀ pool₀ (h :: queue) ∧
      o ∈ pool₀.orphans ∧ o.block.prevBlock = h ∧ accept s₀ o.block = (s, some err) ∧
      pool = pool₀.removeOrphanBlock o

/-- **Adoption**: the loops end, keep the tables right, and never add to the pool. Each turn takes
an orphan from the pool or a hash from the queue. -/
theorem processHashes_spec (hI : LoopInv accept prevOf I)
    {fuel : Nat} {queue : List Hash} (hp : PoolRight prevOf pool)
    (hfuel : 2 * pool.orphans.length + queue.length < fuel) (h : I s pool queue) :
    ∃ s' pool' err, OrphanPool.processHashes accept fuel s pool queue = some (s', pool', err) ∧
      PoolRight prevOf pool' ∧ pool'.orphans.length ≤ pool.orphans.length ∧
      pool'.oldestOrphan = pool.oldestOrphan ∧ Ends accept prevOf I s' pool' err := by
  induction fuel generalizing s pool queue with
  | zero => omega
  | succ fuel ih =>
    cases queue with
    | nil => exact ⟨s, pool, none, rfl, hp, le_rfl, rfl, h⟩
    | cons processHash queue =>
      simp only [length_cons] at hfuel
      rw [OrphanPool.processHashes]
      cases hprev : (pool.prevOrphans processHash).getD [] with
      | nil =>
        refine ih hp (by omega) (hI.pop hp h fun o ho he => ?_)
        simpa [hprev] using (hp.mem processHash o).2 ⟨ho, he⟩
      | cons orphan rest =>
        obtain ⟨ho, he⟩ := (hp.mem processHash orphan).1 (hprev ▸ mem_cons_self)
        have hp' := hp.removeOrphanBlock (hp.commits orphan ho)
        have hlen := hp.length_removeOrphanBlock orphan
        rw [if_pos (PoolRight.has_iff.2 ⟨orphan, ho, rfl⟩)] at hlen
        simp only
        rcases hacc : accept s orphan.block with ⟨s', _ | err⟩
        · obtain ⟨s'', pool', err, hrun, hright, hle, hold, hend⟩ :=
            ih hp' (by simp only [length_append, length_cons, length_nil]; omega)
              (hI.adopt hp h ho he hacc)
          exact ⟨s'', pool', err, hrun, hright, by omega, hold, hend⟩
        · exact ⟨s', _, some err, rfl, hp', by omega, rfl, s, pool, processHash, queue,
            orphan, hp, h, ho, he, hacc, rfl⟩

theorem processOrphans_spec (hI : LoopInv accept prevOf I) (hash : Hash)
    (hp : PoolRight prevOf pool) (h : I s pool [hash]) :
    ∃ s' pool' err, pool.processOrphans accept s hash = some (s', pool', err) ∧
      PoolRight prevOf pool' ∧ pool'.orphans.length ≤ pool.orphans.length ∧
      pool'.oldestOrphan = pool.oldestOrphan ∧ Ends accept prevOf I s' pool' err :=
  processHashes_spec hI hp (by simp) h

end Adoption

/-! ## Runs -/

/-- A call on the pool. The verdict on an orphan is any function of the orphans that the call has
tried so far. -/
inductive OrphanCall
  | add (block : NodeBlock) (visits : List (OrphanBlock × Int)) (now : Int)
  | remove (orphan : OrphanBlock)
  | process (hash : Hash) (verdict : List NodeBlock → NodeBlock → Bool)

namespace OrphanCall

/-- The calls of the chain: it adds no block twice, and passes over the pool in some order. -/
def Legal (prevOf : Hash → Hash) (pool : OrphanPool) : OrphanCall → Prop
  | add block visits _ => block.Commits prevOf ∧ pool.has block.hash = false ∧
      (visits.map Prod.fst).Perm pool.orphans
  | remove orphan => orphan.block.Commits prevOf
  | process _ _ => True

/-- What `maybeAcceptBlock` answers in a call of `processOrphans`. -/
def answer (verdict : List NodeBlock → NodeBlock → Bool) (tried : List NodeBlock)
    (block : NodeBlock) : List NodeBlock × Option Unit :=
  (tried ++ [block], if verdict tried block then none else some ())

def exec (pool : OrphanPool) : OrphanCall → Option OrphanPool
  | add block visits now => pool.addOrphanBlock block visits now
  | remove orphan => some (pool.removeOrphanBlock orphan)
  | process hash verdict => (pool.processOrphans (answer verdict) [] hash).map fun r => r.2.1

/-- An addition makes room; other calls need none. -/
def MakesRoom (pool : OrphanPool) : OrphanCall → Prop
  | add _ visits _ => Fnod.MakesRoom pool visits
  | _ => True

end OrphanCall

/-- Any run of legal calls from an empty pool: the pools that were met with the calls made on them,
and the last pool. -/
inductive OrphanRun (prevOf : Hash → Hash) : List (OrphanPool × OrphanCall) → OrphanPool → Prop
  | new : OrphanRun prevOf [] newOrphanPool
  | call {trace : List (OrphanPool × OrphanCall)} {pool pool' : OrphanPool} {c : OrphanCall} :
      OrphanRun prevOf trace pool → c.Legal prevOf pool → c.exec pool = some pool' →
      OrphanRun prevOf (trace ++ [(pool, c)]) pool'

/-- The bound that does hold. A pool over the limit has just forgotten its oldest orphan. -/
structure PoolBounded (pool : OrphanPool) : Prop where
  length_le : pool.orphans.length ≤ maxOrphanBlocks + 1
  remembered : pool.oldestOrphan ≠ none → pool.orphans.length ≤ maxOrphanBlocks

section Runs

variable {prevOf : Hash → Hash} {pool : OrphanPool} {trace : List (OrphanPool × OrphanCall)}
  {visits : List (OrphanBlock × Int)}

theorem length_kept_le
    (hv : (visits.map Prod.fst).Perm pool.orphans) :
    (kept visits).length ≤ pool.orphans.length := by
  rw [← hv.length_eq, length_map, kept, length_map]
  exact length_filter_le ..

theorem MakesRoom.of_forgotten (h : pool.oldestOrphan = none) :
    MakesRoom pool visits := .inr fun o ho => by simp [h] at ho

/-- **One call**: it returns, keeps the tables right, and keeps to the bound exactly if it makes
room. -/
theorem OrphanCall.exec_spec {c : OrphanCall} (hp : PoolRight prevOf pool) (hb : PoolBounded pool)
    (hc : c.Legal prevOf pool) :
    ∃ pool', c.exec pool = some pool' ∧ PoolRight prevOf pool' ∧ PoolBounded pool' ∧
      (pool.orphans.length ≤ maxOrphanBlocks →
        (pool'.orphans.length ≤ maxOrphanBlocks ↔ c.MakesRoom pool)) := by
  cases c with
  | add block visits now =>
    obtain ⟨hcommits, hnew, hv⟩ := hc
    obtain ⟨pool', hadd, hright, hforget, hlen⟩ := addOrphanBlock_spec hp hcommits hnew hv now
    have hle := length_kept_le hv
    have hmax := hb.length_le
    refine ⟨pool', hadd, hright, ⟨?_, fun hold => ?_⟩, fun hpool => ?_⟩
    · by_cases hroom : Fnod.MakesRoom pool visits
      · simp only [hroom, and_true] at hlen
        split_ifs at hlen <;> omega
      · have hold : pool.oldestOrphan ≠ none := fun h => hroom (.of_forgotten h)
        have := hb.remembered hold
        simp only [hroom, and_false, if_false] at hlen
        omega
    · have hfull : ¬ maxOrphanBlocks ≤ (kept visits).length := fun h => hold (hforget h)
      simp only [hfull, false_and, if_false] at hlen
      omega
    · by_cases hfull : maxOrphanBlocks ≤ (kept visits).length
      · by_cases hroom : Fnod.MakesRoom pool visits
        · simp only [hfull, hroom, and_self, if_true] at hlen
          exact iff_of_true (by omega) hroom
        · simp only [hroom, and_false, if_false] at hlen
          exact iff_of_false (by omega) hroom
      · simp only [hfull, false_and, if_false] at hlen
        exact iff_of_true (by omega) (.inl (by omega))
  | remove orphan =>
    have hlen := hp.length_removeOrphanBlock orphan
    have hmax := hb.length_le
    refine ⟨_, rfl, hp.removeOrphanBlock hc, ⟨by omega, fun hold => ?_⟩, fun hpool => ?_⟩
    · have := hb.remembered hold
      omega
    · exact iff_of_true (by omega) trivial
  | process hash verdict =>
    have hI : LoopInv (answer verdict) prevOf fun _ _ _ => True :=
      ⟨fun _ _ _ => trivial, fun _ _ _ _ _ => trivial⟩
    obtain ⟨s, pool', err, hrun, hright, hle, hold, -⟩ :=
      processOrphans_spec hI (s := []) hash hp trivial
    have hmax := hb.length_le
    refine ⟨pool', by rw [exec, hrun]; rfl, hright, ⟨by omega, fun h => ?_⟩, fun hpool => ?_⟩
    · have := hb.remembered (hold ▸ h)
      omega
    · exact iff_of_true (by omega) trivial

theorem OrphanRun.inv (h : OrphanRun prevOf trace pool) :
    PoolRight prevOf pool ∧ PoolBounded pool := by
  induction h with
  | new => exact ⟨.new, by simp [newOrphanPool], by simp [newOrphanPool]⟩
  | call _ hlegal hexec ih =>
    obtain ⟨pool', he, hright, hbounded, -⟩ := OrphanCall.exec_spec ih.1 ih.2 hlegal
    cases hexec.symm.trans he
    exact ⟨hright, hbounded⟩

/-- **Runs.** In every reachable pool the tables are right and every legal call returns. The pools
of a run keep to the bound exactly if each addition made room, and exceed it by one at most. -/
theorem orphanPool_run (h : OrphanRun prevOf trace pool) :
    PoolRight prevOf pool ∧ pool.orphans.length ≤ maxOrphanBlocks + 1 ∧
    (∀ c : OrphanCall, c.Legal prevOf pool → ∃ pool', c.exec pool = some pool') ∧
    ((∀ p ∈ trace.map Prod.fst ++ [pool], p.orphans.length ≤ maxOrphanBlocks) ↔
      ∀ pc ∈ trace, pc.2.MakesRoom pc.1) := by
  refine ⟨h.inv.1, h.inv.2.length_le, fun c hc => ?_, ?_⟩
  · obtain ⟨pool', he, -⟩ := OrphanCall.exec_spec h.inv.1 h.inv.2 hc
    exact ⟨pool', he⟩
  · induction h with
    | new => simp [newOrphanPool]
    | @call trace pool pool' c hrun hlegal hexec ih =>
      obtain ⟨_, he, -, -, hroom⟩ := OrphanCall.exec_spec hrun.inv.1 hrun.inv.2 hlegal
      cases hexec.symm.trans he
      simp only [map_append, map_cons, map_nil, forall_mem_append, forall_mem_singleton] at ih ⊢
      rw [← ih]
      exact and_congr_right fun hpools => hroom hpools.2

end Runs

/-! The pool overflows in a run of additions. Two orphans arrive, and the second arrival remembers
the first orphan. Both have expired when the next orphans arrive, an hour and more later; the pool
fills up with these, and the remembered orphan is older than each of them. -/

namespace StaleOldest

/-- The header hashes of this run all name one unknown parent. -/
def prevOf : Hash → Hash := fun _ => default

def block (n : Nat) : NodeBlock := ⟨Hash.ofNat n, default, 1⟩

def first : OrphanBlock := ⟨block 0, 0 + hour⟩

def second : OrphanBlock := ⟨block 1, 0 + hour⟩

/-- The orphans that arrive two hours later. -/
def late (n : Nat) : OrphanBlock := ⟨block (n + 2), 2 * hour + hour⟩

theorem late_expiration (n : Nat) :
    ¬ 2 * hour > (late n).expiration ∧ ¬ (late n).expiration < first.expiration := by
  simp only [late, first, hour]
  omega

def latePool (n : Nat) : List OrphanBlock := (List.range n).map late

variable {n : Nat} {pool : OrphanPool}

theorem hash_block_ne {m : Nat} (hm : m < 256 ^ 32) (hn : n < 256 ^ 32) (hne : m ≠ n) :
    (block m).hash ≠ (block n).hash := by
  intro h
  refine hne (Bytes.putLE_injective hm hn (reverse_injective ?_))
  exact congrArg Hash.bytes h

theorem start_run : ∃ trace pool, OrphanRun prevOf trace pool ∧ trace.length = 3 ∧
    (∀ pc ∈ trace, ∃ b visits now, pc.2 = .add b visits now) ∧
    (∀ pc ∈ trace, pc.2.MakesRoom pc.1) ∧ pool.orphans = latePool 1 ∧
    pool.oldestOrphan = some first := by
  have hrun1 : OrphanRun prevOf _ _ := .call .new (c := .add (block 0) [] 0) ⟨rfl, rfl, .refl _⟩ rfl
  have hrun2 := hrun1.call (c := .add (block 1) [(first, 0)] 0)
    ⟨rfl, by decide +kernel, .refl _⟩ rfl
  have hrun3 := hrun2.call (c := .add (block 2) [(first, 2 * hour), (second, 2 * hour)] (2 * hour))
    ⟨rfl, by decide +kernel, by decide +kernel⟩ rfl
  refine ⟨_, _, hrun3, rfl, by simp, ?_, by decide +kernel, by decide +kernel⟩
  simp only [nil_append, forall_mem_append, forall_mem_singleton]
  exact ⟨⟨.inl (by decide), .inl (by decide)⟩, .inl (by decide +kernel)⟩

/-- Every orphan of the pool, seen after two hours. -/
def lateVisits (n : Nat) : List (OrphanBlock × Int) := (latePool n).map fun o => (o, 2 * hour)

theorem kept_lateVisits (n : Nat) : kept (lateVisits n) = latePool n := by
  have hkeep : ∀ v ∈ lateVisits n, decide (¬ v.2 > v.1.expiration) = true := by
    simp only [lateVisits, latePool, forall_mem_map, decide_eq_true_eq]
    exact fun i _ => (late_expiration i).1
  rw [kept, filter_eq_self.2 hkeep, lateVisits, map_map]
  exact map_id _

theorem foldl_older_latePool (n : Nat) :
    (latePool n).foldl OrphanPool.older (some first) = some first := by
  obtain ⟨o, hfold, ⟨rfl, -⟩ | ⟨-, k, hk, hlt⟩⟩ := foldl_older_some (latePool n) first
  · exact hfold
  · obtain ⟨i, -, rfl⟩ := mem_map.1 hk
    exact absurd hlt (late_expiration i).2

theorem foldl_visitOrphan_of_fresh {visits : List (OrphanBlock × Int)}
    (h : ∀ v ∈ visits, ¬ v.2 > v.1.expiration) :
    (visits.foldl OrphanPool.visitOrphan pool).orphans = pool.orphans := by
  induction visits generalizing pool with
  | nil => rfl
  | cons v visits ih =>
    rw [foldl_cons, ih (forall_mem_cons.1 h).2]
    rw [OrphanPool.visitOrphan, if_neg (h v mem_cons_self)]

theorem late_exec (hn : n < 1000) (ho : pool.orphans = latePool n)
    (hold : pool.oldestOrphan = some first) :
    (OrphanCall.add (block (n + 2)) (lateVisits n) (2 * hour)).Legal prevOf pool ∧
    ∃ pool', OrphanCall.exec pool (.add (block (n + 2)) (lateVisits n) (2 * hour)) = some pool' ∧
      pool'.orphans = latePool (n + 1) ∧
        (n < maxOrphanBlocks → pool'.oldestOrphan = some first) := by
  have hother : ∀ j, j = 0 ∨ j = n + 2 → ∀ o ∈ latePool n, o.block.hash ≠ (block j).hash := by
    simp only [latePool, forall_mem_map, mem_range]
    intro j hj i hi
    exact hash_block_ne (by omega) (by omega) (by omega)
  have hnew := hother (n + 2) (.inr rfl)
  have hfirst : ∀ o ∈ latePool n, o.block.hash ≠ first.block.hash := hother 0 (.inl rfl)
  have hvisits : ((lateVisits n).foldl OrphanPool.visitOrphan pool).orphans = latePool n := by
    rw [foldl_visitOrphan_of_fresh, ho]
    simp only [lateVisits, latePool, forall_mem_map]
    exact fun i _ => (late_expiration i).1
  have holdest : ((lateVisits n).foldl OrphanPool.visitOrphan pool).oldestOrphan = some first := by
    rw [oldestOrphan_visits, kept_lateVisits, hold, foldl_older_latePool]
  have hsucc : latePool (n + 1) = latePool n ++ [late n] := by
    simp [latePool, range_succ]
  have hlen : (latePool n).length = n := by simp [latePool]
  refine ⟨⟨rfl, ?_, ?_⟩, ?_⟩
  · simpa [OrphanPool.has, ho] using hnew
  · rw [ho, lateVisits, map_map]
    exact .of_eq (map_id _)
  · rw [OrphanCall.exec, OrphanPool.addOrphanBlock]
    simp only [hvisits, hlen, holdest]
    split_ifs with hfull
    · refine ⟨_, rfl, ?_, fun h => by omega⟩
      simp only [OrphanPool.insert, OrphanPool.removeOrphanBlock, hvisits]
      rw [filter_eq_self.2 fun o ho => bne_iff_ne.2 (hfirst o ho),
        filter_eq_self.2 fun o ho => bne_iff_ne.2 (hnew o ho), hsucc]
      rfl
    · refine ⟨_, rfl, ?_, fun _ => ?_⟩
      · simp only [OrphanPool.insert, hvisits]
        rw [filter_eq_self.2 fun o ho => bne_iff_ne.2 (hnew o ho), hsucc]
        rfl
      · simp only [OrphanPool.insert, holdest]

theorem late_run (hn : n < maxOrphanBlocks) : ∃ trace pool, OrphanRun prevOf trace pool ∧
    (∀ pc ∈ trace, ∃ b visits now, pc.2 = .add b visits now) ∧
    pool.orphans = latePool (n + 1) ∧ pool.oldestOrphan = some first := by
  induction n with
  | zero =>
    obtain ⟨trace, pool, hrun, -, hadds, -, hend⟩ := start_run
    exact ⟨trace, pool, hrun, hadds, hend⟩
  | succ n ih =>
    obtain ⟨trace, pool, hrun, hadds, ho, hold⟩ := ih (by omega)
    have hmax : maxOrphanBlocks = 500 := rfl
    obtain ⟨hlegal, pool', hexec, ho', hold'⟩ := late_exec (by omega) ho hold
    refine ⟨_, pool', hrun.call hlegal hexec, ?_, ho', hold' hn⟩
    rw [forall_mem_append, forall_mem_singleton]
    exact ⟨hadds, _, _, _, rfl⟩

end StaleOldest

open StaleOldest in
/-- Two orphans arrive, and the arrival of a third one drops both, which have expired. -/
theorem lateOrphan_run : ∃ trace pool, OrphanRun prevOf trace pool ∧ trace.length = 3 ∧
    pool.orphans = [late 0] ∧ PoolRight prevOf pool ∧
    ∀ p ∈ trace.map Prod.fst ++ [pool], p.orphans.length ≤ maxOrphanBlocks := by
  obtain ⟨trace, pool, hrun, hlen, -, hroom, ho, -⟩ := start_run
  have h := orphanPool_run hrun
  exact ⟨trace, pool, hrun, hlen, ho, h.1, h.2.2.2.2 hroom⟩

open StaleOldest in
/-- Additions alone lead to a pool of 501 orphans. -/
theorem staleOldest_overflow : ∃ trace pool, OrphanRun prevOf trace pool ∧
    (∀ pc ∈ trace, ∃ b visits now, pc.2 = .add b visits now) ∧
    pool.orphans.length = maxOrphanBlocks + 1 := by
  obtain ⟨trace, pool, hrun, hadds, ho, hold⟩ := late_run (n := 499) (by decide)
  obtain ⟨hlegal, pool', hexec, ho', -⟩ := late_exec (by decide) ho hold
  refine ⟨_, pool', hrun.call hlegal hexec, ?_, ?_⟩
  · rw [forall_mem_append, forall_mem_singleton]
    exact ⟨hadds, _, _, _, rfl⟩
  · rw [ho', latePool, length_map, length_range]
    rfl

end Fnod
