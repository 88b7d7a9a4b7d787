import Fnod.Mempool.Outpoints

/-!
# The index of votes

`votes` maps a block to the votes on it. A vote is listed when it is accepted, unless one of its
ticket is listed for the block already; nothing ever takes it off the list.

**Theorem (`votes_run`).** After every call the index lists exactly the votes of the pool, exactly
if no call takes a vote out of the pool and the pool never holds two votes of one ticket on one
block.

In every history the tickets listed for a block are distinct and the lists only grow (`VoteInv`,
`Extends`); the theorem compares that with the votes of the pool.
-/

namespace Fnod

open Except List TxPool

/-- What a vote is listed as, and for which block. -/
def Tx.ballot? (tx : Tx) : Option (Hash × VoteDesc) :=
  if tx.isSSGen then
    match tx.msgTx.txIn[1]?, ssgenBlockVotedOn tx.msgTx, ssgenVoteBits tx.msgTx with
    | some ticketIn, .ok (blockHash, _), .ok voteBits =>
      some (blockHash, ⟨tx.hash, ticketIn.previousOutPoint.hash, voteBitsApproveParent voteBits⟩)
    | _, _, _ => none
  else none

/-- Two votes of one ticket on one block. -/
def Rivals (v v' : Tx) : Prop :=
  v ≠ v' ∧ ∃ block d d', v.ballot? = some (block, d) ∧ v'.ballot? = some (block, d') ∧
    d.ticketHash = d'.ticketHash

variable {tx v v' : Tx} {block : Hash} {d : VoteDesc} {n : Naming} {w : World} {cfg : PoolConfig}
  {mp mp' : TxPool}

theorem ballot?_of_isSSGen (h : tx.isSSGen = true) : ∃ block d, tx.ballot? = some (block, d) := by
  have htype : tx.txType = .ssgen := of_decide_eq_true h
  have htyped : determineTxType tx.msgTx = .ok .ssgen := htype ▸ tx.typed
  obtain ⟨stakebase, ticket, hinputs⟩ := voteInputs_of_ssgen htyped
  have hvote := isVote_of_ssgen htyped
  obtain ⟨out, hout, -, hlen⟩ := hvote.reference
  obtain ⟨out', hout', hlen'⟩ := hvote.voteBits
  unfold Tx.ballot? ssgenBlockVotedOn ssgenVoteBits
  rw [if_pos h, hinputs.txIn, Slice.get_eq hout, Slice.get_eq hout', ok_bind, ok_bind,
    Slice.slice_eq (show 2 ≤ 34 by decide) (by omega), ok_bind,
    Slice.slice_eq (show 34 ≤ 38 by decide) (by omega), ok_bind,
    Slice.slice_eq (show 2 ≤ 4 by decide) (by omega)]
  exact ⟨_, _, rfl⟩

theorem isSSGen_of_ballot? (h : tx.ballot? = some (block, d)) : tx.isSSGen = true := by
  unfold Tx.ballot? at h
  split_ifs at h with hvote
  exact hvote

theorem voteHash_of_ballot? (h : tx.ballot? = some (block, d)) : d.voteHash = tx.hash := by
  unfold Tx.ballot? at h
  split_ifs at h
  split at h
  · cases h
    rfl
  · cases h

namespace TxPool

/-- The votes that are listed for a block. -/
def listed (mp : TxPool) (block : Hash) : List VoteDesc := (mp.votes block).getD []

/-- **`insertVote`** lists a vote unless one of its ticket is listed. -/
theorem insertVote_listed (h : tx.ballot? = some (block, d)) (hrun : mp.insertVote tx = some mp') :
    mp'.listed = fun b => if b = block ∧ d.ticketHash ∉ (mp.listed block).map (·.ticketHash)
      then mp.listed block ++ [d] else mp.listed b := by
  unfold Tx.ballot? at h
  unfold insertVote at hrun
  split_ifs at h
  split at h
  · next ticketIn _ _ voteBits hin hblock hbits =>
    cases h
    rw [hin, hblock, hbits] at hrun
    dsimp only at hrun
    funext b
    have hany : ((mp.votes block).getD []).any (fun v => decide (v.ticketHash =
        ticketIn.previousOutPoint.hash)) = true ↔
        ticketIn.previousOutPoint.hash ∈ (mp.listed block).map (·.ticketHash) := by
      simp [listed]
    by_cases hknown : ticketIn.previousOutPoint.hash ∈ (mp.listed block).map (·.ticketHash)
    · rw [if_pos (hany.2 hknown)] at hrun
      cases hrun
      rw [if_neg fun hb => hb.2 hknown]
    · rw [if_neg (mt hany.1 hknown)] at hrun
      cases hrun
      by_cases hb : b = block
      · rw [if_pos ⟨hb, hknown⟩]
        simp [listed, hb]
      · rw [if_neg fun hb' => hb hb'.1]
        simp [listed, hb]
  · cases h

theorem recordVote_listed (hrun : mp.recordVote tx = some mp') :
    mp'.listed = fun b => match tx.ballot? with
      | some (block, d) => if b = block ∧ d.ticketHash ∉ (mp.listed block).map (·.ticketHash)
        then mp.listed block ++ [d] else mp.listed b
      | none => mp.listed b := by
  unfold recordVote at hrun
  split_ifs at hrun with hvote
  · obtain ⟨block, d, hballot⟩ := ballot?_of_isSSGen hvote
    rw [hballot]
    exact insertVote_listed hballot hrun
  · cases hrun
    rw [Tx.ballot?, if_neg hvote]

/-- What always holds of the lists. -/
structure VoteInv (n : Naming) (mp : TxPool) : Prop where
  tickets : ∀ block, ((mp.listed block).map (·.ticketHash)).Nodup
  named : ∀ block, ∀ d ∈ mp.listed block, ∃ t, n.Names t ∧ t.ballot? = some (block, d)

/-- The lists of the second pool extend those of the first. -/
def Extends (mp mp' : TxPool) : Prop := ∀ block, mp.listed block ⊆ mp'.listed block

/-- The lists have exactly the votes of the pool. -/
def Recorded (mp : TxPool) : Prop :=
  ∀ block d, d ∈ mp.listed block ↔ ∃ t ∈ mp.txs, t.ballot? = some (block, d)

/-- The pool holds two votes of one ticket on one block. -/
def HasRivals (mp : TxPool) : Prop := ∃ v ∈ mp.txs, ∃ v' ∈ mp.txs, Rivals v v'

/-- What acceptance does to a list. -/
theorem Added.listed (ha : Added mp tx mp') (block : Hash) :
    (mp'.listed block = mp.listed block ∧ ∀ d, tx.ballot? = some (block, d) →
        d.ticketHash ∈ (mp.listed block).map (·.ticketHash)) ∨
      ∃ d, tx.ballot? = some (block, d) ∧ mp'.listed block = mp.listed block ++ [d] ∧
        d.ticketHash ∉ (mp.listed block).map (·.ticketHash) := by
  obtain ⟨mid, hvotes, hrecord⟩ := ha.votes
  have hmid : mid.listed = mp.listed := by
    unfold TxPool.listed
    rw [hvotes]
  have hlisted := congrFun (recordVote_listed hrecord) block
  rw [hmid] at hlisted
  cases hballot : tx.ballot? with
  | none =>
    rw [hballot] at hlisted
    exact .inl ⟨hlisted, nofun⟩
  | some ballot =>
    obtain ⟨block', d⟩ := ballot
    rw [hballot] at hlisted
    dsimp only at hlisted
    split_ifs at hlisted with hb
    · obtain ⟨rfl, hnew⟩ := hb
      exact .inr ⟨d, rfl, hlisted, hnew⟩
    · refine .inl ⟨hlisted, fun d' hd' => ?_⟩
      cases hd'
      by_contra hnew
      exact hb ⟨rfl, hnew⟩

theorem VoteInv.added (h : VoteInv n mp) (hN : n.Names tx) (ha : Added mp tx mp') :
    VoteInv n mp' := by
  refine ⟨fun block => ?_, fun block d hd => ?_⟩
  · rcases ha.listed block with ⟨hlisted, -⟩ | ⟨d, -, hlisted, hnew⟩
    · rw [hlisted]
      exact h.tickets block
    · rw [hlisted, map_append, nodup_append]
      refine ⟨h.tickets block, nodup_singleton _, ?_⟩
      rintro ticket hold _ hlast rfl
      rw [map_singleton, mem_singleton] at hlast
      exact hnew (hlast ▸ hold)
  · rcases ha.listed block with ⟨hlisted, -⟩ | ⟨d', hballot, hlisted, -⟩
    · rw [hlisted] at hd
      exact h.named block d hd
    · rw [hlisted, mem_append, mem_singleton] at hd
      rcases hd with hd | rfl
      · exact h.named block d hd
      · exact ⟨tx, hN, hballot⟩

theorem Extends.added {mp₀ : TxPool} (h : Extends mp₀ mp) (ha : Added mp tx mp') :
    Extends mp₀ mp' := by
  intro block d hd
  rcases ha.listed block with ⟨hlisted, -⟩ | ⟨_, -, hlisted, -⟩
  · rw [hlisted]
    exact h block hd
  · rw [hlisted]
    exact mem_append_left _ (h block hd)

/-- A vote that is accepted is recorded, or has a rival. -/
theorem recorded_added (h : HasRivals mp ∨ Recorded mp) (ha : Added mp tx mp') :
    HasRivals mp' ∨ Recorded mp' := by
  have hmem : ∀ t, t ∈ mp'.txs ↔ t ∈ mp.txs ∨ t = tx := by
    intro t
    rw [ha.txs, mem_append, mem_singleton]
  rcases h with ⟨v, hv, v', hv', hrivals⟩ | h
  · exact .inl ⟨v, (hmem v).2 (.inl hv), v', (hmem v').2 (.inl hv'), hrivals⟩
  by_cases hrival : HasRivals mp'
  · exact .inl hrival
  refine .inr fun block d => ?_
  rcases ha.listed block with ⟨hlisted, hknown⟩ | ⟨d', hballot, hlisted, -⟩
  · rw [hlisted, h block d]
    constructor
    · rintro ⟨t, ht, hballot⟩
      exact ⟨t, (hmem t).2 (.inl ht), hballot⟩
    · rintro ⟨t, ht, hballot⟩
      rcases (hmem t).1 ht with ht | rfl
      · exact ⟨t, ht, hballot⟩
      · -- the vote was not listed because of another one, which is in the pool
        obtain ⟨d', hd', hticket⟩ := mem_map.1 (hknown d hballot)
        obtain ⟨v, hv, hballot'⟩ := (h block d').1 hd'
        exact absurd ⟨v, (hmem v).2 (.inl hv), t, ht,
          fun heq => ha.fresh v hv (heq ▸ rfl), block, d', d, hballot', hballot, hticket⟩ hrival
  · rw [hlisted, mem_append, mem_singleton, h block d]
    constructor
    · rintro (⟨t, ht, hballot'⟩ | rfl)
      · exact ⟨t, (hmem t).2 (.inl ht), hballot'⟩
      · exact ⟨tx, (hmem tx).2 (.inr rfl), hballot⟩
    · rintro ⟨t, ht, hballot'⟩
      rcases (hmem t).1 ht with ht | rfl
      · exact .inl ⟨t, ht, hballot'⟩
      · rw [hballot] at hballot'
        cases hballot'
        exact .inr rfl

theorem listed_congr (h : mp'.votes = mp.votes) : mp'.listed = mp.listed := by
  unfold TxPool.listed
  rw [h]

theorem VoteInv.congr (h : VoteInv n mp) (hvotes : mp'.votes = mp.votes) : VoteInv n mp' := by
  obtain ⟨htickets, hnamed⟩ := h
  rw [← listed_congr hvotes] at htickets hnamed
  exact ⟨htickets, hnamed⟩

theorem voteInv_new (n : Naming) : VoteInv n newTxPool := ⟨fun _ => nodup_nil, nofun⟩

theorem recorded_new : Recorded newTxPool := fun _ _ => ⟨nofun, nofun⟩

/-- **The vote invariant** holds in every history. -/
theorem voteInv_preserved (hw : n.Honest w) :
    Preserved w cfg n.Names fun mp =>
      IndexInv cfg n mp ∧ (∀ o ∈ mp.orphans, n.Names o) ∧ VoteInv n mp where
  toPreservedByIntake := preservedByIntake_of_added hw (fun _ => id)
    (fun _ _ hs h => h.congr hs.votes) fun _ _ _ hN ha h => h.added hN ha
  drop mp hash h := by
    have hd := (dropped_dropTransaction h.1.nodup hash).1
    exact ⟨h.1.dropped hd, (h.1.dropped hd).orphansNamed, h.2.2.congr hd.votes⟩

/-- Intake lists every new vote, unless it has a rival. -/
theorem recorded_preserved (hw : n.Honest w) (mp₀ : TxPool) :
    PreservedByIntake w cfg n.Names fun mp =>
      IndexInv cfg n mp ∧ (∀ o ∈ mp.orphans, n.Names o) ∧
        Extends mp₀ mp ∧ (HasRivals mp ∨ Recorded mp) := by
  refine preservedByIntake_of_added hw (fun _ => id) (fun mp mp' hs h => ?_)
    fun mp tx mp' _ ha h => ?_
  · have htxs : mp'.txs = mp.txs := by rw [TxPool.txs, TxPool.txs, hs.pool]
    unfold Extends HasRivals Recorded at h ⊢
    rw [listed_congr hs.votes, htxs]
    exact h
  · exact ⟨h.1.added ha, recorded_added h.2 ha⟩

/-! ## The index against the pool -/

/-- **The index is right**: `VoteHashesForBlock` returns the hashes of the votes of the pool on the
block, each once, `VotesForBlocks` lists the same votes, and there are no more entries than votes.
-/
structure VotesRight (mp : TxPool) : Prop where
  hashes : ∀ block hash, hash ∈ mp.voteHashesForBlock block ↔
    ∃ t ∈ mp.txs, (∃ d, t.ballot? = some (block, d)) ∧ t.hash = hash
  once : ∀ block, (mp.voteHashesForBlock block).Nodup
  votes : ∀ blocks, List.Forall₂ (fun block votes => ∀ d, d ∈ votes ↔
    ∃ t ∈ mp.txs, t.ballot? = some (block, d)) blocks (mp.votesForBlocks blocks)
  bound : ∀ blocks, blocks.Nodup →
    ((mp.votesForBlocks blocks).map List.length).sum ≤ mp.txs.countP (·.isSSGen)

theorem VoteInv.voteHash_inj (h : VoteInv n mp) {block' : Hash} {d' : VoteDesc}
    (hd : d ∈ mp.listed block) (hd' : d' ∈ mp.listed block') (heq : d.voteHash = d'.voteHash) :
    block = block' ∧ d = d' := by
  obtain ⟨t, ht, hballot⟩ := h.named block d hd
  obtain ⟨t', ht', hballot'⟩ := h.named block' d' hd'
  rw [voteHash_of_ballot? hballot, voteHash_of_ballot? hballot'] at heq
  rw [ht.eq ht' heq, hballot'] at hballot
  cases hballot
  exact ⟨rfl, rfl⟩

theorem VoteInv.once (h : VoteInv n mp) (block : Hash) : (mp.voteHashesForBlock block).Nodup :=
  (h.tickets block).of_map _ |>.map_on fun _ hd _ hd' heq => (h.voteHash_inj hd hd' heq).2

theorem VoteInv.nodup_flatMap (h : VoteInv n mp) {blocks : List Hash} (hblocks : blocks.Nodup) :
    (blocks.flatMap mp.voteHashesForBlock).Nodup := by
  rw [List.nodup_flatMap]
  refine ⟨fun block _ => h.once block, hblocks.imp fun {block block'} hne hash hin hin' => ?_⟩
  obtain ⟨d, hd, rfl⟩ := mem_map.1 hin
  obtain ⟨d', hd', heq⟩ := mem_map.1 hin'
  exact hne (h.voteHash_inj hd hd' heq.symm).1

theorem votesRight_of_recorded (hv : VoteInv n mp) (hr : Recorded mp) : VotesRight mp := by
  have hhashes : ∀ block hash, hash ∈ mp.voteHashesForBlock block ↔
      ∃ t ∈ mp.txs, (∃ d, t.ballot? = some (block, d)) ∧ t.hash = hash := by
    intro block hash
    constructor
    · intro hmem
      obtain ⟨d, hd, rfl⟩ := mem_map.1 hmem
      obtain ⟨t, ht, hballot⟩ := (hr block d).1 hd
      exact ⟨t, ht, ⟨d, hballot⟩, (voteHash_of_ballot? hballot).symm⟩
    · rintro ⟨t, ht, ⟨d, hballot⟩, rfl⟩
      rw [← voteHash_of_ballot? hballot]
      exact mem_map_of_mem ((hr block d).2 ⟨t, ht, hballot⟩)
  refine ⟨hhashes, hv.once, fun blocks => ?_, fun blocks hblocks => ?_⟩
  · unfold votesForBlocks
    rw [forall₂_map_right_iff, forall₂_same]
    exact fun block _ d => hr block d
  · have hsub : blocks.flatMap mp.voteHashesForBlock ⊆
        (mp.txs.filter (·.isSSGen)).map (·.hash) := by
      intro hash hmem
      obtain ⟨block, -, hmem⟩ := mem_flatMap.1 hmem
      obtain ⟨t, ht, ⟨d, hballot⟩, rfl⟩ := (hhashes block hash).1 hmem
      exact mem_map_of_mem (mem_filter.2 ⟨ht, isSSGen_of_ballot? hballot⟩)
    have hle := (subperm_of_subset (hv.nodup_flatMap hblocks) hsub).length_le
    rw [length_flatMap, length_map, ← countP_eq_length_filter] at hle
    unfold votesForBlocks
    rw [map_map]
    simpa [voteHashesForBlock, Function.comp_def] using hle

theorem recorded_of_votesRight (h : IndexInv cfg n mp) (hv : VoteInv n mp) (hr : VotesRight mp) :
    Recorded mp := by
  intro block d
  constructor
  · intro hd
    obtain ⟨t, ht, hballot⟩ := hv.named block d hd
    obtain ⟨t', ht', -, heq⟩ := (hr.hashes block d.voteHash).1 (mem_map_of_mem hd)
    rw [voteHash_of_ballot? hballot] at heq
    exact ⟨t, (h.named t' ht').eq ht heq ▸ ht', hballot⟩
  · rintro ⟨t, ht, hballot⟩
    obtain ⟨d', hd', heq⟩ := mem_map.1 ((hr.hashes block t.hash).2 ⟨t, ht, ⟨d, hballot⟩, rfl⟩)
    obtain ⟨t', ht', hballot'⟩ := hv.named block d' hd'
    rw [voteHash_of_ballot? hballot'] at heq
    rw [ht'.eq (h.named t ht) heq, hballot] at hballot'
    cases hballot'
    exact hd'

end TxPool

/-! ## Histories -/

/-- The call takes a vote out of the pool. -/
def PoolStep.LosesVote (s : PoolStep) : Prop :=
  ∃ v ∈ s.before.txs, v.isSSGen = true ∧ v ∉ s.after.txs

/-- A transaction that may be in the pool after the call. -/
def PoolStep.Offers (s : PoolStep) (t : Tx) : Prop :=
  t ∈ s.before.txs ∨ t ∈ s.before.orphans ∨ t ∈ s.op.tx?

/-- The call may take a vote out, or find two votes of one ticket on one block. This can be told
from the pool before the call. -/
def PoolStep.Endangers (w : World) (s : PoolStep) : Prop :=
  (∃ v ∈ s.before.txs, v.isSSGen = true ∧ s.op.Takes w s.before v) ∨
    ∃ v v', s.Offers v ∧ s.Offers v' ∧ Rivals v v'

section Run

variable {s : PoolStep} {steps : List PoolStep}

/-- **One call**, from a pool whose votes are recorded. -/
theorem recorded_iff (hw : n.Honest w) (h : IndexInv cfg n s.before) (hr : Recorded s.before)
    (hN : ∀ tx ∈ s.op.tx?, n.Names tx) (hrun : s.op.run w cfg s.before = some s.after)
    (h' : IndexInv cfg n s.after ∧ VoteInv n s.after) :
    Recorded s.after ↔ ¬s.LosesVote ∧ ¬HasRivals s.after := by
  have hcases : (Extends s.before s.after ∧ (HasRivals s.after ∨ Recorded s.after)) ∨
      Dropped s.before s.after := by
    by_cases hop : s.op.IsIntake
    · exact .inl (intake_inv (recorded_preserved hw s.before)
        ⟨h, h.orphansNamed, fun _ _ hd => hd, .inr hr⟩ hop hN _ hrun).2.2
    · exact .inr (takes_of_removal h hop hN _ hrun).dropped
  constructor
  · intro hr'
    refine ⟨?_, ?_⟩
    · rintro ⟨v, hv, hvote, hgone⟩
      obtain ⟨block, d, hballot⟩ := ballot?_of_isSSGen hvote
      have hd : d ∈ s.after.listed block := by
        have hold := (hr block d).2 ⟨v, hv, hballot⟩
        rcases hcases with ⟨hext, -⟩ | hd
        · exact hext block hold
        · rwa [listed_congr hd.votes]
      obtain ⟨t, ht, hballot'⟩ := (hr' block d).1 hd
      have heq := (voteHash_of_ballot? hballot').symm.trans (voteHash_of_ballot? hballot)
      exact hgone ((h'.1.named t ht).eq (h.named v hv) heq ▸ ht)
    · rintro ⟨v, hv, v', hv', hne, block, d, d', hballot, hballot', hticket⟩
      have hdd : d = d' := inj_on_of_nodup_map (h'.2.tickets block)
        ((hr' block d).2 ⟨v, hv, hballot⟩) ((hr' block d').2 ⟨v', hv', hballot'⟩) hticket
      have heq := (voteHash_of_ballot? hballot).symm.trans (hdd ▸ voteHash_of_ballot? hballot')
      exact hne ((h'.1.named v hv).eq (h'.1.named v' hv') heq)
  · rintro ⟨hkeeps, halone⟩
    rcases hcases with ⟨-, hrivals | hr'⟩ | hd
    · exact absurd hrivals halone
    · exact hr'
    · intro block d
      rw [listed_congr hd.votes, hr block d]
      constructor
      · rintro ⟨t, ht, hballot⟩
        refine ⟨t, ?_, hballot⟩
        by_contra hgone
        exact hkeeps ⟨t, ht, isSSGen_of_ballot? hballot, hgone⟩
      · rintro ⟨t, ht, hballot⟩
        exact ⟨t, hd.subset ht, hballot⟩

/-- What the calls that take in bring into the pool was offered. -/
theorem offered_preserved (hw : n.Honest w) (S : Tx → Prop) :
    PreservedByIntake w cfg (fun tx => n.Names tx ∧ S tx) fun mp =>
      IndexInv cfg n mp ∧ (∀ o ∈ mp.orphans, n.Names o ∧ S o) ∧ ∀ t ∈ mp.txs, S t := by
  refine preservedByIntake_of_added hw (fun _ => And.left) (fun mp mp' hs h => ?_)
    fun mp tx mp' hN ha h => ?_
  · unfold TxPool.txs at h ⊢
    rwa [hs.pool]
  · rw [ha.txs]
    exact forall_mem_append.2 ⟨h, forall_mem_singleton.2 hN.2⟩

theorem endangers_of (hw : n.Honest w) (h : IndexInv cfg n s.before)
    (hN : ∀ tx ∈ s.op.tx?, n.Names tx) (hrun : s.op.run w cfg s.before = some s.after)
    (hs : s.LosesVote ∨ HasRivals s.after) : s.Endangers w := by
  by_cases hop : s.op.IsIntake
  · rcases hs with ⟨v, hv, -, hgone⟩ | ⟨v, hv, v', hv', hrivals⟩
    · exact absurd ((txs_of_isIntake hw h hop hN hrun).1 hv) hgone
    · obtain ⟨-, -, hoffered⟩ := intake_inv (offered_preserved hw s.Offers)
        ⟨h, fun o ho => ⟨h.orphansNamed o ho, .inr (.inl ho)⟩, fun _ ht => .inl ht⟩ hop
        (fun tx htx => ⟨hN tx htx, .inr (.inr htx)⟩) _ hrun
      exact .inr ⟨v, v', hoffered v hv, hoffered v' hv', hrivals⟩
  · have htaking := takes_of_removal h hop hN _ hrun
    rcases hs with ⟨v, hv, hvote, hgone⟩ | ⟨v, hv, v', hv', hrivals⟩
    · exact .inl ⟨v, hv, hvote, htaking.only v hv hgone⟩
    · exact .inr ⟨v, v', .inl (htaking.dropped.subset hv), .inl (htaking.dropped.subset hv'),
        hrivals⟩

/-- **The vote index.** After every call of a history the index is right, exactly if no call takes a
vote out of the pool and none leaves the pool with two votes of one ticket on one block. A call that
takes out no vote, where no two such votes are at hand, does neither. -/
theorem votes_run (hw : n.Honest w) (hrun : PoolRun w cfg steps mp)
    (hN : ∀ s ∈ steps, ∀ tx ∈ s.op.tx?, n.Names tx) :
    ((∀ s ∈ steps, VotesRight s.after) ↔ ∀ s ∈ steps, ¬s.LosesVote ∧ ¬HasRivals s.after) ∧
      ∀ s ∈ steps, s.LosesVote ∨ HasRivals s.after → s.Endangers w := by
  have hbefore := hrun.inv_before (voteInv_preserved hw)
    ⟨indexInv_new cfg n, nofun, voteInv_new n⟩ hN
  have hafter : ∀ s ∈ steps, IndexInv cfg n s.after ∧ VoteInv n s.after := fun s hs =>
    (run_inv (voteInv_preserved hw) (hbefore s hs).1 (hN s hs) _ (hbefore s hs).2).imp_right
      And.right
  refine ⟨hrun.forall_iff (G := Recorded) recorded_new (fun s hs hr => ?_) fun s hs hright => ?_,
    fun s hs => endangers_of hw (hbefore s hs).1.1 (hN s hs) (hbefore s hs).2⟩
  · rw [← recorded_iff hw (hbefore s hs).1.1 hr (hN s hs) (hbefore s hs).2 (hafter s hs)]
    exact ⟨recorded_of_votesRight (hafter s hs).1 (hafter s hs).2,
      votesRight_of_recorded (hafter s hs).2⟩
  · exact recorded_of_votesRight (hafter s hs).1 (hafter s hs).2 hright

end Run

open SmallPool in
/-- Two votes for two tickets, on one block. -/
theorem votes_run_voteB : ∃ mp₁ mp₂, PoolRun world (.regNet 0) ([] ++
        [⟨newTxPool, .processTransaction voteA false false true, mp₁⟩] ++
        [⟨mp₁, .processTransaction voteB false false true, mp₂⟩]) mp₂ ∧
      mp₂.voteHashesForBlock (Hash.ofNat 50) = [voteA.hash, voteB.hash] ∧
      VotesRight mp₁ ∧ VotesRight mp₂ := by
  have hcalls : (do
      let mp₁ ← (PoolOp.processTransaction voteA false false true).run world (.regNet 0) newTxPool
      let mp₂ ← (PoolOp.processTransaction voteB false false true).run world (.regNet 0) mp₁
      some (mp₁.txs, mp₂.txs, mp₂.voteHashesForBlock (Hash.ofNat 50))) =
      some ([voteA], [voteA, voteB], [voteA.hash, voteB.hash]) := by decide +kernel
  obtain ⟨mp₁, hmp₁, hcalls⟩ := Option.bind_eq_some_iff.1 hcalls
  obtain ⟨mp₂, hmp₂, hcalls⟩ := Option.bind_eq_some_iff.1 hcalls
  simp only [Option.some.injEq, Prod.mk.injEq] at hcalls
  obtain ⟨htxs₁, htxs₂, hhashes⟩ := hcalls
  have hrun := PoolRun.call (.call .new hmp₁) hmp₂
  have hone : ∀ v ∈ [voteA, voteB], ∀ v' ∈ [voteA, voteB],
      v.ballot?.map (·.2.ticketHash) = v'.ballot?.map (·.2.ticketHash) → v = v' := by decide +kernel
  have hrivals : ∀ mp : TxPool, mp.txs ⊆ [voteA, voteB] → ¬HasRivals mp := by
    rintro mp hsub ⟨v, hv, v', hv', hne, block, d, d', hd, hd', hticket⟩
    exact hne (hone v (hsub hv) v' (hsub hv') (by simp [hd, hd', hticket]))
  have hright := (votes_run honest_world hrun
    (by simp [PoolOp.tx?, names_voteA, names_voteB])).1.2 (by
      simp only [nil_append, forall_mem_append, forall_mem_singleton]
      refine ⟨⟨fun h => h.elim fun _ hv => (not_mem_nil hv.1).elim, hrivals _ (by simp [htxs₁])⟩,
        ?_, hrivals _ (by simp [htxs₂])⟩
      rintro ⟨v, hv, -, hgone⟩
      rw [htxs₁] at hv
      exact hgone (htxs₂ ▸ mem_append_left [voteB] hv))
  simp only [nil_append, forall_mem_append, forall_mem_singleton] at hright
  exact ⟨mp₁, mp₂, hrun, hhashes, hright⟩

open SmallPool in
/-- A vote is accepted and leaves the pool, which is empty then. The index still lists it. -/
theorem votes_unpruned : ∃ mp₁ mp₂, PoolRun world (.regNet 0) ([] ++
        [⟨newTxPool, .processTransaction voteA false false true, mp₁⟩] ++
        [⟨mp₁, .removeTransaction voteA true, mp₂⟩]) mp₂ ∧
      mp₂.txs = [] ∧ mp₂.voteHashesForBlock (Hash.ofNat 50) = [voteA.hash] ∧ ¬VotesRight mp₂ := by
  have hcalls : (do
      let mp₁ ← (PoolOp.processTransaction voteA false false true).run world (.regNet 0) newTxPool
      let mp₂ ← (PoolOp.removeTransaction voteA true).run world (.regNet 0) mp₁
      some (mp₂.txs, mp₂.voteHashesForBlock (Hash.ofNat 50))) = some ([], [voteA.hash]) := by
    decide +kernel
  obtain ⟨mp₁, hmp₁, hcalls⟩ := Option.bind_eq_some_iff.1 hcalls
  obtain ⟨mp₂, hmp₂, hcalls⟩ := Option.bind_eq_some_iff.1 hcalls
  obtain ⟨htxs, hhashes⟩ := Prod.mk.inj (Option.some.inj hcalls)
  refine ⟨mp₁, mp₂, .call (.call .new hmp₁) hmp₂, htxs, hhashes, fun hright => ?_⟩
  obtain ⟨t, ht, -⟩ := (hright.hashes (Hash.ofNat 50) voteA.hash).1 (by simp [hhashes])
  rw [htxs] at ht
  cases ht

end Fnod
