import Fnod.Mempool.Accepted
import Fnod.Mempool.OrphanTxs
import Mathlib.Logic.Relation

/-!
# The index of spent outpoints

`outpoints` maps an outpoint to the transaction of the pool that spends it. Votes and revocations
are accepted also if another one redeems the same ticket, and then one entry stands for all of them;
it is deleted with the first of them that leaves.

**Theorem (`outpoints_run`).** The index is right after every call exactly if no call takes a vote
or a revocation out of the pool and leaves another one of the same ticket (`Strays`).

The index is always right about outputs that are not tickets, and an entry always names a spender
(`IndexInv`). What a removal does is said once (`Dropped`): some transactions leave, and the entries
of all that they spend go with them. The recursion over redeemers is `removeTransactionRec_spec`, by
induction over the fuel; the rank of a hash bounds its depth.
-/

namespace Fnod

open List Relation TxPool

variable {n : Naming} {w : World} {cfg : PoolConfig} {mp mp' : TxPool} {tx t : Tx} {op : OutPoint}

namespace TxPool

def txs (mp : TxPool) : List Tx := mp.pool.map (·.tx)

variable {env : PoolEnv} {k : Nat}

/-- What always holds of the index. -/
structure IndexInv (cfg : PoolConfig) (n : Naming) (mp : TxPool) : Prop where
  nodup : (mp.txs.map (·.hash)).Nodup
  named : ∀ t ∈ mp.txs, n.Names t
  kinds : ∀ t ∈ mp.txs, n.Kinds t
  sound : ∀ op t, mp.outpoints op = some t → t ∈ mp.txs ∧ op ∈ t.prevOuts
  plain : ∀ t ∈ mp.txs, ∀ op ∈ t.prevOuts, op ≠ nullOutPoint → ¬n.Ticket op →
    mp.outpoints op = some t
  orphans : OrphansRight cfg mp
  orphansNamed : ∀ o ∈ mp.orphans, n.Names o

/-- What a removal changes: transactions leave, and the entries of what they spend are deleted. -/
structure Dropped (mp mp' : TxPool) : Prop where
  pool : mp'.pool.Sublist mp.pool
  cleared : ∀ t ∈ mp.txs, t ∉ mp'.txs → ∀ op ∈ t.prevOuts, mp'.outpoints op = none
  kept : ∀ op, (∀ t ∈ mp.txs, op ∈ t.prevOuts → t ∈ mp'.txs) → mp'.outpoints op = mp.outpoints op
  orphans : SameOrphans mp mp'
  votes : mp'.votes = mp.votes

theorem Dropped.subset (h : Dropped mp mp') : mp'.txs ⊆ mp.txs := (h.pool.map _).subset

theorem Dropped.refl (mp : TxPool) : Dropped mp mp :=
  ⟨.refl _, fun _ ht hnot => absurd ht hnot, fun _ _ => rfl, ⟨rfl, rfl⟩, rfl⟩

theorem Dropped.outpoints (h : Dropped mp mp') (op : OutPoint) :
    mp'.outpoints op = none ∨ mp'.outpoints op = mp.outpoints op := by
  by_cases hall : ∀ t ∈ mp.txs, op ∈ t.prevOuts → t ∈ mp'.txs
  · exact .inr (h.kept op hall)
  · simp only [not_forall] at hall
    obtain ⟨t, ht, hop, hnot⟩ := hall
    exact .inl (h.cleared t ht hnot op hop)

theorem Dropped.none (h : Dropped mp mp') (hop : mp.outpoints op = none) :
    mp'.outpoints op = none := by
  rcases h.outpoints op with hnone | hsame
  · exact hnone
  · rw [hsame, hop]

theorem Dropped.of_some (h : Dropped mp mp') (hop : mp'.outpoints op = some t) :
    mp.outpoints op = some t := by
  rcases h.outpoints op with hnone | hsame
  · rw [hnone] at hop
    cases hop
  · exact hsame ▸ hop

theorem Dropped.trans {mp'' : TxPool} (h : Dropped mp mp') (h' : Dropped mp' mp'') :
    Dropped mp mp'' := by
  refine ⟨h'.pool.trans h.pool, fun t ht hnot op hop => ?_, fun op hall => ?_,
    ⟨h'.orphans.1.trans h.orphans.1, h'.orphans.2.trans h.orphans.2⟩, h'.votes.trans h.votes⟩
  · by_cases ht' : t ∈ mp'.txs
    · exact h'.cleared t ht' hnot op hop
    · exact h'.none (h.cleared t ht ht' op hop)
  · rw [h'.kept op fun t ht hop => hall t (h.subset ht) hop,
      h.kept op fun t ht hop => h'.subset (hall t ht hop)]

theorem Dropped.ask (mp : TxPool) : Dropped mp mp.ask :=
  ⟨.refl _, fun _ ht hnot => absurd ht hnot, fun _ _ => rfl, ⟨rfl, rfl⟩, rfl⟩

/-- **One transaction leaves.** -/
theorem dropped_dropTransaction (hnodup : (mp.txs.map (·.hash)).Nodup) (hash : Hash) :
    Dropped mp (mp.dropTransaction hash) ∧
      ∀ t, t ∈ (mp.dropTransaction hash).txs ↔ t ∈ mp.txs ∧ t.hash ≠ hash := by
  unfold dropTransaction
  cases hfind : mp.pool.find? (·.tx.hash = hash) with
  | none =>
    refine ⟨.refl mp, fun t => ⟨fun ht => ⟨ht, ?_⟩, And.left⟩⟩
    obtain ⟨desc, hdesc, rfl⟩ := mem_map.1 ht
    simpa using List.find?_eq_none.1 hfind desc hdesc
  | some desc =>
    have hdesc := mem_of_find?_eq_some hfind
    have hhash : desc.tx.hash = hash := by simpa using List.find?_some hfind
    have hmem : ∀ t, t ∈ (mp.pool.filter (·.tx.hash ≠ hash)).map (·.tx) ↔
        t ∈ mp.txs ∧ t.hash ≠ hash := by
      intro t
      simp only [txs, mem_map, mem_filter, ne_eq, decide_not, Bool.not_eq_eq_eq_not, Bool.not_true,
        decide_eq_false_iff_not]
      constructor
      · rintro ⟨d, ⟨hd, hne⟩, rfl⟩
        exact ⟨⟨d, hd, rfl⟩, hne⟩
      · rintro ⟨⟨d, hd, rfl⟩, hne⟩
        exact ⟨d, ⟨hd, hne⟩, rfl⟩
    -- the transaction that leaves is the only one of its hash
    have hgone : ∀ t ∈ mp.txs, t.hash = hash → t = desc.tx := fun t ht heq =>
      inj_on_of_nodup_map hnodup ht (mem_map_of_mem hdesc) (heq.trans hhash.symm)
    refine ⟨⟨filter_sublist, fun t ht hnot op hop => ?_, fun op hall => ?_, ⟨rfl, rfl⟩, rfl⟩, hmem⟩
    · have heq : t.hash = hash := by
        by_contra hne
        exact hnot ((hmem t).2 ⟨ht, hne⟩)
      exact if_pos (hgone t ht heq ▸ hop)
    · refine if_neg fun hop => ?_
      exact ((hmem _).1 (hall desc.tx (mem_map_of_mem hdesc) hop)).2 hhash

theorem IndexInv.dropped (h : IndexInv cfg n mp) (hd : Dropped mp mp') : IndexInv cfg n mp' := by
  refine ⟨h.nodup.sublist ((hd.pool.map _).map _), fun t ht => h.named t (hd.subset ht),
    fun t ht => h.kinds t (hd.subset ht), fun op t hop => ?_, fun t ht op hop hnull hticket => ?_,
    h.orphans.congr hd.orphans, fun o ho => h.orphansNamed o (hd.orphans.1 ▸ ho)⟩
  · obtain ⟨ht, hin⟩ := h.sound op t (hd.of_some hop)
    refine ⟨?_, hin⟩
    by_contra hnot
    rw [hd.cleared t ht hnot op hin] at hop
    cases hop
  · have hentry := h.plain t (hd.subset ht) op hop hnull hticket
    rw [hd.kept op fun t' ht' hop' => ?_]
    · exact hentry
    · cases hentry.symm.trans (h.plain t' ht' op hop' hnull hticket)
      exact ht

/-! ## Acceptance -/

/-- What acceptance changes: one transaction enters, and takes over the entries it spends. -/
structure Added (mp : TxPool) (tx : Tx) (mp' : TxPool) : Prop where
  fresh : ∀ t ∈ mp.txs, t.hash ≠ tx.hash
  txs : mp'.txs = mp.txs ++ [tx]
  outpoints : mp'.outpoints = fun op => if op ∈ tx.prevOuts then some tx else mp.outpoints op
  orphans : SameOrphans mp mp'
  votes : ∃ mid : TxPool, mid.votes = mp.votes ∧ mid.recordVote tx = some mp'

variable {view : UtxoViewpoint}

theorem fresh_of_passed (h : Passed cfg env mp tx view) (ht : t ∈ mp.txs) : t.hash ≠ tx.hash := by
  obtain ⟨d, hd, rfl⟩ := mem_map.1 ht
  simpa using any_eq_false.1 h.fresh d hd

theorem added_of_accepted {height : Nat} {fee : Int} (h : Passed cfg env mp tx view)
    (hvote : (mp.ask.addTransaction tx height fee).recordVote tx = some mp') : Added mp tx mp' := by
  have hrecord := hvote
  obtain ⟨votes, rfl⟩ := recordVote_frame hvote
  have hpool : mp.pool.filter (fun d => decide (d.tx.hash ≠ tx.hash)) = mp.pool := by
    refine filter_eq_self.2 fun d hd => ?_
    have hne := any_eq_false.1 h.fresh d hd
    simpa using hne
  refine ⟨fun t ht => fresh_of_passed h ht, ?_, rfl, ⟨rfl, rfl⟩,
    mp.ask.addTransaction tx height fee, rfl, hrecord⟩
  show ((mp.pool.filter fun d => decide (d.tx.hash ≠ tx.hash)) ++ _).map _ = _
  rw [hpool, map_append]
  rfl

/-- An outpoint that the new transaction spends was free, or is a ticket or a stakebase. -/
theorem IndexInv.free (h : IndexInv cfg n mp) (hw : n.Honest w)
    (hp : Passed cfg (w.env k) mp tx view) (hop : op ∈ tx.prevOuts) :
    mp.outpoints op = none ∨ op = nullOutPoint ∨ n.Ticket op := by
  have hpool : ∀ d ∈ mp.pool, n.Names d.tx := fun d hd => h.named _ (mem_map_of_mem hd)
  by_cases hredeemer : (tx.isSSGen || tx.isSSRtx) = true
  · obtain ⟨txIn, -, hticket, hmem⟩ := ticket?_of_redeemer hredeemer
    rcases (hmem op).1 hop with rfl | ⟨-, hnull⟩
    · exact .inr (.inr ((accepted_kinds hw hpool hp).redeemer _ hticket))
    · exact .inr (.inl hnull)
  · exact .inl (outpoints_of_passed hp (by simpa using hredeemer) hop)

theorem IndexInv.added (h : IndexInv cfg n mp) (hw : n.Honest w) (hN : n.Names tx)
    (hp : Passed cfg (w.env k) mp tx view) (ha : Added mp tx mp') : IndexInv cfg n mp' := by
  have hpool : ∀ d ∈ mp.pool, n.Names d.tx := fun d hd => h.named _ (mem_map_of_mem hd)
  have hmem : ∀ t, t ∈ mp'.txs ↔ t ∈ mp.txs ∨ t = tx := by
    intro t
    rw [ha.txs, mem_append, mem_singleton]
  have hat : ∀ op, mp'.outpoints op = if op ∈ tx.prevOuts then some tx else mp.outpoints op :=
    fun op => congrFun ha.outpoints op
  refine ⟨?_, fun t ht => ?_, fun t ht => ?_, fun op t hop => ?_,
    fun t ht op hop hnull hticket => ?_,
    h.orphans.congr ha.orphans, fun o ho => h.orphansNamed o (ha.orphans.1 ▸ ho)⟩
  · rw [ha.txs, map_append, nodup_append]
    refine ⟨h.nodup, nodup_singleton _, ?_⟩
    rintro _ hx _ hy rfl
    obtain ⟨t, ht, heq⟩ := mem_map.1 hx
    exact ha.fresh t ht (heq.trans (mem_singleton.1 hy))
  · rcases (hmem t).1 ht with ht | rfl
    · exact h.named t ht
    · exact hN
  · rcases (hmem t).1 ht with ht | rfl
    · exact h.kinds t ht
    · exact accepted_kinds hw hpool hp
  · rw [hat] at hop
    split_ifs at hop with hin
    · cases hop
      exact ⟨(hmem _).2 (.inr rfl), hin⟩
    · obtain ⟨ht, hop'⟩ := h.sound op t hop
      exact ⟨(hmem t).2 (.inl ht), hop'⟩
  · rw [hat]
    rcases (hmem t).1 ht with ht | rfl
    · have hentry := h.plain t ht op hop hnull hticket
      rw [if_neg fun hin => ?_]
      · exact hentry
      · rcases h.free hw hp hin with hnone | hnull' | hticket'
        · rw [hnone] at hentry
          cases hentry
        · exact hnull hnull'
        · exact hticket hticket'
    · exact if_pos hop

theorem IndexInv.congr (h : IndexInv cfg n mp) (hs : SamePool mp mp') (ho : OrphansRight cfg mp')
    (hnamed : ∀ o ∈ mp'.orphans, n.Names o) : IndexInv cfg n mp' := by
  have htxs : mp'.txs = mp.txs := by rw [TxPool.txs, TxPool.txs, hs.pool]
  refine ⟨?_, ?_, ?_, ?_, ?_, ho, hnamed⟩
  · rw [htxs]
    exact h.nodup
  · rw [htxs]
    exact h.named
  · rw [htxs]
    exact h.kinds
  · rw [htxs, hs.outpoints]
    exact h.sound
  · rw [htxs, hs.outpoints]
    exact h.plain

theorem IndexInv.ask (h : IndexInv cfg n mp) : IndexInv cfg n mp.ask :=
  h.congr ⟨rfl, rfl, rfl⟩ (h.orphans.congr ⟨rfl, rfl⟩) h.orphansNamed

/-- **The index invariant** holds in every history. -/
theorem indexInv_preserved (hw : n.Honest w) : Preserved w cfg n.Names (IndexInv cfg n) where
  ask _ h := h.ask
  drop mp hash h := h.dropped (dropped_dropTransaction h.nodup hash).1
  orphan mp op o h ho := h.orphansNamed o ((h.orphans.linked.mem op o).1 ho).1
  removeOrphan mp tx removeRedeemers h := by
    refine ((removeOrphan_spec h.orphans.linked tx removeRedeemers).imp fun mp' hs => ?_).ensures
    exact h.congr hs.1.same (h.orphans.shrinks hs.1) fun o ho =>
      h.orphansNamed o (hs.1.sublist.subset ho)
  addOrphan mp tx h hN hnew := by
    refine ((addOrphan_spec h.orphans hnew).imp fun mp' hadd => ?_).ensures
    obtain ⟨hright, hsame, hmem⟩ := hadd
    refine h.congr hsame hright fun o ho => ?_
    rcases hmem o ho with ho | rfl
    · exact h.orphansNamed o ho
    · exact hN
  accept mp tx _ _ _ _ h hN := by
    rintro ⟨mp', verdict⟩ hr
    cases maybeAcceptTransaction_step hr with
    | refused => exact h.ask
    | missing => exact h.ask
    | accepted hcheck hvote =>
      obtain ⟨view, hp⟩ := passed_of_checkTransaction hcheck
      exact h.added hw hN hp (added_of_accepted hp hvote)

theorem indexInv_new (cfg : PoolConfig) (n : Naming) : IndexInv cfg n newTxPool :=
  ⟨nodup_nil, nofun, nofun, nofun, nofun, orphansRight_new cfg, nofun⟩

/-! ## `removeTransaction` with its redeemers -/

/-- The index names `t` as a spender of an output of `r`. -/
def Redeemer (mp : TxPool) (r t : Tx) : Prop := ∃ op ∈ r.outPoints, mp.outpoints op = some t

theorem Redeemer.mono (h : Dropped mp mp') : Redeemer mp' ≤ Redeemer mp := by
  rintro r t ⟨op, hop, hsome⟩
  exact ⟨op, hop, h.of_some hsome⟩

/-- What the removal of a transaction with its redeemers does: the transaction and what the index
finds below it leave, and the index has no entry for an output of any of them. -/
structure Evicted (mp : TxPool) (tx : Tx) (mp' : TxPool) : Prop where
  dropped : Dropped mp mp'
  gone : ∀ t ∈ mp'.txs, t.hash ≠ tx.hash
  closed : ∀ r, r = tx ∨ (r ∈ mp.txs ∧ r ∉ mp'.txs) → ∀ op ∈ r.outPoints, mp'.outpoints op = none
  only : ∀ r ∈ mp.txs, r ∉ mp'.txs → ReflTransGen (Redeemer mp) tx r

/-- The number of transactions of the pool with a higher rank. -/
def above (n : Naming) (mp : TxPool) (tx : Tx) : Nat :=
  mp.txs.countP fun t => n.rank tx.hash < n.rank t.hash

theorem mem_outPoints {r : Tx} (h : op ∈ r.outPoints) : op.hash = r.hash := by
  obtain ⟨i, -, rfl⟩ := mem_map.1 h
  rfl

theorem above_lt (hr : n.rank tx.hash < n.rank t.hash) (ht : t ∈ mp.txs) :
    above n mp t < above n mp tx := by
  unfold above
  refine countP_lt_countP_of_imp (fun a _ ha => ?_) ht (by simp) (by simpa using hr)
  simp only [decide_eq_true_eq] at ha ⊢
  omega

theorem above_le (h : Dropped mp mp') (n : Naming) (tx : Tx) : above n mp' tx ≤ above n mp tx :=
  (h.pool.map _).countP_le

/-- The loop over the outputs, while the transaction itself is still in the pool. -/
structure Evicting (mp : TxPool) (tx : Tx) (done : List OutPoint) (mp' : TxPool) : Prop where
  dropped : Dropped mp mp'
  closed : ∀ r ∈ mp.txs, r ∉ mp'.txs → ∀ op ∈ r.outPoints, mp'.outpoints op = none
  only : ∀ r ∈ mp.txs, r ∉ mp'.txs → ReflTransGen (Redeemer mp) tx r
  done : ∀ op ∈ done, mp'.outpoints op = none

theorem Evicting.step {done : List OutPoint} {mp'' : TxPool} (h : Evicting mp tx done mp')
    (hinv : IndexInv cfg n mp') (hop : op ∈ tx.outPoints) (ht : mp'.outpoints op = some t)
    (he : Evicted mp' t mp'') : Evicting mp tx (done ++ [op]) mp'' := by
  obtain ⟨hmem, hspends⟩ := hinv.sound op t ht
  have hredeemer : Redeemer mp tx t := ⟨op, hop, h.dropped.of_some ht⟩
  have hnot : t ∉ mp''.txs := fun ht'' => he.gone t ht'' rfl
  refine ⟨h.dropped.trans he.dropped, fun r hr hr'' => ?_, fun r hr hr'' => ?_, forall_mem_append.2
    ⟨fun op' hop' => he.dropped.none (h.done op' hop'), forall_mem_singleton.2 ?_⟩⟩
  · by_cases hr' : r ∈ mp'.txs
    · exact he.closed r (.inr ⟨hr', hr''⟩)
    · exact fun op' hop' => he.dropped.none (h.closed r hr hr' op' hop')
  · by_cases hr' : r ∈ mp'.txs
    · exact .trans (.single hredeemer) (ReflTransGen.mono (Redeemer.mono h.dropped) _ _
        (he.only r hr' hr''))
    · exact h.only r hr hr'
  · exact he.dropped.cleared t hmem hnot op hspends

/-- **`removeTransaction`** with its redeemers returns. -/
theorem removeTransactionRec_spec (fuel : Nat) (h : IndexInv cfg n mp)
    (hN : n.Names tx) (hfuel : above n mp tx < fuel) :
    Returns (removeTransactionRec fuel mp tx true) (Evicted mp tx) := by
  induction fuel generalizing mp tx with
  | zero => omega
  | succ fuel ih =>
    rw [removeTransactionRec, if_pos rfl]
    refine Returns.map (P := Evicting mp tx tx.outPoints) ?_ fun mp' hev => ?_
    · refine Returns.foldlM (I := Evicting mp tx) ⟨.refl mp, fun _ hr hnot => absurd hr hnot,
        fun _ hr hnot => absurd hr hnot, forall_mem_nil _⟩ fun done op mp' hop hev => ?_
      have hinv := h.dropped hev.dropped
      cases ht : mp'.outpoints op with
      | none =>
        exact returns_some ⟨hev.dropped, hev.closed, hev.only,
          forall_mem_append.2 ⟨hev.done, forall_mem_singleton.2 ht⟩⟩
      | some t =>
        obtain ⟨hmem, hspends⟩ := hinv.sound op t ht
        -- a redeemer has a higher rank than what it redeems
        have hrank : n.rank tx.hash < n.rank t.hash := by
          rw [← mem_outPoints hop]
          exact (hinv.named t hmem).rank_lt hspends
        have hlt := above_lt hrank hmem
        have hle := above_le hev.dropped n tx
        exact (ih hinv (hinv.named t hmem) (by omega)).imp fun mp'' he => hev.step hinv hop ht he
    have hinv := h.dropped hev.dropped
    obtain ⟨hdrop, hmem⟩ := dropped_dropTransaction hinv.nodup tx.hash
    have hcases : ∀ r ∈ mp.txs, r ∉ (mp'.dropTransaction tx.hash).txs → r ∈ mp'.txs → r = tx := by
      intro r hr hnot hr'
      by_contra hne
      exact hnot ((hmem r).2 ⟨hr', fun heq => hne ((h.named r hr).eq hN heq)⟩)
    refine ⟨hev.dropped.trans hdrop, fun t ht => ((hmem t).1 ht).2, ?_, fun r hr hnot => ?_⟩
    · rintro r (rfl | ⟨hr, hnot⟩) op hop
      · exact hdrop.none (hev.done op hop)
      · by_cases hr' : r ∈ mp'.txs
        · obtain rfl := hcases r hr hnot hr'
          exact hdrop.none (hev.done op hop)
        · exact hdrop.none (hev.closed r hr hr' op hop)
    · by_cases hr' : r ∈ mp'.txs
      · rw [hcases r hr hnot hr']
      · exact hev.only r hr hr'

theorem removeTransaction_spec (h : IndexInv cfg n mp) (hN : n.Names tx) :
    Returns (mp.removeTransaction tx true) (Evicted mp tx) := by
  refine removeTransactionRec_spec _ h hN (Nat.lt_succ_of_le ?_)
  have hlen : mp.txs.length = mp.pool.length := length_map _
  exact hlen ▸ countP_le_length

/-! ## Completeness of the index -/

/-- Every outpoint that the pool spends has an entry. -/
def Complete (mp : TxPool) : Prop :=
  ∀ t ∈ mp.txs, ∀ op ∈ t.prevOuts, op ≠ nullOutPoint → (mp.outpoints op).isSome

theorem Complete.added (h : Complete mp) (ha : Added mp tx mp') : Complete mp' := by
  intro t ht op hop hnull
  rw [ha.txs, mem_append, mem_singleton] at ht
  rw [congrFun ha.outpoints op]
  split_ifs with hin
  · rfl
  · rcases ht with ht | rfl
    · exact h t ht op hop hnull
    · exact absurd hop hin

/-- What does not depend on the orphans, and holds on when a transaction enters, is preserved by the
calls that take in. The transactions that enter have property `N` if the orphans have it. -/
theorem preservedByIntake_of_added (hw : n.Honest w) {N : Tx → Prop} {J : TxPool → Prop}
    (hnames : ∀ tx, N tx → n.Names tx) (hsame : ∀ mp mp', SamePool mp mp' → J mp → J mp')
    (hadded : ∀ mp tx mp', N tx → Added mp tx mp' → J mp → J mp') :
    PreservedByIntake w cfg N fun mp =>
      IndexInv cfg n mp ∧ (∀ o ∈ mp.orphans, N o) ∧ J mp where
  ask mp h := ⟨h.1.ask, h.2.1, hsame mp _ ⟨rfl, rfl, rfl⟩ h.2.2⟩
  orphan mp op o h ho := h.2.1 o ((h.1.orphans.linked.mem op o).1 ho).1
  removeOrphan mp tx removeRedeemers h := by
    intro mp' hr
    obtain ⟨_, hsome, hs, -⟩ := removeOrphan_spec (w := w) h.1.orphans.linked tx removeRedeemers
    cases hr.symm.trans hsome
    exact ⟨(indexInv_preserved hw).removeOrphan mp tx _ h.1 mp' hr,
      fun o ho => h.2.1 o (hs.sublist.subset ho), hsame mp mp' hs.same h.2.2⟩
  addOrphan mp tx h hN hnew := by
    intro mp' hr
    obtain ⟨_, hsome, -, hs, hmem⟩ := addOrphan_spec (w := w) h.1.orphans hnew
    cases hr.symm.trans hsome
    refine ⟨(indexInv_preserved hw).addOrphan mp tx h.1 (hnames tx hN) hnew mp' hr, fun o ho => ?_,
      hsame mp mp' hs h.2.2⟩
    rcases hmem o ho with ho | rfl
    · exact h.2.1 o ho
    · exact hN
  accept mp tx _ _ _ _ h hN := by
    rintro ⟨mp', verdict⟩ hr
    refine ⟨(indexInv_preserved hw).accept mp tx _ _ _ _ h.1 (hnames tx hN) _ hr, ?_⟩
    cases maybeAcceptTransaction_step hr with
    | refused => exact ⟨h.2.1, hsame mp _ ⟨rfl, rfl, rfl⟩ h.2.2⟩
    | missing => exact ⟨h.2.1, hsame mp _ ⟨rfl, rfl, rfl⟩ h.2.2⟩
    | accepted hcheck hvote =>
      obtain ⟨view, hp⟩ := passed_of_checkTransaction hcheck
      have ha := added_of_accepted hp hvote
      exact ⟨fun o ho => h.2.1 o (ha.orphans.1 ▸ ho), hadded mp tx mp' hN ha h.2.2⟩

/-- Intake keeps the index complete and takes nothing out of the pool. -/
theorem grows_preserved (hw : n.Honest w) (mp₀ : TxPool) : PreservedByIntake w cfg n.Names fun mp =>
      IndexInv cfg n mp ∧ (∀ o ∈ mp.orphans, n.Names o) ∧
        mp₀.txs ⊆ mp.txs ∧ (Complete mp₀ → Complete mp) := by
  refine preservedByIntake_of_added hw (fun _ => id) (fun mp mp' hs h => ?_)
    fun mp tx mp' _ ha h => ?_
  · unfold Complete TxPool.txs at h ⊢
    rw [hs.pool, hs.outpoints]
    exact h
  · refine ⟨fun t ht => ?_, fun hc => (h.2 hc).added ha⟩
    rw [ha.txs]
    exact mem_append_left _ (h.1 ht)

end TxPool

/-- The transactions that `pruneStakeTx` looks for. -/
def TxDesc.Stale (desc : TxDesc) (requiredStakeDifficulty : Int) (height : Nat) : Prop :=
  (desc.tx.txType = .sstx ∧ desc.height + heightDiffToPruneTicket < height) ∨
    (desc.tx.txType = .sstx ∧
      ∃ out ∈ desc.tx.msgTx.txOut[0]?, out.value < requiredStakeDifficulty) ∨
    ((desc.tx.txType = .ssrtx ∨ desc.tx.txType = .ssgen) ∧
      desc.height + heightDiffToPruneVotes < height)

/-- What a call may take out, read off the pool before it: what it names or looks for, and what
the index finds below that. -/
def PoolOp.Takes (w : World) (mp : TxPool) (t : Tx) : PoolOp → Prop
  | .removeTransaction tx removeRedeemers =>
    t = tx ∨ (removeRedeemers = true ∧ ReflTransGen (Redeemer mp) tx t)
  | .removeDoubleSpends tx => ∃ op ∈ tx.prevOuts, ∃ r, mp.outpoints op = some r ∧
    r.hash ≠ tx.hash ∧ ReflTransGen (Redeemer mp) r t
  | .pruneStakeTx requiredStakeDifficulty height => ∃ desc ∈ mp.pool,
    desc.Stale requiredStakeDifficulty height ∧ ReflTransGen (Redeemer mp) desc.tx t
  | .pruneExpiredTx => ∃ desc ∈ mp.pool,
    isExpired desc.tx ((w.env mp.asked).bestHeight + 1) = true ∧
      ReflTransGen (Redeemer mp) desc.tx t
  | _ => False

namespace TxPool

/-- A loop of removals, so far: all that left has the property. -/
structure Taking (cfg : PoolConfig) (n : Naming) (mp : TxPool) (P : Tx → Prop) (mp' : TxPool) :
    Prop where
  inv : IndexInv cfg n mp'
  dropped : Dropped mp mp'
  only : ∀ t ∈ mp.txs, t ∉ mp'.txs → P t

theorem Taking.refl (h : IndexInv cfg n mp) (P : Tx → Prop) : Taking cfg n mp P mp :=
  ⟨h, .refl mp, fun _ ht hnot => absurd ht hnot⟩

variable {P : Tx → Prop}

theorem Taking.ask (h : Taking cfg n mp P mp') : Taking cfg n mp P mp'.ask :=
  ⟨h.inv.ask, h.dropped.trans (.ask mp'), h.only⟩

theorem Taking.remove (h : Taking cfg n mp P mp') {r : Tx} (hN : n.Names r)
    (hP : ∀ t, ReflTransGen (Redeemer mp) r t → P t) :
    Ensures (mp'.removeTransaction r true) (Taking cfg n mp P) := by
  refine ((removeTransaction_spec h.inv hN).imp fun mp'' he => ?_).ensures
  refine ⟨h.inv.dropped he.dropped, h.dropped.trans he.dropped, fun t ht hnot => ?_⟩
  by_cases ht' : t ∈ mp'.txs
  · exact hP t (ReflTransGen.mono (Redeemer.mono h.dropped) _ _ (he.only t ht' hnot))
  · exact h.only t ht ht'

theorem Taking.pruneIf (h : Taking cfg n mp P mp') {bad : Prop} [Decidable bad] {desc : TxDesc}
    (hN : n.Names desc.tx) (hP : bad → ∀ t, ReflTransGen (Redeemer mp) desc.tx t → P t) :
    Ensures (pruneIf bad mp' desc) (Taking cfg n mp P) := by
  unfold TxPool.pruneIf
  split_ifs with hbad
  · exact h.remove hN (hP hbad)
  · exact ensures_some h

/-- **A call takes out only what it names or looks for**, and what the index finds below that. -/
theorem takes_of_removal (h : IndexInv cfg n mp) {op : PoolOp} (hop : ¬op.IsIntake)
    (hN : ∀ tx ∈ op.tx?, n.Names tx) :
    Ensures (op.run w cfg mp) (Taking cfg n mp (op.Takes w mp ·)) := by
  have hdesc : ∀ desc ∈ mp.pool, n.Names desc.tx := fun desc hd =>
    h.named desc.tx (mem_map_of_mem hd)
  cases op with
  | processTransaction | maybeAcceptTransaction | processOrphans | removeOrphan =>
    exact absurd trivial hop
  | removeTransaction tx removeRedeemers =>
    cases removeRedeemers with
    | true => exact (Taking.refl h _).remove (hN tx rfl) fun t ht => .inr ⟨rfl, ht⟩
    | false =>
      obtain ⟨hd, hmem⟩ := dropped_dropTransaction h.nodup tx.hash
      refine ensures_some ⟨h.dropped hd, hd, fun t ht hnot => .inl ?_⟩
      by_contra hne
      exact hnot ((hmem t).2 ⟨ht, fun heq => hne ((h.named t ht).eq (hN tx rfl) heq)⟩)
  | removeDoubleSpends tx =>
    refine Ensures.foldlM (Taking.refl h _) fun op mp' hop h' => ?_
    cases hr : mp'.outpoints op with
    | none => exact ensures_some h'
    | some r =>
      dsimp only
      split_ifs with hne
      · refine h'.remove (h'.inv.named r (h'.inv.sound op r hr).1) fun t ht => ?_
        exact ⟨op, hop, r, h'.dropped.of_some hr, hne, ht⟩
      · exact ensures_some h'
  | pruneStakeTx requiredStakeDifficulty height =>
    refine rangePool_inv (fun _ h' => h'.ask) (fun mp' desc hd h' => ?_) (Taking.refl h _)
    refine (h'.pruneIf (hdesc desc hd) fun hbad t ht => ⟨desc, hd, .inl hbad, ht⟩).bind
      fun _ h₁ => ?_
    refine (h₁.pruneIf (hdesc desc hd) fun hbad t ht => ⟨desc, hd, .inr (.inl hbad), ht⟩).bind
      fun _ h₂ => ?_
    exact h₂.pruneIf (hdesc desc hd) fun hbad t ht => ⟨desc, hd, .inr (.inr hbad), ht⟩
  | pruneExpiredTx =>
    refine rangePool_inv (fun _ h' => h'.ask) (fun mp' desc hd h' => ?_) (Taking.refl h _).ask
    exact h'.pruneIf (hdesc desc hd) fun hbad t ht => ⟨desc, hd, hbad, ht⟩

end TxPool

/-- The call takes a vote or a revocation out of the pool, and leaves another one of its ticket. -/
def PoolStep.Strays (s : PoolStep) : Prop :=
  ∃ v ∈ s.before.txs, v ∉ s.after.txs ∧ ∃ v' ∈ s.after.txs, ∃ op, v.ticket? = some op ∧
    v'.ticket? = some op

/-- The call may take out a vote or a revocation while the pool holds another one of its ticket.
This can be told from the pool before the call. -/
def PoolStep.Splits (w : World) (s : PoolStep) : Prop :=
  ∃ v ∈ s.before.txs, s.op.Takes w s.before v ∧ ∃ v' ∈ s.before.txs, v' ≠ v ∧
    ∃ op, v.ticket? = some op ∧ v'.ticket? = some op

namespace TxPool

/-- Two transactions that spend the same output redeem the same ticket, or are one. -/
theorem IndexInv.apart (h : IndexInv cfg n mp) {t t' : Tx} (ht : t ∈ mp.txs) (ht' : t' ∈ mp.txs)
    (hne : t ≠ t') (hop : op ∈ t.prevOuts) (hop' : op ∈ t'.prevOuts) (hnull : op ≠ nullOutPoint) :
    t.ticket? = some op ∧ t'.ticket? = some op := by
  have hticket : n.Ticket op := by
    by_contra hticket
    exact hne (Option.some.inj
      ((h.plain t ht op hop hnull hticket).symm.trans (h.plain t' ht' op hop' hnull hticket)))
  have hone : ∀ u ∈ mp.txs, op ∈ u.prevOuts → u.ticket? = some op := by
    intro u hu hin
    by_cases hredeemer : (u.isSSGen || u.isSSRtx) = true
    · obtain ⟨txIn, -, hu', hmem⟩ := ticket?_of_redeemer hredeemer
      rcases (hmem op).1 hin with rfl | ⟨-, hnull'⟩
      · exact hu'
      · exact absurd hnull' hnull
    · exact absurd hticket ((h.kinds u hu).plain (by simpa using hredeemer) op hin)
  exact ⟨hone t ht hop, hone t' ht' hop'⟩

/-- **A removal keeps the index complete** exactly if it leaves no redeemer of a ticket whose other
redeemer it takes out. -/
theorem complete_iff_of_dropped (h : IndexInv cfg n mp) (hc : Complete mp) (hd : Dropped mp mp')
    (op : PoolOp) : Complete mp' ↔ ¬PoolStep.Strays ⟨mp, op, mp'⟩ := by
  constructor
  · rintro hc' ⟨v, hv, hgone, v', hv', ticket, hticket, hticket'⟩
    have hsome := hc' v' hv' ticket (mem_prevOuts_of_ticket? hticket')
      ((h.kinds v hv).redeemer ticket hticket).ne_null
    rw [hd.cleared v hv hgone ticket (mem_prevOuts_of_ticket? hticket)] at hsome
    cases hsome
  · intro hnot t ht ticket hin hnull
    rw [hd.kept ticket fun t' ht' hin' => ?_]
    · exact hc t (hd.subset ht) ticket hin hnull
    · by_contra hgone
      have hne : t ≠ t' := fun heq => hgone (heq ▸ ht)
      obtain ⟨hticket, hticket'⟩ := h.apart (hd.subset ht) ht' hne hin hin' hnull
      exact hnot ⟨t', ht', hgone, t, ht, ticket, hticket', hticket⟩

/-! ## Histories -/

theorem txs_of_isIntake (hw : n.Honest w) (h : IndexInv cfg n mp) {op : PoolOp} (hop : op.IsIntake)
    (hN : ∀ tx ∈ op.tx?, n.Names tx) (hrun : op.run w cfg mp = some mp') :
    mp.txs ⊆ mp'.txs ∧ (Complete mp → Complete mp') :=
  (intake_inv (grows_preserved hw mp) ⟨h, h.orphansNamed, fun _ ht => ht, id⟩ hop hN mp' hrun).2.2

end TxPool

/-- **The index is right** after a call. An outpoint has an entry exactly if the pool spends it, and
the entry names a spender. Two transactions that spend one output redeem the same ticket. After a
removal with redeemers nothing in the pool spends an output of a transaction that was removed. -/
structure OutpointsRight (s : PoolStep) : Prop where
  index : ∀ op, op ≠ nullOutPoint →
    ((s.after.outpoints op).isSome ↔ ∃ t ∈ s.after.txs, op ∈ t.prevOuts)
  spender : ∀ op t, s.after.outpoints op = some t → t ∈ s.after.txs ∧ op ∈ t.prevOuts
  apart : ∀ t ∈ s.after.txs, ∀ t' ∈ s.after.txs, t ≠ t' → ∀ op ∈ t.prevOuts, op ∈ t'.prevOuts →
    op ≠ nullOutPoint → t.ticket? = some op ∧ t'.ticket? = some op
  closed : ∀ tx, s.op = .removeTransaction tx true →
    ∀ r, r = tx ∨ (r ∈ s.before.txs ∧ r ∉ s.after.txs) → ∀ op ∈ r.outPoints, op ≠ nullOutPoint →
      ∀ t ∈ s.after.txs, op ∉ t.prevOuts

section Run

variable {s : PoolStep} {steps : List PoolStep}

theorem OutpointsRight.complete (h : OutpointsRight s) : Complete s.after :=
  fun t ht op hop hnull => (h.index op hnull).2 ⟨t, ht, hop⟩

/-- **One call**, from a pool whose index is complete. -/
theorem outpointsRight_iff (hw : n.Honest w) (h : IndexInv cfg n s.before)
    (hc : Complete s.before) (hN : ∀ tx ∈ s.op.tx?, n.Names tx)
    (hrun : s.op.run w cfg s.before = some s.after) : OutpointsRight s ↔ ¬s.Strays := by
  have h' : IndexInv cfg n s.after := run_inv (indexInv_preserved hw) h hN _ hrun
  -- what is left to show of a call that keeps the index complete
  have hright : Complete s.after → (∀ tx, s.op = .removeTransaction tx true →
      ∀ r, r = tx ∨ (r ∈ s.before.txs ∧ r ∉ s.after.txs) → ∀ op ∈ r.outPoints,
        s.after.outpoints op = none) → OutpointsRight s := by
    intro hcomplete hclosed
    refine ⟨fun op hnull => ⟨fun hsome => ?_, fun ⟨t, ht, hop⟩ => hcomplete t ht op hop hnull⟩,
      h'.sound, fun t ht t' ht' hne op hop hop' hnull => h'.apart ht ht' hne hop hop' hnull,
      fun tx hop r hr op hout hnull t ht hin => ?_⟩
    · obtain ⟨t, ht⟩ := Option.isSome_iff_exists.1 hsome
      exact ⟨t, h'.sound op t ht⟩
    · have hsome := hcomplete t ht op hin hnull
      rw [hclosed tx hop r hr op hout] at hsome
      cases hsome
  by_cases hop : s.op.IsIntake
  · obtain ⟨hsub, hcomplete⟩ := txs_of_isIntake hw h hop hN hrun
    refine ⟨fun _ ⟨v, hv, hgone, _⟩ => hgone (hsub hv), fun _ => hright (hcomplete hc) ?_⟩
    intro tx heq
    rw [heq] at hop
    cases hop
  · have hd : Dropped s.before s.after := (takes_of_removal h hop hN _ hrun).dropped
    have hiff := complete_iff_of_dropped h hc hd s.op
    refine ⟨fun hr => hiff.1 hr.complete, fun hnot => hright (hiff.2 hnot) ?_⟩
    intro tx heq
    rw [heq] at hrun hN
    obtain ⟨mp', hsome, he⟩ := removeTransaction_spec h (hN tx rfl)
    obtain rfl : mp' = s.after := Option.some.inj (hsome.symm.trans hrun)
    exact he.closed

theorem splits_of_strays (hw : n.Honest w) (h : IndexInv cfg n s.before)
    (hN : ∀ tx ∈ s.op.tx?, n.Names tx) (hrun : s.op.run w cfg s.before = some s.after)
    (hs : s.Strays) : s.Splits w := by
  obtain ⟨v, hv, hgone, v', hv', op, hticket, hticket'⟩ := hs
  by_cases hop : s.op.IsIntake
  · exact absurd ((txs_of_isIntake hw h hop hN hrun).1 hv) hgone
  · have htaking := takes_of_removal h hop hN _ hrun
    have hne : v' ≠ v := fun heq => hgone (heq ▸ hv')
    exact ⟨v, hv, htaking.only v hv hgone, v', htaking.dropped.subset hv', hne, op, hticket,
      hticket'⟩

/-- **The outpoint index.** After every call of a history the index is right, exactly if no call
takes a vote or a revocation out of the pool and leaves another one of its ticket. A call on a pool
that has no other one of the ticket does not. A removal with redeemers always returns. -/
theorem outpoints_run (hw : n.Honest w) (hrun : PoolRun w cfg steps mp)
    (hN : ∀ s ∈ steps, ∀ tx ∈ s.op.tx?, n.Names tx) :
    ((∀ s ∈ steps, OutpointsRight s) ↔ ∀ s ∈ steps, ¬s.Strays) ∧
      (∀ s ∈ steps, s.Strays → s.Splits w) ∧
      ∀ tx, n.Names tx → (mp.removeTransaction tx true).isSome := by
  have hbefore := hrun.inv_before (indexInv_preserved hw) (indexInv_new cfg n) hN
  refine ⟨?_, fun s hs => ?_, fun tx htx => ?_⟩
  · refine hrun.forall_iff (G := Complete) nofun (fun s hs hc => ?_) fun s _ hr => hr.complete
    obtain ⟨hinv, hstep⟩ := hbefore s hs
    exact outpointsRight_iff hw hinv hc (hN s hs) hstep
  · obtain ⟨hinv, hstep⟩ := hbefore s hs
    exact splits_of_strays hw hinv (hN s hs) hstep
  · obtain ⟨mp', hsome, -⟩ :=
      removeTransaction_spec (hrun.inv (indexInv_preserved hw) (indexInv_new cfg n) hN) htx
    rw [hsome]
    rfl

end Run

open SmallPool in
/-- A vote comes and goes. -/
theorem outpoints_run_voteA : ∃ mp₁ mp₂, PoolRun world (.regNet 0) ([] ++
        [⟨newTxPool, .processTransaction voteA false false true, mp₁⟩] ++
        [⟨mp₁, .removeTransaction voteA true, mp₂⟩]) mp₂ ∧ mp₁.txs = [voteA] ∧ mp₂.txs = [] ∧
      OutpointsRight ⟨newTxPool, .processTransaction voteA false false true, mp₁⟩ ∧
      OutpointsRight ⟨mp₁, .removeTransaction voteA true, mp₂⟩ := by
  have hcalls : (do
      let mp₁ ← (PoolOp.processTransaction voteA false false true).run world (.regNet 0) newTxPool
      let mp₂ ← (PoolOp.removeTransaction voteA true).run world (.regNet 0) mp₁
      some (mp₁.txs, mp₂.txs)) = some ([voteA], []) := by
    decide +kernel
  obtain ⟨mp₁, hmp₁, hcalls⟩ := Option.bind_eq_some_iff.1 hcalls
  obtain ⟨mp₂, hmp₂, hcalls⟩ := Option.bind_eq_some_iff.1 hcalls
  obtain ⟨htxs₁, htxs₂⟩ := Prod.mk.inj (Option.some.inj hcalls)
  have hrun := PoolRun.call (.call .new hmp₁) hmp₂
  have hright := (outpoints_run honest_world hrun (by simp [PoolOp.tx?, names_voteA])).1.2 (by
    intro s hs
    rcases mem_append.1 hs with hs | hs <;> rw [mem_singleton.1 hs]
    · rintro ⟨v, hv, -⟩
      cases hv
    · rintro ⟨v, -, -, v', hv', -⟩
      rw [htxs₂] at hv'
      cases hv')
  exact ⟨mp₁, mp₂, hrun, htxs₁, htxs₂, hright _ (by simp), hright _ (by simp)⟩

open SmallPool in
/-- Two votes for one ticket are in the pool, and one is confirmed. The other one still spends the
ticket, and the index has no entry for it. -/
theorem outpoints_stray : ∃ mp₁ mp₂ mp₃, PoolRun world (.regNet 0) ([] ++
        [⟨newTxPool, .processTransaction voteA false false true, mp₁⟩] ++
        [⟨mp₁, .processTransaction voteA' false false true, mp₂⟩] ++
        [⟨mp₂, .removeTransaction voteA' false, mp₃⟩]) mp₃ ∧
      mp₃.txs = [voteA] ∧ mp₃.outpoints ⟨Hash.ofNat 2, 0, txTreeStake⟩ = none ∧
      ¬OutpointsRight ⟨mp₂, .removeTransaction voteA' false, mp₃⟩ := by
  have hrun : (do
      let mp₁ ← (PoolOp.processTransaction voteA false false true).run world (.regNet 0) newTxPool
      let mp₂ ← (PoolOp.processTransaction voteA' false false true).run world (.regNet 0) mp₁
      let mp₃ ← (PoolOp.removeTransaction voteA' false).run world (.regNet 0) mp₂
      some (mp₃.txs, mp₃.outpoints ⟨Hash.ofNat 2, 0, txTreeStake⟩)) = some ([voteA], none) := by
    decide +kernel
  obtain ⟨mp₁, hmp₁, hrun⟩ := Option.bind_eq_some_iff.1 hrun
  obtain ⟨mp₂, hmp₂, hrun⟩ := Option.bind_eq_some_iff.1 hrun
  obtain ⟨mp₃, hmp₃, hrun⟩ := Option.bind_eq_some_iff.1 hrun
  obtain ⟨htxs, hnone⟩ := Prod.mk.inj (Option.some.inj hrun)
  refine ⟨mp₁, mp₂, mp₃, .call (.call (.call .new hmp₁) hmp₂) hmp₃, htxs, hnone, fun hright => ?_⟩
  have hsome := (hright.index ⟨Hash.ofNat 2, 0, txTreeStake⟩ (by decide +kernel)).2
    ⟨voteA, by rw [htxs]; exact mem_cons_self, by decide +kernel⟩
  rw [hnone] at hsome
  cases hsome

end Fnod
