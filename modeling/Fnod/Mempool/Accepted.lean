import Fnod.Blockchain.Spendable
import Fnod.Blockchain.UtxoBook
import Fnod.Mempool.PoolRules

/-!
# What the pool accepts

A hash names one transaction, and a transaction spends outputs of earlier ones only (`Naming`). If
the chain knows no other outputs than those of the named transactions (`Honest`), an output either
is the submission of a ticket or is not, whoever asks.

**Theorem (`accepted_kinds`).** A vote or a revocation that the pool accepts spends one output,
which is the submission of a ticket; any other transaction that it accepts spends none (`Kinds`),
and nothing that a transaction of the pool is recorded to spend.
-/

namespace Fnod

open Except List Option TxPool

/-- The transactions that hashes name; the null hash names none. The rank is the length of the
longest chain of transactions that a transaction depends on. -/
structure Naming where
  known : Hash → Option MsgTx
  null : known default = none
  rank : Hash → Nat
  earlier : ∀ h msgTx, known h = some msgTx → ∀ txIn ∈ msgTx.txIn,
    rank txIn.previousOutPoint.hash < rank h

/-- The transaction is the one that its hash names. -/
def Naming.Names (n : Naming) (tx : Tx) : Prop := n.known tx.hash = some tx.msgTx

/-- The chain has outputs of named transactions only. -/
def Naming.Honest (n : Naming) (w : World) : Prop :=
  ∀ k tx b view, (w.env k).fetchUtxoView tx b = .ok view → view.All (Genuine n.known)

/-- The outpoint is the submission of a ticket. -/
def Naming.Ticket (n : Naming) (op : OutPoint) : Prop :=
  ∃ msgTx out, n.known op.hash = some msgTx ∧ msgTx.txOut[op.index]? = some out ∧
    out.version = 0 ∧ isStakeSubmissionScript out.pkScript = true ∧ op.index = submissionOutputIdx

/-- The previous outpoint of a stakebase. -/
def nullOutPoint : OutPoint := ⟨default, maxUint32, txTreeRegular⟩

/-- The ticket that a vote or a revocation redeems. -/
def Tx.ticket? (tx : Tx) : Option OutPoint :=
  if tx.isSSGen then prevOut? tx 1 else if tx.isSSRtx then prevOut? tx 0 else none

variable {n : Naming} {w : World} {cfg : PoolConfig} {mp mp' : TxPool} {tx tx' : Tx} {op : OutPoint}
  {k : Nat}

theorem Naming.Names.rank_lt (h : n.Names tx) (hop : op ∈ tx.prevOuts) :
    n.rank op.hash < n.rank tx.hash := by
  obtain ⟨txIn, htxIn, rfl⟩ := mem_map.1 hop
  exact n.earlier tx.hash tx.msgTx h txIn htxIn

theorem Naming.Names.eq (h : n.Names tx) (h' : n.Names tx') (hhash : tx.hash = tx'.hash) :
    tx = tx' := by
  obtain ⟨hash, msgTx, txType, typed⟩ := tx
  obtain ⟨hash', msgTx', txType', typed'⟩ := tx'
  obtain rfl : hash = hash' := hhash
  obtain rfl : msgTx = msgTx' := Option.some.inj (h.symm.trans h')
  obtain rfl : txType = txType' := Except.ok.inj (typed.symm.trans typed')
  rfl

theorem Naming.Ticket.ne_null (h : n.Ticket op) : op ≠ nullOutPoint := by
  rintro rfl
  obtain ⟨-, -, -, -, -, -, hindex⟩ := h
  cases hindex

/-! ## Inputs of votes and revocations -/

/-- A vote or a revocation spends the ticket and, apart from a stakebase, nothing else. -/
theorem ticket?_of_redeemer (h : (tx.isSSGen || tx.isSSRtx) = true) :
    ∃ txIn, tx.inputs = [txIn] ∧ tx.ticket? = some txIn.previousOutPoint ∧
      ∀ op, op ∈ tx.prevOuts ↔ op = txIn.previousOutPoint ∨
        (tx.isSSGen = true ∧ op = nullOutPoint) := by
  by_cases hvote : tx.isSSGen = true
  · have htype : tx.txType = .ssgen := of_decide_eq_true hvote
    obtain ⟨stakebase, ticket, hinputs⟩ := voteInputs_of_ssgen (htype ▸ tx.typed)
    obtain ⟨⟨hindex, hhash, htree⟩, -⟩ := hinputs.null
    have hnull : stakebase.previousOutPoint = nullOutPoint := by
      cases hop : stakebase.previousOutPoint
      simp_all [nullOutPoint]
    refine ⟨ticket, by simp [Tx.inputs, hvote, hinputs.txIn], ?_, fun op => ?_⟩
    · simp [Tx.ticket?, hvote, prevOut?, hinputs.txIn]
    · simp only [Tx.prevOuts, hinputs.txIn, map_cons, map_nil, mem_cons, hnull, hvote, true_and,
        not_mem_nil, or_false]
      exact or_comm
  · have hrevocation : tx.isSSRtx = true := by simpa [hvote] using h
    have htype : tx.txType = .ssrtx := of_decide_eq_true hrevocation
    obtain ⟨ticket, hinputs⟩ := txIn_of_ssrtx (htype ▸ tx.typed)
    refine ⟨ticket, by simp [Tx.inputs, hvote, hinputs], ?_, fun op => ?_⟩
    · simp [Tx.ticket?, hvote, hrevocation, prevOut?, hinputs]
    · simp [Tx.prevOuts, hinputs, hvote]

theorem isRedeemer_of_ticket? (h : tx.ticket? = some op) : (tx.isSSGen || tx.isSSRtx) = true := by
  unfold Tx.ticket? at h
  split_ifs at h with hvote hrevocation
  · simp [hvote]
  · simp [hrevocation]

theorem mem_prevOuts_of_ticket? (h : tx.ticket? = some op) : op ∈ tx.prevOuts := by
  obtain ⟨txIn, -, hticket, hmem⟩ := ticket?_of_redeemer (isRedeemer_of_ticket? h)
  cases h.symm.trans hticket
  exact (hmem _).2 (.inl rfl)

/-! ## The view -/

/-- The pool fills in for a transaction that the chain has no outputs of. -/
def TxPool.fillIn (u view : UtxoViewpoint) (desc : TxDesc) : UtxoViewpoint :=
  match u.entries desc.tx.hash with
  | none => view
  | some entry =>
    if entry.all (·.isFullySpent) then view.addTxOuts desc.tx unminedHeight nullBlockIndex else view

variable {env : PoolEnv} {view : UtxoViewpoint}

theorem fetchInputUtxos_fillIn (hfetch : mp.fetchInputUtxos cfg env tx = .ok view) :
    ∃ u, env.fetchUtxoView tx (!mp.isRegTxTreeKnownDisapproved cfg env.bestHash) = .ok u ∧
      view = mp.pool.foldl (fillIn u) u := by
  unfold fetchInputUtxos at hfetch
  obtain ⟨u, hu, heq⟩ := bind_eq_ok.1 hfetch
  cases heq
  refine ⟨u, ?_, rfl⟩
  cases hcall : env.fetchUtxoView tx !mp.isRegTxTreeKnownDisapproved cfg env.bestHash with
  | error e =>
    rw [hcall] at hu
    cases hu
  | ok u' =>
    rw [hcall] at hu
    cases hu
    rfl

theorem genuine_foldl {u : UtxoViewpoint} (hview : view.All (Genuine n.known)) {l : List TxDesc}
    (hl : ∀ desc ∈ l, n.Names desc.tx) : (l.foldl (fillIn u) view).All (Genuine n.known) := by
  refine List.foldlRecOn (motive := fun view : UtxoViewpoint => view.All (Genuine n.known)) _ _
    hview fun view hview desc hdesc => ?_
  unfold fillIn
  split
  · exact hview
  · split_ifs
    · exact hview.addTxOuts_genuine (hl desc hdesc)
    · exact hview

theorem genuine_fetchInputUtxos (hw : n.Honest w) (hpool : ∀ desc ∈ mp.pool, n.Names desc.tx)
    (h : mp.fetchInputUtxos cfg (w.env k) tx = .ok view) : view.All (Genuine n.known) := by
  obtain ⟨u, hu, rfl⟩ := fetchInputUtxos_fillIn h
  exact genuine_foldl (hw k tx _ _ hu) hpool

/-- What a transaction has passed when it is accepted. -/
structure Passed (cfg : PoolConfig) (env : PoolEnv) (mp : TxPool) (tx : Tx) (view : UtxoViewpoint) :
    Prop where
  fresh : mp.isTransactionInPool tx.hash = false
  single : mp.checkDoubleSpends tx = .ok ()
  fetched : ∃ utxoView, mp.fetchInputUtxos cfg env tx = .ok utxoView ∧
    view = { utxoView with entries := fun h => if h = tx.hash then none else utxoView.entries h }
  stake : checkStakeInputs cfg.chainParams tx (env.bestHeight + 1) view = .ok ()
  inputs : ∀ txIn ∈ tx.inputs, ∃ entry,
    checkInput cfg.chainParams tx (env.bestHeight + 1) view false txIn = .ok entry

theorem ofChain_eq_ok {α : Type} {x : Except (Fault ChainError) α} {a : α} (h : ofChain x = .ok a) :
    x = .ok a := by
  unfold ofChain at h
  split at h <;> simp_all

/-- **An accepted transaction** has passed the checks. -/
theorem passed_of_checkTransaction {isNew rateLimit allowHighFees rejectDup : Bool} {fee : Int}
    (h : mp.checkTransaction cfg env tx isNew rateLimit allowHighFees rejectDup = .ok (.inr fee)) :
    ∃ view, Passed cfg env mp tx view := by
  have hfresh := (not_known_of_checkTransaction h).1
  unfold checkTransaction at h
  obtain ⟨_, -, h⟩ := bind_eq_ok.1 h
  obtain ⟨_, halone, h⟩ := bind_eq_ok.1 h
  obtain ⟨_, hsingle, h⟩ := bind_eq_ok.1 h
  obtain ⟨_, -, h⟩ := bind_eq_ok.1 h
  obtain ⟨utxoView, hfetch, h⟩ := bind_eq_ok.1 h
  obtain ⟨_, -, h⟩ := bind_eq_ok.1 h
  dsimp only at h
  split_ifs at h
  · cases h
  obtain ⟨txFee, hinputs, -⟩ := bind_eq_ok.1 h
  -- the transaction is not a coinbase, and its inputs were checked
  have hcoinbase : isCoinBase tx = false := by
    unfold checkAlone at halone
    obtain ⟨_, -, halone⟩ := bind_eq_ok.1 halone
    obtain ⟨_, hcoinbase, -⟩ := bind_eq_ok.1 halone
    simpa using refuseIf_eq_ok.1 hcoinbase
  unfold checkInputsAndFees at hinputs
  obtain ⟨_, -, hinputs⟩ := bind_eq_ok.1 hinputs
  obtain ⟨_, -, hinputs⟩ := bind_eq_ok.1 hinputs
  obtain ⟨fee', hchain, -⟩ := bind_eq_ok.1 hinputs
  have hchecked := ofChain_eq_ok hchain
  unfold checkTransactionInputs at hchecked
  rw [hcoinbase] at hchecked
  obtain ⟨_, hstake, hchecked⟩ := bind_eq_ok.1 hchecked
  obtain ⟨_, -, hchecked⟩ := bind_eq_ok.1 hchecked
  obtain ⟨_, hins, -⟩ := bind_eq_ok.1 hchecked
  refine ⟨_, hfresh, hsingle, ⟨utxoView, hfetch, rfl⟩, hstake, fun txIn htxIn => ?_⟩
  obtain ⟨_, _, hstep⟩ := foldlM_each hins htxIn
  obtain ⟨entry, hentry, -⟩ := bind_eq_ok.1 hstep
  exact ⟨entry, hentry⟩

theorem genuine_of_passed (hw : n.Honest w) (hpool : ∀ desc ∈ mp.pool, n.Names desc.tx)
    (h : Passed cfg (w.env k) mp tx view) : view.All (Genuine n.known) := by
  obtain ⟨utxoView, hfetch, rfl⟩ := h.fetched
  intro hash e he
  refine genuine_fetchInputUtxos hw hpool hfetch hash e ?_
  unfold UtxoViewpoint.lookupEntry at he ⊢
  dsimp only at he
  split_ifs at he
  · cases he
  · exact he

/-! ## Kinds of spenders -/

/-- Votes and revocations redeem tickets, and nothing else does. -/
structure Naming.Kinds (n : Naming) (tx : Tx) : Prop where
  redeemer : ∀ op, tx.ticket? = some op → n.Ticket op
  plain : (tx.isSSGen || tx.isSSRtx) = false → ∀ op ∈ tx.prevOuts, ¬n.Ticket op

/-- An output that a view has is an output of the transaction that the hash names. -/
theorem output_of_genuine {e : UtxoEntry} {i : Nat} (hview : view.All (Genuine n.known))
    (hl : view.lookupEntry op.hash = some e) (hspent : e.isOutputSpent i = false) :
    ∃ msgTx out, n.known op.hash = some msgTx ∧ msgTx.txOut[i]? = some out ∧
      e.scriptVersionByIndex i = out.version ∧ e.pkScriptByIndex i = out.pkScript := by
  obtain ⟨msgTx, hknown, hout⟩ := hview _ _ hl
  unfold UtxoEntry.isOutputSpent at hspent
  unfold UtxoEntry.scriptVersionByIndex UtxoEntry.pkScriptByIndex
  cases hget : e.sparseOutputs.get? i with
  | none => simp [hget] at hspent
  | some o =>
    have hfilter := hout i o hget
    rw [MsgTx.outputs, filter_eq_some_iff] at hfilter
    exact ⟨msgTx, o.txOut, hknown, hfilter.1, rfl, rfl⟩

/-- The ticket of a vote or a revocation that passes the checks is one. -/
theorem checkTicketInput_submission {params : Params} {ticketIn : TxIn} {txHeight extra : Nat}
    {code : ErrorCode} {outs : List MinimalOutput}
    (h : checkTicketInput params ticketIn txHeight view code extra = .ok outs) :
    ticketIn.previousOutPoint.index = submissionOutputIdx ∧
      ∃ e, view.lookupEntry ticketIn.previousOutPoint.hash = some e ∧
        e.scriptVersionByIndex submissionOutputIdx = 0 ∧
        isStakeSubmissionScript (e.pkScriptByIndex submissionOutputIdx) = true := by
  unfold checkTicketInput at h
  rw [rejectIf_bind_eq_ok] at h
  obtain ⟨hindex, h⟩ := h
  split at h
  · cases h
  next e hl =>
    simp only [rejectIf_bind_eq_ok] at h
    have hsubmission := h.2.1
    simp only [checkTicketSubmissionInput, Bool.not_eq_false, decide_eq_true_eq] at hsubmission
    exact ⟨not_not.1 hindex, e, hl, hsubmission.1, hsubmission.2.1⟩

/-- **The kind of an accepted transaction.** -/
theorem accepted_kinds (hw : n.Honest w) (hpool : ∀ desc ∈ mp.pool, n.Names desc.tx)
    (h : Passed cfg (w.env k) mp tx view) : n.Kinds tx := by
  have hview := genuine_of_passed hw hpool h
  constructor
  · intro op hop
    obtain ⟨txIn, hinputs, hticket, -⟩ := ticket?_of_redeemer (isRedeemer_of_ticket? hop)
    cases hop.symm.trans hticket
    have hin : txIn ∈ tx.inputs := by
      rw [hinputs]
      exact mem_cons_self
    obtain ⟨hvote, hrevocation⟩ := checkStakeInputs_ticket h.stake hin
    have hsubmission : txIn.previousOutPoint.index = submissionOutputIdx ∧
        ∃ e, view.lookupEntry txIn.previousOutPoint.hash = some e ∧
          e.scriptVersionByIndex submissionOutputIdx = 0 ∧
          isStakeSubmissionScript (e.pkScriptByIndex submissionOutputIdx) = true := by
      rcases Bool.or_eq_true_iff.1 (isRedeemer_of_ticket? hop) with hv | hr
      · obtain ⟨outs, hticketIn⟩ := hvote hv
        exact checkTicketInput_submission hticketIn
      · obtain ⟨outs, hticketIn⟩ := hrevocation hr
        exact checkTicketInput_submission hticketIn
    obtain ⟨hindex, e, hl, hversion, hscript⟩ := hsubmission
    obtain ⟨e', hchecked⟩ := h.inputs txIn hin
    obtain ⟨hl', hspent, -, -⟩ := checkInput_eq_ok hchecked
    cases hl.symm.trans hl'
    obtain ⟨msgTx, out, hknown, hout, hv, hs⟩ := output_of_genuine hview hl hspent
    rw [hindex] at hout hv hs
    exact ⟨msgTx, out, hknown, hindex ▸ hout, hv ▸ hversion, hs ▸ hscript, hindex⟩
  · rintro hplain op hop ⟨msgTx, out, hknown, hout, hversion, hscript, hindex⟩
    obtain ⟨hnotVote, -⟩ := Bool.or_eq_false_iff.1 hplain
    obtain ⟨txIn, htxIn, rfl⟩ := mem_map.1 hop
    obtain ⟨e, hchecked⟩ := h.inputs txIn (by simpa [Tx.inputs, hnotVote] using htxIn)
    obtain ⟨hl, hspent, hspend, -⟩ := checkInput_eq_ok hchecked
    obtain ⟨msgTx', out', hknown', hout', hv, hs⟩ := output_of_genuine hview hl hspent
    cases hknown.symm.trans hknown'
    cases hout.symm.trans hout'
    obtain ⟨-, -, -, c, hc, honly, -⟩ := checkSpendable_eq_ok hspend
    have hclass : e.HasClass txIn.previousOutPoint.index .stakeSubmissionTy := by
      unfold UtxoEntry.HasClass
      rw [hv, hs, hversion]
      exact getScriptClass_of_isStakeSubmissionScript hscript
    rw [honly (Except.ok.inj (hc.symm.trans hclass))] at hplain
    cases hplain

/-- A transaction that is neither a vote nor a revocation spends nothing that the index has. -/
theorem outpoints_of_passed (h : Passed cfg env mp tx view)
    (hplain : (tx.isSSGen || tx.isSSRtx) = false) (hop : op ∈ tx.prevOuts) :
    mp.outpoints op = none := by
  obtain ⟨hnotVote, hnotRevocation⟩ := Bool.or_eq_false_iff.1 hplain
  have hsingle := h.single
  unfold checkDoubleSpends checkPoolDoubleSpend at hsingle
  rw [hnotVote, hnotRevocation] at hsingle
  have hnone := refuseIf_eq_ok.1 hsingle
  by_contra hsome
  exact hnone ⟨op, by simpa using hop, isSome_iff_ne_none.2 hsome⟩

/-! ## Two tickets and their votes -/

/-- The naming of some transactions. -/
def Naming.ofList (txs : List Tx) (rank : Hash → Nat) (hnull : ∀ tx ∈ txs, tx.hash ≠ default)
    (h : ∀ tx ∈ txs, ∀ txIn ∈ tx.msgTx.txIn, rank txIn.previousOutPoint.hash < rank tx.hash) :
    Naming where
  known hash := (txs.find? (·.hash = hash)).map (·.msgTx)
  null := by
    rw [List.find?_eq_none.2 fun tx htx => by simpa using hnull tx htx]
    rfl
  rank := rank
  earlier hash msgTx hknown txIn htxIn := by
    obtain ⟨tx, hfind, rfl⟩ := map_eq_some_iff.1 hknown
    have hhash : tx.hash = hash := by simpa using List.find?_some hfind
    rw [← hhash]
    exact h tx (mem_of_find?_eq_some hfind) txIn htxIn

namespace SmallPool

def payScript : List UInt8 :=
  [OP_DUP, OP_HASH160, OP_DATA_20] ++ List.replicate 20 0 ++ [OP_EQUALVERIFY, OP_CHECKSIG]

/-- A ticket of 1000 atoms. -/
def ticketMsg (prev : Nat) : MsgTx where
  version := 1
  txIn := [⟨⟨Hash.ofNat prev, 0, txTreeRegular⟩, 0, 0, 0, []⟩]
  txOut := [⟨1000, 0, OP_SSTX :: payScript⟩,
    ⟨0, 0, [OP_RETURN, 0x1e] ++ List.replicate 20 0 ++ Bytes.putLE 8 1000 ++ [0, 0]⟩,
    ⟨0, 0, OP_SSTXCHANGE :: payScript⟩]
  expiry := 0

/-- A vote for a ticket, on a block of height 100. -/
def voteMsg (ticket block : Nat) : MsgTx where
  version := 1
  txIn := [⟨nullOutPoint, 3000000000, nullBlockHeight, nullBlockIndex, []⟩,
    ⟨⟨Hash.ofNat ticket, 0, txTreeStake⟩, 0, 0, 0, []⟩]
  txOut := [⟨0, 0, [OP_RETURN, 0x24] ++ (Hash.ofNat block).bytes ++ Bytes.putLE 4 100⟩,
    ⟨0, 0, [OP_RETURN, 0x02, 1, 0]⟩, ⟨3000001000, 0, OP_SSGEN :: payScript⟩]
  expiry := 0

def ticketA : Tx := ⟨Hash.ofNat 2, ticketMsg 1, .sstx, by decide +kernel⟩
def ticketB : Tx := ⟨Hash.ofNat 3, ticketMsg 0, .sstx, by decide +kernel⟩

/-- Two votes for the first ticket, on two blocks, and one for the second ticket. -/
def voteA : Tx := ⟨Hash.ofNat 4, voteMsg 2 50, .ssgen, by decide +kernel⟩
def voteA' : Tx := ⟨Hash.ofNat 5, voteMsg 2 51, .ssgen, by decide +kernel⟩
def voteB : Tx := ⟨Hash.ofNat 6, voteMsg 3 50, .ssgen, by decide +kernel⟩

/-- The transactions that depend on each other have hashes that ascend. -/
def naming : Naming :=
  .ofList [ticketA, ticketB, voteA, voteA', voteB]
    (fun h => ((List.range 7).find? fun i => Hash.ofNat i = h).getD 0) (by decide +kernel)
    (by decide +kernel)

def ticketEntry (prev : Nat) : UtxoEntry :=
  { newUtxoEntry 1 0 0 false false .sstx with
    sparseOutputs := OrdMap.empty.insert 0 ⟨1000, 0, OP_SSTX :: payScript, false⟩
    stakeExtra := convertToMinimalOutputs (ticketMsg prev) }

/-- The chain has the two tickets, at height 200. -/
def world : World := .constant (.lenient 200 fun _ =>
  (newUtxoViewpoint.setEntry (Hash.ofNat 2) (ticketEntry 1)).setEntry (Hash.ofNat 3)
    (ticketEntry 0))

theorem names_voteA : naming.Names voteA := by
  unfold Naming.Names
  decide +kernel

theorem names_voteB : naming.Names voteB := by
  unfold Naming.Names
  decide +kernel

theorem genuine_ticketEntry {h : Hash} {prev : Nat}
    (hknown : naming.known h = some (ticketMsg prev)) :
    Genuine naming.known h (ticketEntry prev) := by
  refine ⟨ticketMsg prev, hknown, fun i o hi => ?_⟩
  rw [ticketEntry, OrdMap.get?_insert] at hi
  split_ifs at hi with h0
  · cases hi
    subst h0
    rfl
  · cases hi

theorem honest_world : naming.Honest world := by
  rintro k tx b view hview
  cases hview
  have hempty : newUtxoViewpoint.All (Genuine naming.known) := nofun
  exact (hempty.setEntry (genuine_ticketEntry (by decide +kernel))).setEntry
    (genuine_ticketEntry (by decide +kernel))

end SmallPool

end Fnod
