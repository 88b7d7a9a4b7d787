import Mathlib.Algebra.Order.BigOperators.Group.List
import Fnod.Blockchain.UtxoBook
import Fnod.Blockchain.Validate
import Fnod.Stake.StakeOutputs

/-!
# What `CheckTransactionInputs` lets through

The rules on spending stand in one loop over the inputs and in the checks of votes and revocations.
Here they are brought together as properties of the inputs of a transaction that was accepted
(`InputRules`), and the fee as the exact difference of two sums.

**Theorem (`checkTransactionInputs_rules`).** Every accepted transaction keeps to the rules, but for
one: what a vote or a revocation pays out is held back for `SStxChangeMaturity` blocks, where the
comment at the check says `CoinbaseMaturity`. An accepted transaction keeps to the comment exactly
if it spends no such payout between the two ages (`EarlyPayout`).
-/

namespace Fnod

open Except Int64 List UtxoViewpoint

/-! ## Checks that have passed -/

section Checks

variable {bad : Prop} [Decidable bad] {code : ErrorCode} {β : Type}

theorem rejectIf_eq_ok : rejectIf bad code = .ok () ↔ ¬ bad := by
  unfold rejectIf ruleError
  split_ifs with h <;> simp [h]

@[simp] theorem rejectIf_bind_eq_ok {f : Unit → Except (Fault ChainError) β} {b : β} :
    (rejectIf bad code >>= f) = .ok b ↔ ¬ bad ∧ f () = .ok b := by
  rw [bind_eq_ok]
  exact ⟨fun ⟨_, h, hf⟩ => ⟨rejectIf_eq_ok.1 h, hf⟩, fun h => ⟨(), rejectIf_eq_ok.2 h.1, h.2⟩⟩

theorem availableEntry_eq_ok {op : OutPoint} {entry : UtxoEntry} :
    availableEntry view op = .ok entry ↔
      view.lookupEntry op.hash = some entry ∧ entry.isOutputSpent op.index = false := by
  unfold availableEntry ruleError
  cases view.lookupEntry op.hash with
  | none => simp
  | some e =>
    cases hspent : e.isOutputSpent op.index with
    | false =>
      simp only [hspent, Bool.false_eq_true, if_false, Except.ok.injEq, Option.some.injEq]
      exact ⟨fun he => ⟨he, he ▸ hspent⟩, And.left⟩
    | true =>
      simp only [hspent, if_true, reduceCtorEq, Option.some.injEq, false_iff, not_and]
      rintro rfl
      simp [hspent]

end Checks

/-! ## Inputs -/

variable (entry : UtxoEntry) (params : Params)

/-- The number of blocks between an entry and the block that spends it. -/
def UtxoEntry.age (txHeight : Nat) : Int := (txHeight : Int) - entry.height

def UtxoEntry.HasClass (i : Nat) (c : ScriptClass) : Prop :=
  (getScriptClass (entry.scriptVersionByIndex i) (entry.pkScriptByIndex i) :
    Except (Fault ChainError) ScriptClass) = .ok c

instance (entry : UtxoEntry) (i : Nat) (c : ScriptClass) : Decidable (entry.HasClass i c) :=
  inferInstanceAs (Decidable (_ = _))

/-! ### Submission scripts -/

variable {script hash : List UInt8} {tag : UInt8} {tx : Tx} {txHeight : Nat} {view : UtxoViewpoint}
  {txIn : TxIn} {fraudProof : Bool}

theorem extractStakePubKeyHash_eq_some
    (h : extractStakePubKeyHash script tag = some hash) : hash.length = 20 ∧
      script = [tag, OP_DUP, OP_HASH160, OP_DATA_20] ++ hash ++ [OP_EQUALVERIFY, OP_CHECKSIG] := by
  unfold extractStakePubKeyHash at h
  split_ifs at h with hs
  obtain ⟨hlen, hbytes⟩ := hs
  match script, hlen with
  | [b0, b1, b2, b3, b4, b5, b6, b7, b8, b9, b10, b11, b12, b13, b14, b15, b16, b17, b18, b19, b20,
      b21, b22, b23, b24, b25], _ =>
    cases h
    exact ⟨rfl, by simpa [hasBytes] using hbytes⟩

theorem extractStakeScriptHash_eq_some
    (h : extractStakeScriptHash script tag = some hash) : hash.length = 20 ∧
      script = [tag, OP_HASH160, OP_DATA_20] ++ hash ++ [OP_EQUAL] := by
  unfold extractStakeScriptHash at h
  split_ifs at h with hs
  obtain ⟨hlen, hbytes⟩ := hs
  match script, hlen with
  | [b0, b1, b2, b3, b4, b5, b6, b7, b8, b9, b10, b11, b12, b13, b14, b15, b16, b17, b18, b19, b20,
      b21, b22, b23], _ =>
    cases h
    exact ⟨rfl, by simpa [hasBytes] using hbytes⟩

/-- **The two readings of a submission script agree**: what package `blockchain` takes for one is
one to package `txscript`. -/
theorem getScriptClass_of_isStakeSubmissionScript {ε : Type}
    (h : isStakeSubmissionScript script = true) :
    (getScriptClass 0 script : Except (Fault ε) ScriptClass) = .ok .stakeSubmissionTy := by
  rcases Bool.or_eq_true_iff.1 h with h | h
  · obtain ⟨hash, hhash⟩ := Option.isSome_iff_exists.1 h
    obtain ⟨hlen, rfl⟩ := extractStakePubKeyHash_eq_some hhash
    match hash, hlen with
    | [b0, b1, b2, b3, b4, b5, b6, b7, b8, b9, b10, b11, b12, b13, b14, b15, b16, b17, b18, b19],
      _ =>
      rfl
  · obtain ⟨hash, hhash⟩ := Option.isSome_iff_exists.1 h
    obtain ⟨hlen, rfl⟩ := extractStakeScriptHash_eq_some hhash
    match hash, hlen with
    | [b0, b1, b2, b3, b4, b5, b6, b7, b8, b9, b10, b11, b12, b13, b14, b15, b16, b17, b18, b19],
      _ =>
      rfl

/-- The rules on spending one output. -/
structure InputRules (tx : Tx) (txHeight : Nat) (entry : UtxoEntry) (txIn : TxIn) : Prop where
  unspent : entry.isOutputSpent txIn.previousOutPoint.index = false
  tree : txIn.previousOutPoint.tree = indicatedTree entry.txType
  coinbase : entry.isCoinBase = true → params.coinbaseMaturity ≤ entry.age txHeight
  expiry : entry.hasExpiry = true → params.coinbaseMaturity ≤ entry.age txHeight
  change : entry.HasClass txIn.previousOutPoint.index .stakeSubChangeTy →
    params.sstxChangeMaturity ≤ entry.age txHeight
  submission : entry.HasClass txIn.previousOutPoint.index .stakeSubmissionTy →
    (tx.isSSGen = true ∧ params.ticketMaturity < entry.age txHeight) ∨
      (tx.isSSRtx = true ∧ params.ticketMaturity + 2 ≤ entry.age txHeight)
  amount : 0 ≤ entry.amountByIndex txIn.previousOutPoint.index ∧
    entry.amountByIndex txIn.previousOutPoint.index ≤ maxAmount

/-- What votes and revocations pay out is spent only after the given number of blocks. -/
def PayoutRule (maturity : Nat) (txHeight : Nat) (entry : UtxoEntry) (txIn : TxIn) : Prop :=
  entry.HasClass txIn.previousOutPoint.index .stakeGenTy ∨
    entry.HasClass txIn.previousOutPoint.index .stakeRevocationTy →
  maturity ≤ entry.age txHeight

/-- The input spends a payout of a vote or a revocation that has reached the one maturity and not
the other. -/
def EarlyPayout (txHeight : Nat) (entry : UtxoEntry) (txIn : TxIn) : Prop :=
  (entry.HasClass txIn.previousOutPoint.index .stakeGenTy ∨
    entry.HasClass txIn.previousOutPoint.index .stakeRevocationTy) ∧
  params.sstxChangeMaturity ≤ entry.age txHeight ∧ entry.age txHeight < params.coinbaseMaturity

section Inputs

variable {params : Params} {entry : UtxoEntry}

theorem checkSpendable_eq_ok {u : Unit} (h : checkSpendable params tx txHeight entry txIn = .ok u) :
    txIn.previousOutPoint.tree = indicatedTree entry.txType ∧
    (entry.isCoinBase = true → params.coinbaseMaturity ≤ entry.age txHeight) ∧
    (entry.hasExpiry = true → params.coinbaseMaturity ≤ entry.age txHeight) ∧
    ∃ c, entry.HasClass txIn.previousOutPoint.index c ∧
      (c = .stakeSubmissionTy → (tx.isSSGen || tx.isSSRtx) = true) ∧
      (c = .stakeGenTy ∨ c = .stakeRevocationTy ∨ c = .stakeSubChangeTy →
        params.sstxChangeMaturity ≤ entry.age txHeight) := by
  unfold checkSpendable at h
  simp only [rejectIf_bind_eq_ok] at h
  obtain ⟨hcoinbase, hexpiry, htree, h⟩ := h
  obtain ⟨c, hc, h⟩ := bind_eq_ok.1 h
  simp only [rejectIf_bind_eq_ok] at h
  obtain ⟨hsubmission, hpayout, h⟩ := h
  have hchange := rejectIf_eq_ok.1 h
  unfold UtxoEntry.age
  refine ⟨(not_not.1 htree).symm, fun hb => ?_, fun hb => ?_, c, hc, fun hc => ?_, fun hc => ?_⟩
  · exact not_lt.1 fun hlt => hcoinbase ⟨hb, hlt⟩
  · exact not_lt.1 fun hlt => hexpiry ⟨hb, hlt⟩
  · exact Bool.eq_true_of_not_eq_false fun hb => hsubmission ⟨hb, hc⟩
  · refine not_lt.1 fun hlt => ?_
    rcases hc with hc | hc | hc
    · exact hpayout ⟨.inl hc, hlt⟩
    · exact hpayout ⟨.inr hc, hlt⟩
    · exact hchange ⟨hc, hlt⟩

theorem checkInput_eq_ok (h : checkInput params tx txHeight view fraudProof txIn = .ok entry) :
    view.lookupEntry txIn.previousOutPoint.hash = some entry ∧
      entry.isOutputSpent txIn.previousOutPoint.index = false ∧
      checkSpendable params tx txHeight entry txIn = .ok () ∧
      checkFraudProof fraudProof entry txIn = .ok () := by
  unfold checkInput at h
  obtain ⟨e, he, h⟩ := bind_eq_ok.1 h
  rw [rejectIf_bind_eq_ok] at h
  obtain ⟨-, hfraud, hp, h⟩ := h.imp_right bind_eq_ok.1
  obtain ⟨_, hspend, h⟩ := bind_eq_ok.1 h
  cases h
  obtain ⟨hl, hs⟩ := availableEntry_eq_ok.1 he
  exact ⟨hl, hs, hspend, hp⟩

/-- The ticket of a vote or a revocation has reached its maturity and some blocks more. -/
theorem checkTicketInput_eq_ok {ticketIn : TxIn} {code : ErrorCode} {extra : Nat}
    {outs : List MinimalOutput}
    (h : checkTicketInput params ticketIn txHeight view code extra = .ok outs) :
    ∃ entry, view.lookupEntry ticketIn.previousOutPoint.hash = some entry ∧
      params.ticketMaturity + extra ≤ entry.age txHeight := by
  unfold checkTicketInput at h
  rw [rejectIf_bind_eq_ok] at h
  obtain ⟨-, h⟩ := h
  split at h
  · cases h
  next entry hl =>
    simp only [rejectIf_bind_eq_ok] at h
    exact ⟨entry, hl, not_lt.1 h.2.2.1⟩

section

variable (h : checkStakeInputs params tx txHeight view = .ok ()) (hin : txIn ∈ tx.inputs)

include h hin

/-- The one input of a vote, apart from the stakebase, or of a revocation is the ticket, and it is
checked as such. -/
theorem checkStakeInputs_ticket : (tx.isSSGen = true → ∃ outs,
      checkTicketInput params txIn txHeight view .errInvalidVoteInput 1 = .ok outs) ∧
    (tx.isSSRtx = true → ∃ outs,
      checkTicketInput params txIn txHeight view .errInvalidRevokeInput 2 = .ok outs) := by
  unfold checkStakeInputs at h
  constructor
  · intro hvote
    have htype : tx.txType = .ssgen := by simpa [Tx.isSSGen] using hvote
    obtain ⟨stakebase, ticket, hinputs⟩ := voteInputs_of_ssgen (htype ▸ tx.typed)
    obtain rfl : txIn = ticket := by simpa [Tx.inputs, hvote, hinputs.txIn] using hin
    rw [htype] at h
    unfold checkVoteInputs at h
    obtain ⟨votedOn, -, h⟩ := bind_eq_ok.1 h
    obtain ⟨base, -, h⟩ := bind_eq_ok.1 h
    rw [rejectIf_bind_eq_ok] at h
    obtain ⟨ticketIn, hget, h⟩ := bind_eq_ok.1 h.2
    obtain ⟨outs, hticket, -⟩ := bind_eq_ok.1 h
    obtain rfl : txIn = ticketIn := by simpa [hinputs.txIn] using Slice.get_eq_ok.1 hget
    exact ⟨outs, hticket⟩
  · intro hrevocation
    have htype : tx.txType = .ssrtx := by simpa [Tx.isSSRtx] using hrevocation
    obtain ⟨ticket, hinputs⟩ := txIn_of_ssrtx (htype ▸ tx.typed)
    obtain rfl : txIn = ticket := by simpa [Tx.inputs, Tx.isSSGen, htype, hinputs] using hin
    rw [htype] at h
    unfold checkRevocationInputs at h
    obtain ⟨ticketIn, hget, h⟩ := bind_eq_ok.1 h
    obtain ⟨outs, hticket, -⟩ := bind_eq_ok.1 h
    obtain rfl : txIn = ticketIn := by simpa [hinputs] using Slice.get_eq_ok.1 hget
    exact ⟨outs, hticket⟩

/-- The ticket of a vote or a revocation is old enough. -/
theorem ticket_age (hl : view.lookupEntry txIn.previousOutPoint.hash = some entry) :
    (tx.isSSGen = true → params.ticketMaturity + 1 ≤ entry.age txHeight) ∧
      (tx.isSSRtx = true → params.ticketMaturity + 2 ≤ entry.age txHeight) := by
  have hage : ∀ {code extra outs},
      checkTicketInput params txIn txHeight view code extra = .ok outs →
        params.ticketMaturity + extra ≤ entry.age txHeight := by
    intro code extra outs hticket
    obtain ⟨e, he, hage⟩ := checkTicketInput_eq_ok hticket
    cases hl.symm.trans he
    exact hage
  obtain ⟨hvote, hrevocation⟩ := checkStakeInputs_ticket h hin
  refine ⟨fun hv => ?_, fun hr => ?_⟩
  · obtain ⟨outs, hticket⟩ := hvote hv
    exact_mod_cast hage hticket
  · obtain ⟨outs, hticket⟩ := hrevocation hr
    exact_mod_cast hage hticket

end

end Inputs

/-! ## Sums -/

/-- What the sanity checks of a transaction promise about the values of its outputs. -/
structure SaneOutputs (msgTx : MsgTx) : Prop where
  value : ∀ out ∈ msgTx.txOut, 0 ≤ out.value ∧ out.value ≤ maxAmount
  total : (msgTx.txOut.map TxOut.value).sum ≤ maxAmount

/-- The value of the output that an input spends, as the view has it. -/
def inputAmount (view : UtxoViewpoint) (txIn : TxIn) : Int :=
  match view.lookupEntry txIn.previousOutPoint.hash with
  | none => 0
  | some entry => entry.amountByIndex txIn.previousOutPoint.index

/-- The value that the stakebase of a vote stands for. -/
def stakebaseAmount (tx : Tx) : Int :=
  if tx.isSSGen then
    match ssgenBlockVotedOn tx.msgTx with
    | .ok votedOn => calcStakeVoteSubsidy params votedOn.2
    | .error _ => 0
  else 0

theorem inRange_of_bounds {x : Int} (h0 : 0 ≤ x) (hle : x ≤ 1000 * maxAmount) :
    Int64.InRange x := by
  unfold maxAmount atomsPerCoin at hle
  unfold Int64.InRange
  omega

section Sums

variable {params : Params} {entry : UtxoEntry} {total value total' : Int}

theorem addInputValue_eq_ok (h0 : 0 ≤ total) (hle : total ≤ maxAmount)
    (h : addInputValue wrapping total value = .ok total') :
    (0 ≤ value ∧ value ≤ maxAmount) ∧ total' = total + value ∧ total' ≤ maxAmount := by
  unfold addInputValue at h
  simp only [rejectIf_bind_eq_ok, not_lt] at h
  obtain ⟨hv0, hvle, h⟩ := h
  rw [wrapping_eq (inRange_of_bounds (by omega) (by unfold maxAmount atomsPerCoin at *; omega)),
    ok_bind, rejectIf_bind_eq_ok] at h
  obtain ⟨hbad, h⟩ := h
  cases h
  exact ⟨⟨hv0, hvle⟩, rfl, not_lt.1 fun hlt => hbad (.inr hlt)⟩

/-- **The loop over the inputs**: each of them passes, and their values add up. -/
theorem checkInputs_eq_ok {txIns : List TxIn} (h0 : 0 ≤ total) (hle : total ≤ maxAmount)
    (h : txIns.foldlM (fun total txIn => do
        let entry ← checkInput params tx txHeight view fraudProof txIn
        addInputValue wrapping total (entry.amountByIndex txIn.previousOutPoint.index)) total =
      .ok total') :
    (∀ txIn ∈ txIns, ∃ entry, checkInput params tx txHeight view fraudProof txIn = .ok entry ∧
      0 ≤ entry.amountByIndex txIn.previousOutPoint.index ∧
      entry.amountByIndex txIn.previousOutPoint.index ≤ maxAmount) ∧
    total' = total + (txIns.map (inputAmount view)).sum ∧ total ≤ total' ∧ total' ≤ maxAmount := by
  induction txIns generalizing total with
  | nil =>
    cases h
    exact ⟨nofun, by simp, le_rfl, hle⟩
  | cons txIn txIns ih =>
    obtain ⟨total₁, h₁, h⟩ := foldlM_cons_eq_ok.1 h
    obtain ⟨entry, hentry, h₁⟩ := bind_eq_ok.1 h₁
    obtain ⟨hvalue, rfl, hle₁⟩ := addInputValue_eq_ok h0 hle h₁
    obtain ⟨hall, rfl, hge, hle'⟩ := ih (by omega) hle₁ h
    have hamount : inputAmount view txIn = entry.amountByIndex txIn.previousOutPoint.index := by
      rw [inputAmount, (checkInput_eq_ok hentry).1]
    refine ⟨forall_mem_cons.2 ⟨⟨entry, hentry, hvalue⟩, hall⟩, ?_, by omega, hle'⟩
    rw [map_cons, sum_cons, hamount, add_assoc]

theorem addOutputValues_eq {outs : List TxOut} (h0 : 0 ≤ total)
    (hvalue : ∀ out ∈ outs, 0 ≤ out.value)
    (hle : total + (outs.map TxOut.value).sum ≤ 1000 * maxAmount) :
    addOutputValues wrapping total outs = .ok (total + (outs.map TxOut.value).sum) := by
  induction outs generalizing total with
  | nil => simp [addOutputValues]
  | cons out outs ih =>
    obtain ⟨hv, hvalue⟩ := forall_mem_cons.1 hvalue
    rw [map_cons, sum_cons] at hle ⊢
    have hsum : 0 ≤ (outs.map TxOut.value).sum := sum_nonneg (by simpa using hvalue)
    unfold addOutputValues at ih ⊢
    rw [foldlM_cons, wrapping_eq (inRange_of_bounds (by omega) (by omega)), ok_bind,
      ih (by omega) hvalue (by omega), add_assoc]

theorem stakebaseValue_eq_ok (h : stakebaseValue wrapping params tx = .ok value) :
    value = stakebaseAmount params tx ∧ 0 ≤ value ∧ value ≤ maxAmount := by
  unfold stakebaseValue at h
  unfold stakebaseAmount
  split_ifs at h ⊢ with hvote
  · obtain ⟨votedOn, hvotedOn, h⟩ := bind_eq_ok.1 h
    obtain ⟨h0, hle⟩ := calcStakeVoteSubsidy_bounds params votedOn.2
    rw [zero_add, wrapping_eq (inRange_of_bounds h0
      (by unfold maxAmount atomsPerCoin at *; omega))] at h
    cases h
    cases hv : ssgenBlockVotedOn tx.msgTx with
    | error e => rw [hv] at hvotedOn; cases hvotedOn
    | ok v =>
      rw [hv] at hvotedOn
      cases hvotedOn
      exact ⟨rfl, h0, hle⟩
  · cases h
    exact ⟨rfl, le_rfl, by decide⟩

/-- **An accepted transaction**: the checks that it has passed, and its fee. -/
theorem checkTransactionInputs_eq_ok {fee : Int} (hcoinbase : isCoinBase tx = false)
    (houts : SaneOutputs tx.msgTx)
    (h : checkTransactionInputs wrapping params tx txHeight view fraudProof = .ok fee) :
    checkStakeInputs params tx txHeight view = .ok () ∧
    (∀ txIn ∈ tx.inputs, ∃ entry, checkInput params tx txHeight view fraudProof txIn = .ok entry ∧
      0 ≤ entry.amountByIndex txIn.previousOutPoint.index ∧
      entry.amountByIndex txIn.previousOutPoint.index ≤ maxAmount) ∧
    stakebaseAmount params tx + (tx.inputs.map (inputAmount view)).sum ≤ maxAmount ∧
    fee = stakebaseAmount params tx + (tx.inputs.map (inputAmount view)).sum -
      (tx.msgTx.txOut.map TxOut.value).sum ∧ 0 ≤ fee := by
  unfold checkTransactionInputs at h
  rw [hcoinbase] at h
  obtain ⟨_, hstake, h⟩ := bind_eq_ok.1 h
  obtain ⟨base, hbase, h⟩ := bind_eq_ok.1 h
  obtain ⟨totalIn, hin, h⟩ := bind_eq_ok.1 h
  obtain ⟨rfl, hb0, hble⟩ := stakebaseValue_eq_ok hbase
  obtain ⟨hall, rfl, hge, hle⟩ := checkInputs_eq_ok hb0 hble hin
  have hsum : 0 ≤ (tx.msgTx.txOut.map TxOut.value).sum :=
    sum_nonneg (by simpa using fun out hout => (houts.value out hout).1)
  have hmax := houts.total
  rw [addOutputValues_eq le_rfl (fun out hout => (houts.value out hout).1)
    (by unfold maxAmount atomsPerCoin at *; omega), ok_bind, rejectIf_bind_eq_ok, zero_add] at h
  obtain ⟨hlt, h⟩ := h
  rw [wrapping_eq (inRange_of_bounds (by omega) (by unfold maxAmount atomsPerCoin at *; omega))]
    at h
  cases h
  exact ⟨hstake, hall, hle, rfl, by omega⟩

end Sums

/-! ## The rules -/

/-- All rules on an accepted transaction, with the number of blocks for which payouts of votes and
revocations are held back. -/
structure SpendRules (maturity : Nat) (tx : Tx) (txHeight : Nat)
    (view : UtxoViewpoint) (fee : Int) : Prop where
  inputs : ∀ txIn ∈ tx.inputs, ∃ entry,
    view.lookupEntry txIn.previousOutPoint.hash = some entry ∧
      InputRules params tx txHeight entry txIn ∧ PayoutRule maturity txHeight entry txIn
  fee_eq : fee = stakebaseAmount params tx + (tx.inputs.map (inputAmount view)).sum -
    (tx.msgTx.txOut.map TxOut.value).sum
  fee_nonneg : 0 ≤ fee
  total_le : stakebaseAmount params tx + (tx.inputs.map (inputAmount view)).sum ≤ maxAmount

theorem spendRules_of_accepted {params : Params} {fee : Int} (hcoinbase : isCoinBase tx = false)
    (houts : SaneOutputs tx.msgTx)
    (h : checkTransactionInputs wrapping params tx txHeight view fraudProof = .ok fee) :
    SpendRules params params.sstxChangeMaturity tx txHeight view fee := by
  obtain ⟨hstake, hall, hle, hfee, hfee0⟩ := checkTransactionInputs_eq_ok hcoinbase houts h
  refine ⟨fun txIn hin => ?_, hfee, hfee0, hle⟩
  obtain ⟨entry, hentry, hamount⟩ := hall txIn hin
  obtain ⟨hl, hspent, hspend, -⟩ := checkInput_eq_ok hentry
  obtain ⟨htree, hcb, hexpiry, c, hc, hsubmission, hpayout⟩ := checkSpendable_eq_ok hspend
  obtain ⟨hvote, hrevocation⟩ := ticket_age hstake hin hl
  have hunique : ∀ c', entry.HasClass txIn.previousOutPoint.index c' → c = c' :=
    fun c' hc' => Except.ok.inj (hc.symm.trans hc')
  refine ⟨entry, hl, ⟨hspent, htree, hcb, hexpiry, fun h => ?_, fun h => ?_, hamount⟩, fun h => ?_⟩
  · exact hpayout (.inr (.inr (hunique _ h)))
  · rcases Bool.or_eq_true_iff.1 (hsubmission (hunique _ h)) with hb | hb
    · exact .inl ⟨hb, Int.add_one_le_iff.1 (hvote hb)⟩
    · exact .inr ⟨hb, hrevocation hb⟩
  · exact hpayout (h.imp (hunique _) fun h => .inl (hunique _ h))

/-- **The rules on spending.** Every accepted transaction keeps to them with the maturity that the
code asks of payouts. It keeps to them with the one of the comment exactly if none of its inputs
spends a payout between the two. -/
theorem checkTransactionInputs_rules {params : Params} {fee : Int}
    (hcoinbase : isCoinBase tx = false) (houts : SaneOutputs tx.msgTx)
    (hok : checkTransactionInputs Int64.wrapping params tx txHeight view fraudProof = .ok fee) :
    SpendRules params params.sstxChangeMaturity tx txHeight view fee ∧
    (SpendRules params params.coinbaseMaturity tx txHeight view fee ↔
      ∀ txIn ∈ tx.inputs, ∀ entry, view.lookupEntry txIn.previousOutPoint.hash = some entry →
        ¬ EarlyPayout params txHeight entry txIn) := by
  have hrules := spendRules_of_accepted hcoinbase houts hok
  refine ⟨hrules, fun h txIn hin entry hl hearly => ?_, fun h => ⟨fun txIn hin => ?_, hrules.fee_eq,
    hrules.fee_nonneg, hrules.total_le⟩⟩
  · obtain ⟨entry', hl', -, hpayout⟩ := h.inputs txIn hin
    cases hl.symm.trans hl'
    exact absurd (hpayout hearly.1) (not_le.2 hearly.2.2)
  · obtain ⟨entry, hl, hinput, hpayout⟩ := hrules.inputs txIn hin
    exact ⟨entry, hl, hinput, fun hc => not_lt.1 fun hlt =>
      h txIn hin entry hl ⟨hc, hpayout hc, hlt⟩⟩

/-! ## The payout of a vote -/

/-- Pay to a public key hash of zeros. -/
def zeroPubKeyHashScript : List UInt8 :=
  [OP_DUP, OP_HASH160, OP_DATA_20] ++ List.replicate 20 0 ++ [OP_EQUALVERIFY, OP_CHECKSIG]

/-- The payout of a vote in the genesis block, of one atom. -/
def votePayout : UtxoEntry :=
  { newUtxoEntry 1 0 0 false false .ssgen with
    sparseOutputs := OrdMap.empty.insert 2 ⟨1, 0, OP_SSGEN :: zeroPubKeyHashScript, false⟩ }

/-- The input that spends the payout. -/
def payoutIn : TxIn := ⟨⟨Hash.ofNat 1, 2, txTreeStake⟩, 1, 0, 0, []⟩

/-- A transaction that spends the payout. -/
def spendPayout : Tx where
  hash := Hash.ofNat 2
  msgTx := ⟨1, [payoutIn], [⟨1, 0, zeroPubKeyHashScript⟩], 0⟩
  txType := .regular
  typed := by decide +kernel

/-- A view that has the payout. -/
def payoutView : UtxoViewpoint := newUtxoViewpoint.setEntry (Hash.ofNat 1) votePayout

/-- After 256 blocks. -/
theorem spendPayout_rules :
    SpendRules mainNetParams mainNetParams.coinbaseMaturity spendPayout 256 payoutView 0 := by
  have hok : checkTransactionInputs Int64.wrapping mainNetParams spendPayout 256 payoutView true =
      .ok 0 := by decide +kernel
  refine (checkTransactionInputs_rules (by decide +kernel) ⟨by decide, by decide⟩ hok).2.2 ?_
  intro txIn hin entry hl hearly
  obtain rfl : txIn = payoutIn := by simpa [Tx.inputs, Tx.isSSGen, spendPayout] using hin
  have hview : payoutView.lookupEntry payoutIn.previousOutPoint.hash = some votePayout := by
    decide +kernel
  cases hl.symm.trans hview
  exact absurd hearly.2.2 (by decide)

/-- On the main network the payout of a vote can be spent in the next block. -/
theorem spendPayout_mainNet :
    checkTransactionInputs Int64.wrapping mainNetParams spendPayout 1 payoutView true = .ok 0 ∧
      payoutView.lookupEntry (Hash.ofNat 1) = some votePayout ∧ votePayout.HasClass 2 .stakeGenTy ∧
      votePayout.age 1 < mainNetParams.coinbaseMaturity := by
  decide +kernel

end Fnod
