import Fnod.Blockchain.Spendable
import Fnod.Lib.ProRata
import Fnod.Stake.Commitments
import Mathlib.Algebra.Order.BigOperators.Group.List

/-!
# What a ticket returns

The contributors to a ticket are paid in proportion, by a vote or by a revocation. The commitments
of the ticket say to whom, and how much of a payout may be taken as a fee.

* `calcTicketReturnAmount_eq`, `calculateRewards_eq` — the shares are rounded down.
-/

namespace Fnod

open Bytes Except List ProRata

/-! ## The shares -/

section Shares

variable {price subsidy : Int}

section

variable (hprice : 0 ≤ price ∧ price ≤ maxAmount) (hsubsidy : 0 ≤ subsidy ∧ subsidy ≤ maxAmount)
  {contribution whole : Int}

include hprice hsubsidy

theorem wrap_outputAmount : Int64.wrap (price + subsidy) = price + subsidy := by
  have hmax : maxAmount = 21000000 * 100000000 := rfl
  exact Int64.wrap_of_inRange ⟨by omega, by omega⟩

theorem wrap_share (hc : 0 ≤ contribution) (hle : contribution ≤ whole) (hwhole : 0 < whole) :
    Int64.wrap (contribution * (price + subsidy) / whole) =
      contribution * (price + subsidy) / whole := by
  have hmax : maxAmount = 21000000 * 100000000 := rfl
  have hpos := ProRata.share_nonneg hc (show 0 ≤ price + subsidy by omega) hwhole
  have hupper := share_le hle (show 0 ≤ price + subsidy by omega) hwhole
  exact Int64.wrap_of_inRange ⟨by omega, by omega⟩

/-- **`calcTicketReturnAmount`** is the share of the contribution, rounded down. -/
theorem calcTicketReturnAmount_eq
    (hc : 0 ≤ contribution) (hle : contribution ≤ whole) (hwhole : 0 < whole) :
    calcTicketReturnAmount contribution price subsidy whole =
      .ok (contribution * (price + subsidy) / whole) := by
  unfold calcTicketReturnAmount
  simp only [if_neg (ne_of_gt hwhole), wrap_outputAmount hprice hsubsidy]
  rw [ediv_shift _ hwhole (by decide), wrap_share hprice hsubsidy hc hle hwhole]

end

variable {contributions : List Int}

theorem le_sum (h : ∀ c ∈ contributions, 0 ≤ c) {c : Int}
    (hc : c ∈ contributions) : c ≤ contributions.sum := single_le_sum h c hc

/-- The sum is the sum of integers, as long as it fits. -/
theorem foldl_wrap_eq (h : ∀ c ∈ contributions, 0 ≤ c) {start : Int} (hstart : 0 ≤ start)
    (hfits : start + contributions.sum < 2 ^ 63) :
    contributions.foldl (fun total amount => Int64.wrap (total + amount)) start =
      start + contributions.sum := by
  induction contributions generalizing start with
  | nil => simp
  | cons c cs ih =>
    obtain ⟨hc, hcs⟩ := forall_mem_cons.1 h
    have hsum := sum_nonneg hcs
    rw [sum_cons] at hfits ⊢
    rw [foldl_cons, Int64.wrap_of_inRange ⟨by omega, by omega⟩, ih hcs (by omega) (by omega)]
    omega

/-- **`CalculateRewards`** gives the shares of all contributions. -/
theorem calculateRewards_eq (hprice : 0 ≤ price ∧ price ≤ maxAmount)
    (hsubsidy : 0 ≤ subsidy ∧ subsidy ≤ maxAmount) (h : ∀ c ∈ contributions, 0 ≤ c)
    (hpos : 0 < contributions.sum) (hfits : contributions.sum < 2 ^ 63) :
    calculateRewards contributions price subsidy =
      .ok (shares (price + subsidy) contributions.sum contributions) := by
  unfold calculateRewards shares
  rw [foldl_wrap_eq h (le_refl 0) (by omega), zero_add, wrap_outputAmount hprice hsubsidy]
  refine mapM_eq_ok.2 (forall₂_map_right_iff.2 (forall₂_same.2 fun c hc => ?_))
  rw [if_neg (ne_of_gt hpos), ediv_shift _ hpos (by decide),
    wrap_share hprice hsubsidy (h c hc) (le_sum h hc) hpos]

end Shares

/-! ## The contributions to a ticket -/

section Contributions

variable {script : List UInt8}

/-- **The second reading** of a commitment, by package `blockchain`. -/
theorem extract_commitmentOf (hlen : 32 ≤ script.length) :
    extractTicketCommitHash script = .ok (commitmentOf script).hash ∧
    isTicketCommitP2SH script = .ok (commitmentOf script).isP2SH ∧
    extractTicketCommitAmount script = .ok ((commitmentOf script).amount : Int) ∧
    extractTicketCommitFeeLimits script = .ok (commitmentOf script).limits := by
  refine ⟨Slice.slice_eq (by omega) (by omega), ?_, ?_, ?_⟩
  · have hget : script[29]? = some (script.getD 29 0) := by
      rw [List.getElem?_eq_getElem (by omega)]
      simp [List.getElem?_eq_getElem (show 29 < script.length by omega)]
    rw [isTicketCommitP2SH, Slice.get_eq hget, ok_bind]
    rfl
  · rw [extractTicketCommitAmount, Slice.slice_eq (by omega) (by omega), ok_bind]
    rfl
  · rw [extractTicketCommitFeeLimits, Slice.slice_eq (by omega) (by omega), ok_bind]
    rfl

/-- The amounts that the commitments of a ticket name. -/
def contributions (ps : List (MinimalOutput × MinimalOutput)) : List Int :=
  ps.map fun p => ((commitmentOf p.1.pkScript).amount : Int)

theorem contributions_nonneg (ps : List (MinimalOutput × MinimalOutput)) :
    ∀ c ∈ contributions ps, 0 ≤ c := by
  intro c hc
  obtain ⟨p, -, rfl⟩ := mem_map.1 hc
  exact Int.natCast_nonneg _

variable {first : MinimalOutput} {ps : List (MinimalOutput × MinimalOutput)}

/-- The sum of `checkTicketRedeemerCommitments` and that of `CalculateRewards` are one. -/
theorem contributionSum_eq (hlen : ∀ p ∈ ps, 32 ≤ p.1.pkScript.length) :
    contributionSum (first :: inPairs ps) =
      .ok ((contributions ps).foldl (fun total amount => Int64.wrap (total + amount)) 0) := by
  suffices hpairs : ∀ k total, ((inPairs ps).zipIdx (2 * k + 1)).foldlM (fun sum out =>
      if out.2 % 2 = 1 then do
        let amount ← extractTicketCommitAmount out.1.pkScript
        .ok (Int64.wrap (sum + amount))
      else .ok sum) total =
      .ok ((contributions ps).foldl (fun total amount => Int64.wrap (total + amount)) total) by
    rw [contributionSum, zipIdx_cons, foldlM_cons]
    exact hpairs 0 0
  induction ps with
  | nil => simp [contributions]
  | cons p ps ih =>
    intro k total
    obtain ⟨hp, hlen⟩ := forall_mem_cons.1 hlen
    simp only [inPairs_cons, zipIdx_cons, foldlM_cons, if_pos (show (2 * k + 1) % 2 = 1 by omega),
      (extract_commitmentOf hp).2.2.1, ok_bind,
      if_neg (show ¬(2 * k + 1 + 1) % 2 = 1 by omega)]
    exact ih hlen (k + 1) _

variable {params : Params} {tx : Tx} {txHeight : Nat} {view : UtxoViewpoint} {fraudProof : Bool}

theorem isTicket_of_sstx (h : tx.txType = .sstx) : IsTicket tx.msgTx :=
  (checkSStx_safely tx.msgTx).of_eq_ok ((check_of_determineTxType (h ▸ tx.typed)).1 rfl)

/-- What one input of an accepted ticket contributes is its value without the change. -/
theorem contribution_eq (houts : tx.msgTx.txOut = first :: inPairs ps)
    (hlen : ∀ p ∈ ps, 32 ≤ p.1.pkScript.length) (hsane : SaneOutputs tx.msgTx) {i : Nat}
    {txIn : TxIn} {p : MinimalOutput × MinimalOutput} (hp : ps[i]? = some p)
    (hvalue : 0 ≤ inputAmount view txIn)
    (h : checkTicketPurchaseInput tx.msgTx view (txIn, i) = .ok ()) :
    ((commitmentOf p.1.pkScript).amount : Int) = inputAmount view txIn - p.2.value := by
  have hfst : tx.msgTx.txOut[i * 2 + 1]? = some p.1 := by
    rw [houts, List.getElem?_cons_succ, mul_comm, getElem?_inPairs_fst, hp]
    rfl
  have hsnd : tx.msgTx.txOut[i * 2 + 2]? = some p.2 := by
    rw [houts, List.getElem?_cons_succ, mul_comm, getElem?_inPairs_snd, hp]
    rfl
  unfold checkTicketPurchaseInput at h
  obtain ⟨entry, hentry, h⟩ := bind_eq_ok.1 h
  simp only [rejectIf_bind_eq_ok] at h
  obtain ⟨-, -, h⟩ := h
  rw [Slice.get_eq hfst, ok_bind, (extract_commitmentOf (hlen p (mem_of_getElem? hp))).2.2.1,
    ok_bind, Slice.get_eq hsnd, ok_bind, rejectIf_eq_ok, not_not] at h
  have hamount : inputAmount view txIn = entry.amountByIndex txIn.previousOutPoint.index := by
    rw [inputAmount, (availableEntry_eq_ok.1 hentry).1]
  rw [← hamount] at h
  -- a sum that wraps around is negative
  have hbound : (commitmentOf p.1.pkScript).amount < 2 ^ 63 := Nat.mod_lt _ (by decide)
  have hchange := hsane.value p.2 (mem_of_getElem? hsnd)
  have hmax : maxAmount = 21000000 * 100000000 := rfl
  rw [Int64.wrap_of_nonneg (by omega) (by omega) (by omega)] at h
  omega

theorem sum_contributions {txIns : List TxIn} (hlen : ps.length = txIns.length)
    (h : ∀ (i : Nat) txIn p, txIns[i]? = some txIn → ps[i]? = some p →
      ((commitmentOf p.1.pkScript).amount : Int) = inputAmount view txIn - p.2.value) :
    (contributions ps).sum =
      (txIns.map (inputAmount view)).sum - (ps.map fun p => p.2.value).sum := by
  induction ps generalizing txIns with
  | nil =>
    obtain rfl := length_eq_zero_iff.1 hlen.symm
    rfl
  | cons p ps ih =>
    match txIns, hlen with
    | txIn :: txIns, hlen =>
      have hfirst := h 0 txIn p rfl rfl
      have hrest := @ih txIns (by simpa using hlen) fun i txIn' p' htxIn hp =>
        h (i + 1) txIn' p' htxIn hp
      simp only [contributions, map_cons, sum_cons] at hrest ⊢
      omega

theorem sum_inPairs (ps : List (MinimalOutput × MinimalOutput)) :
    ((inPairs ps).map TxOut.value).sum =
      (ps.map fun p => p.1.value).sum + (ps.map fun p => p.2.value).sum := by
  induction ps with
  | nil => rfl
  | cons p ps ih =>
    simp only [inPairs_cons, map_cons, sum_cons, ih]
    omega

/-- **The contributions to an accepted ticket** pay for it. -/
theorem contributions_of_accepted (hsstx : tx.txType = .sstx) (hcoinbase : isCoinBase tx = false)
    (hsane : SaneOutputs tx.msgTx) (houts : tx.msgTx.txOut = first :: inPairs ps)
    (hps : ps.length = tx.msgTx.txIn.length) (hlen : ∀ p ∈ ps, 32 ≤ p.1.pkScript.length) {fee : Int}
    (h : checkTransactionInputs Int64.wrapping params tx txHeight view fraudProof = .ok fee) :
    first.value ≤ (contributions ps).sum ∧ (contributions ps).sum ≤ maxAmount := by
  obtain ⟨hstake, hinputs, hle, hfee, hfee0⟩ := checkTransactionInputs_eq_ok hcoinbase hsane h
  have hin : tx.inputs = tx.msgTx.txIn := by simp [Tx.inputs, Tx.isSSGen, hsstx]
  have hbase : stakebaseAmount params tx = 0 := by simp [stakebaseAmount, Tx.isSSGen, hsstx]
  rw [hin] at hinputs hle hfee
  rw [hbase] at hle hfee
  have hpurchase : checkTicketPurchaseInputs tx.msgTx view = .ok () := by
    unfold checkStakeInputs at hstake
    rwa [hsstx] at hstake
  unfold checkTicketPurchaseInputs at hpurchase
  split_ifs at hpurchase with hcount
  have hsum := sum_contributions hps fun i txIn p htxIn hp => contribution_eq houts hlen hsane hp
    (by
      obtain ⟨entry, hentry, h0, -⟩ := hinputs txIn (mem_of_getElem? htxIn)
      rwa [inputAmount, (checkInput_eq_ok hentry).1])
    (forM_eq_ok.1 hpurchase (txIn, i) (mem_zipIdx_iff_getElem?.2 htxIn))
  have hout : (tx.msgTx.txOut.map TxOut.value).sum = first.value +
      ((ps.map fun p => p.1.value).sum + (ps.map fun p => p.2.value).sum) := by
    rw [houts, map_cons, sum_cons, sum_inPairs]
  have hvalue : ∀ p ∈ ps, 0 ≤ p.1.value ∧ 0 ≤ p.2.value := by
    intro p hp
    have hmem : p.1 ∈ tx.msgTx.txOut ∧ p.2 ∈ tx.msgTx.txOut := by
      rw [houts]
      exact ⟨mem_cons_of_mem _ (mem_flatMap.2 ⟨p, hp, by simp⟩),
        mem_cons_of_mem _ (mem_flatMap.2 ⟨p, hp, by simp⟩)⟩
    exact ⟨(hsane.value _ hmem.1).1, (hsane.value _ hmem.2).1⟩
  have hcommitments : 0 ≤ (ps.map fun p => p.1.value).sum :=
    sum_nonneg (forall_mem_map.2 fun p hp => (hvalue p hp).1)
  have hchange : 0 ≤ (ps.map fun p => p.2.value).sum :=
    sum_nonneg (forall_mem_map.2 fun p hp => (hvalue p hp).2)
  omega

end Contributions

/-- **The split of a ticket.** The shares of the contributions are rounded down and nothing
overflows; and what is contributed to a ticket that has a price is positive. -/
theorem ticketReturn_split :
    (∀ (contribs : List Int) (price subsidy : Int), (∀ c ∈ contribs, 0 ≤ c) → 0 < contribs.sum →
      (0 ≤ price ∧ price ≤ maxAmount) → (0 ≤ subsidy ∧ subsidy ≤ maxAmount) →
      ∃ amounts, contribs.mapM (calcTicketReturnAmount · price subsidy contribs.sum) = .ok amounts ∧
        amounts = (contribs.map fun c => c * (price + subsidy) / contribs.sum) ∧
        amounts.sum ≤ price + subsidy ∧ price + subsidy - contribs.length < amounts.sum ∧
        (contribs.sum < 2 ^ 63 → calculateRewards contribs price subsidy = .ok amounts)) ∧
    ∀ (params : Params) (tx : Tx) (txHeight : Nat) (view : UtxoViewpoint) (fraudProof : Bool)
      (fee : Int), tx.txType = .sstx → isCoinBase tx = false → SaneOutputs tx.msgTx →
      (∀ out, tx.msgTx.txOut[submissionOutputIdx]? = some out → 0 < out.value) →
      checkTransactionInputs Int64.wrapping params tx txHeight view fraudProof = .ok fee →
      ∃ sum, contributionSum (convertToMinimalOutputs tx.msgTx) = .ok sum ∧ 0 < sum := by
  constructor
  · intro contribs price subsidy hnonneg hpos hprice hsubsidy
    refine ⟨shares (price + subsidy) contribs.sum contribs, ?_, rfl, sum_shares_le hpos,
      lt_sum_shares hpos, calculateRewards_eq hprice hsubsidy hnonneg hpos⟩
    refine mapM_eq_ok.2 (forall₂_map_right_iff.2 (forall₂_same.2 fun c hc => ?_))
    exact calcTicketReturnAmount_eq hprice hsubsidy (hnonneg c hc) (le_sum hnonneg hc) hpos
  · intro params tx txHeight view fraudProof fee hsstx hcoinbase hsane hprice h
    obtain ⟨first, ps, houts, hps, hlen⟩ := (isTicket_of_sstx hsstx).outputs
    have hfirst := hprice first (by rw [houts]; rfl)
    obtain ⟨hge, hle⟩ := contributions_of_accepted hsstx hcoinbase hsane houts hps hlen h
    refine ⟨_, ?_, lt_of_lt_of_le hfirst hge⟩
    have hmax : maxAmount = 21000000 * 100000000 := rfl
    rw [convertToMinimalOutputs, houts, contributionSum_eq hlen,
      foldl_wrap_eq (contributions_nonneg ps) (le_refl 0) (by omega), zero_add]

/-! ### A ticket without a price -/

/-- A commitment to a public key hash of zeros, with the amount and the limits. -/
def zeroCommitment (amount limits : Nat) : TxOut :=
  ⟨0, 0, [OP_RETURN, 30] ++ List.replicate 20 0 ++ putLE 8 amount ++ putLE 2 limits⟩

/-- A ticket with one input, at the given price. -/
def ticketAt (price : Int) (amount limits : Nat) (change : Int) : MsgTx :=
  ⟨1, [⟨⟨Hash.ofNat 1, 0, txTreeRegular⟩, 5, 0, 0, []⟩],
    [⟨price, 0, OP_SSTX :: zeroPubKeyHashScript⟩, zeroCommitment amount limits,
      ⟨change, 0, OP_SSTXCHANGE :: zeroPubKeyHashScript⟩], 0⟩

/-- The output that the ticket spends, of five atoms. -/
def fiveAtoms : UtxoEntry :=
  { newUtxoEntry 1 0 0 false false .regular with
    sparseOutputs := OrdMap.empty.insert 0 ⟨5, 0, zeroPubKeyHashScript, false⟩ }

/-- A view that has the output. -/
def fiveAtomsView : UtxoViewpoint := newUtxoViewpoint.setEntry (Hash.ofNat 1) fiveAtoms

/-- All of the input is change. -/
def freeTicket : Tx where
  hash := Hash.ofNat 2
  msgTx := ticketAt 0 0 0 5
  txType := .sstx
  typed := by decide +kernel

/-- A price of four atoms. -/
def cheapTicket : Tx where
  hash := Hash.ofNat 3
  msgTx := ticketAt 4 4 0 1
  txType := .sstx
  typed := by decide +kernel

theorem cheapTicket_split : calculateRewards [1, 3] 4 3 = .ok [1, 5] ∧
    ∃ sum, contributionSum (convertToMinimalOutputs cheapTicket.msgTx) = .ok sum ∧ 0 < sum := by
  obtain ⟨hsplit, hsum⟩ := ticketReturn_split
  obtain ⟨amounts, -, rfl, -, -, hrewards⟩ := hsplit [1, 3] 4 3 (by decide) (by decide) (by decide)
    (by decide)
  refine ⟨hrewards (by decide), hsum mainNetParams cheapTicket 1 fiveAtomsView false 0 rfl
    (by decide +kernel) ⟨by decide, by decide⟩ (by decide) ?_⟩
  decide +kernel

/-- A ticket without a price is accepted, and nothing is contributed to it; and contributions whose
sum does not fit are not split. -/
theorem freeTicket_accepted :
    (freeTicket.txType = .sstx ∧ checkTicketPurchaseInputs freeTicket.msgTx fiveAtomsView = .ok () ∧
      checkTransactionInputs Int64.wrapping mainNetParams freeTicket 1 fiveAtomsView true = .ok 0 ∧
      contributionSum (convertToMinimalOutputs freeTicket.msgTx) = .ok 0) ∧
    calculateRewards [2 ^ 63 - 1, 2 ^ 63 - 1, 4] 4 0 ≠
      .ok ([2 ^ 63 - 1, 2 ^ 63 - 1, 4].map fun c => c * (4 + 0) / (2 ^ 64 + 2)) := by
  refine ⟨⟨rfl, ?_, ?_, ?_⟩, ?_⟩ <;> decide +kernel

end Fnod
