import Fnod.Blockchain.Subsidy
import Fnod.Blockchain.UtxoViewpoint
import Fnod.Lib.Int64

/-!
# `validate.go`: checking a transaction against the unspent outputs

`CheckTransactionInputs` checks the inputs of a transaction against a view, and returns its fee;
tickets, votes and revocations have rules of their own. The counts of signature operations are here,
too. Everything is executable; what accepted transactions guarantee is proved in the modules that
follow.

Sums of 64-bit amounts take the arithmetic as an argument (`Int64.Arith`), so that the run of the
machine can be compared with one that stops at an overflow.
-/

namespace Fnod

open Except Bytes

def submissionOutputIdx : Nat := 0

def ruleError {α : Type} (code : ErrorCode) : Except (Fault ChainError) α :=
  .error (.err (.rule code))

/-- A check that fails with a rule error. -/
def rejectIf (bad : Prop) [Decidable bad] (code : ErrorCode) : Except (Fault ChainError) Unit :=
  if bad then ruleError code else .ok ()

/-- The value of a function of package `stake` that has no error. -/
def stakeValue {α : Type} : Except (Fault StakeRuleError) α → Except (Fault ChainError) α
  | .ok a => .ok a
  | .error _ => .error .panic

/-! ## Scripts of tickets, votes and revocations -/

variable (ticketOuts : List MinimalOutput) (msgTx : MsgTx) (params : Params) (tx : Tx)
  (txHeight : Nat) (view : UtxoViewpoint) (script : List UInt8) (stakeOpcode : UInt8)

/-- The bytes of a script at some places are the given ones. -/
def hasBytes (bytes : List (Nat × UInt8)) : Bool :=
  bytes.all fun (i, b) => script[i]? = some b

def extractStakePubKeyHash : Option (List UInt8) :=
  if script.length = 26 ∧ hasBytes script [(0, stakeOpcode), (1, OP_DUP), (2, OP_HASH160),
      (3, OP_DATA_20), (24, OP_EQUALVERIFY), (25, OP_CHECKSIG)] then
    some ((script.take 24).drop 4)
  else none

def extractStakeScriptHash : Option (List UInt8) :=
  if script.length = 24 ∧ hasBytes script [(0, stakeOpcode), (1, OP_HASH160), (2, OP_DATA_20),
      (23, OP_EQUAL)] then
    some ((script.take 23).drop 3)
  else none

/-- `isPubKeyHash` of package `blockchain`. -/
def isPubKeyHashScript : Bool :=
  script.length = 25 ∧ hasBytes script [(0, OP_DUP), (1, OP_HASH160), (2, OP_DATA_20),
    (23, OP_EQUALVERIFY), (24, OP_CHECKSIG)]

/-- `isScriptHash` of package `blockchain`. -/
def isScriptHashScript : Bool :=
  script.length = 23 ∧ hasBytes script [(0, OP_HASH160), (1, OP_DATA_20), (22, OP_EQUAL)]

/-- A tagged script of one of the two address kinds. -/
def isStakeAddressScript : Bool :=
  (extractStakePubKeyHash script stakeOpcode).isSome ||
    (extractStakeScriptHash script stakeOpcode).isSome

def isAllowedTicketInputScriptForm : Bool :=
  isPubKeyHashScript script || isScriptHashScript script ||
    isStakeAddressScript script OP_SSGEN || isStakeAddressScript script OP_SSRTX ||
    isStakeAddressScript script OP_SSTXCHANGE

/-- `isStakeSubmission` of package `blockchain`. -/
def isStakeSubmissionScript : Bool := isStakeAddressScript script OP_SSTX

/-- `extractTicketCommitAmount`: the top bit of the amount is a flag. -/
def extractTicketCommitAmount : Except (Fault ChainError) Int := do
  let amtBytes ← Slice.slice script 22 30
  .ok ((getLE amtBytes % 2 ^ 63 : Nat) : Int)

def extractTicketCommitHash : Except (Fault ChainError) (List UInt8) :=
  Slice.slice script 2 22

def isTicketCommitP2SH : Except (Fault ChainError) Bool := do
  let b ← Slice.get script 29
  .ok (b &&& 0x80 != 0)

def extractTicketCommitFeeLimits : Except (Fault ChainError) Nat := do
  let encodedLimits ← Slice.slice script 30 32
  .ok (getLE encodedLimits)

/-- `calcTicketReturnAmount`, with numbers of any size in between. -/
def calcTicketReturnAmount (contribAmount ticketPurchaseAmount voteSubsidy contributionSum : Int) :
    Except (Fault ChainError) Int :=
  if contributionSum = 0 then .error .panic
  else
    let totalOutputAmt := Int64.wrap (ticketPurchaseAmount + voteSubsidy)
    .ok (Int64.wrap (contribAmount * totalOutputAmt * 2 ^ 32 / contributionSum / 2 ^ 32))

/-! ## Inputs -/

/-- The entry of an output that exists and is not spent. -/
def availableEntry (op : OutPoint) : Except (Fault ChainError) UtxoEntry :=
  match view.lookupEntry op.hash with
  | none => ruleError .errMissingTxOut
  | some entry => if entry.isOutputSpent op.index then ruleError .errMissingTxOut else .ok entry

/-- One input of `checkTicketPurchaseInputs`, with its commitment and its change. -/
def checkTicketPurchaseInput (input : TxIn × Nat) : Except (Fault ChainError) Unit := do
  let (txIn, txInIdx) := input
  let originTxIndex := txIn.previousOutPoint.index
  let entry ← availableEntry view txIn.previousOutPoint
  rejectIf (entry.scriptVersionByIndex originTxIndex ≠ 0) .errTicketInputScript
  rejectIf (isAllowedTicketInputScriptForm (entry.pkScriptByIndex originTxIndex) = false)
    .errTicketInputScript
  let commitment ← Slice.get msgTx.txOut (txInIdx * 2 + 1)
  let commitmentAmount ← extractTicketCommitAmount commitment.pkScript
  let change ← Slice.get msgTx.txOut (txInIdx * 2 + 2)
  rejectIf (Int64.wrap (commitmentAmount + change.value) ≠ entry.amountByIndex originTxIndex)
    .errTicketCommitment

def checkTicketPurchaseInputs : Except (Fault ChainError) Unit :=
  if msgTx.txIn.length * 2 + 1 ≠ msgTx.txOut.length then .error .panic
  else msgTx.txIn.zipIdx.forM (checkTicketPurchaseInput msgTx view)

/-- `checkTicketSubmissionInput`: whether the error it returns is `nil`. -/
def checkTicketSubmissionInput (ticketUtxo : UtxoEntry) : Bool :=
  ticketUtxo.scriptVersionByIndex submissionOutputIdx = 0 ∧
    isStakeSubmissionScript (ticketUtxo.pkScriptByIndex submissionOutputIdx) ∧
    ticketUtxo.txType = .sstx

/-- The hash that an output pays to, of the kind that the commitment asks for. -/
def paymentHash (p2sh : Bool) (script : List UInt8) (stakeOpcode : UInt8) :
    Except (Fault ChainError) (List UInt8) :=
  match if p2sh then extractStakeScriptHash script stakeOpcode
    else extractStakePubKeyHash script stakeOpcode with
  | some h => .ok h
  | none => ruleError .errBadPayeeScriptType

/-- The value of a payout against the value that is due. With a limit on fees it may be lower, by
less than a power of two. -/
def checkPayeeValue (value expectedOutAmt : Int) (feeLimit : Option Nat) :
    Except (Fault ChainError) Unit :=
  match feeLimit with
  | none => rejectIf (value ≠ expectedOutAmt) .errBadPayeeValue
  | some feeLimitLog2 => do
    let amtLimitLow :=
      if feeLimitLog2 < 63 ∧ (2 : Int) ^ feeLimitLog2 < expectedOutAmt then
        expectedOutAmt - 2 ^ feeLimitLog2
      else 0
    rejectIf (value < amtLimitLow) .errBadPayeeValue
    rejectIf (value > expectedOutAmt) .errBadPayeeValue

/-- One payout of `checkTicketRedeemerCommitments`. -/
def checkPayee (isVote : Bool)
    (voteSubsidy ticketPaidAmt contributionSum : Int) (payout : TxOut × Nat) :
    Except (Fault ChainError) Unit := do
  let (txOut, k) := payout
  rejectIf (txOut.version ≠ 0) .errBadPayeeScriptVersion
  let commitment ← Slice.get ticketOuts (k * 2 + 1)
  let p2sh ← isTicketCommitP2SH commitment.pkScript
  let payment ← paymentHash p2sh txOut.pkScript (if isVote then OP_SSGEN else OP_SSRTX)
  let commitmentHash ← extractTicketCommitHash commitment.pkScript
  rejectIf (payment ≠ commitmentHash) .errMismatchedPayeeHash
  let commitmentAmt ← extractTicketCommitAmount commitment.pkScript
  let expectedOutAmt ←
    calcTicketReturnAmount commitmentAmt ticketPaidAmt voteSubsidy contributionSum
  let feeLimitsEncoded ← extractTicketCommitFeeLimits commitment.pkScript
  let hasFeeLimitFlag := if isVote then sstxVoteFractionFlag else sstxRevFractionFlag
  let feeLimitMask := if isVote then sstxVoteReturnFractionMask else sstxRevReturnFractionMask
  checkPayeeValue txOut.value expectedOutAmt
    (if feeLimitsEncoded &&& hasFeeLimitFlag = 0 then none
      else some (feeLimitsEncoded &&& feeLimitMask))

/-- The contributions to a ticket, which are committed to in the odd outputs. -/
def contributionSum : Except (Fault ChainError) Int :=
  ticketOuts.zipIdx.foldlM (fun sum (out, i) =>
    if i % 2 = 1 then do
      let amount ← extractTicketCommitAmount out.pkScript
      .ok (Int64.wrap (sum + amount))
    else .ok sum) 0

/-- `checkTicketRedeemerCommitments`. The payouts start at the third output of a vote and at the
first one of a revocation. -/
def checkTicketRedeemerCommitments (isVote : Bool)
    (voteSubsidy : Int) : Except (Fault ChainError) Unit := do
  let sum ← contributionSum ticketOuts
  let submission ← Slice.get ticketOuts submissionOutputIdx
  let startIdx := if isVote then 2 else 0
  (msgTx.txOut.drop startIdx).zipIdx.forM
    (checkPayee ticketOuts isVote voteSubsidy submission.value sum)

/-- The ticket that a vote or a revocation spends: it is there, it is a ticket, and it has reached
its maturity and `extra` blocks more. -/
def checkTicketInput (ticketIn : TxIn) (txHeight : Nat) (view : UtxoViewpoint)
    (invalidInput : ErrorCode) (extra : Nat) : Except (Fault ChainError) (List MinimalOutput) := do
  rejectIf (ticketIn.previousOutPoint.index ≠ submissionOutputIdx) invalidInput
  match view.lookupEntry ticketIn.previousOutPoint.hash with
  | none => ruleError .errMissingTxOut
  | some ticketUtxo => do
    rejectIf (ticketUtxo.isFullySpent = true) .errMissingTxOut
    rejectIf (checkTicketSubmissionInput ticketUtxo = false) invalidInput
    rejectIf ((txHeight : Int) - ticketUtxo.height < params.ticketMaturity + extra)
      .errImmatureTicketSpend
    if ticketUtxo.stakeExtra = [] then .error .panic else .ok ticketUtxo.stakeExtra

def checkVoteInputs : Except (Fault ChainError) Unit := do
  let votedOn ← stakeValue (ssgenBlockVotedOn tx.msgTx)
  let voteSubsidy := calcStakeVoteSubsidy params votedOn.2
  let stakebase ← Slice.get tx.msgTx.txIn 0
  rejectIf (stakebase.valueIn ≠ voteSubsidy) .errBadStakebaseAmountIn
  let ticketIn ← Slice.get tx.msgTx.txIn 1
  let ticketOuts ← checkTicketInput params ticketIn txHeight view .errInvalidVoteInput 1
  rejectIf (((tx.msgTx.txOut.length : Int) - 2) * 2 ≠ (ticketOuts.length : Int) - 1)
    .errBadNumPayees
  checkTicketRedeemerCommitments ticketOuts tx.msgTx true voteSubsidy

def checkRevocationInputs : Except (Fault ChainError) Unit := do
  let ticketIn ← Slice.get tx.msgTx.txIn 0
  let ticketOuts ← checkTicketInput params ticketIn txHeight view .errInvalidRevokeInput 2
  rejectIf ((tx.msgTx.txOut.length : Int) * 2 ≠ (ticketOuts.length : Int) - 1) .errBadNumPayees
  checkTicketRedeemerCommitments ticketOuts tx.msgTx false 0

/-- The checks of `CheckTransactionInputs` for one type of stake transaction. -/
def checkStakeInputs : Except (Fault ChainError) Unit :=
  match tx.txType with
  | .regular => .ok ()
  | .sstx => checkTicketPurchaseInputs tx.msgTx view
  | .ssgen => checkVoteInputs params tx txHeight view
  | .ssrtx => checkRevocationInputs params tx txHeight view

/-- The fraud proof of an input says what the entry says, if it is to be checked. -/
def checkFraudProof (fraudProof : Bool) (entry : UtxoEntry) (txIn : TxIn) :
    Except (Fault ChainError) Unit :=
  if fraudProof then do
    rejectIf (txIn.valueIn ≠ entry.amountByIndex txIn.previousOutPoint.index) .errFraudAmountIn
    rejectIf (txIn.blockHeight ≠ entry.height) .errFraudBlockHeight
    rejectIf (txIn.blockIndex ≠ entry.index) .errFraudBlockIndex
  else .ok ()

/-- The tree that a transaction of the given type is in. -/
def indicatedTree (txType : TxType) : Int :=
  if txType ≠ .regular then txTreeStake else txTreeRegular

/-- Who may spend the output of an entry, and when. -/
def checkSpendable (entry : UtxoEntry) (txIn : TxIn) : Except (Fault ChainError) Unit := do
  let originTxIndex := txIn.previousOutPoint.index
  let blocksSincePrev := (txHeight : Int) - entry.height
  rejectIf (entry.isCoinBase = true ∧ blocksSincePrev < params.coinbaseMaturity) .errImmatureSpend
  rejectIf (entry.hasExpiry = true ∧ blocksSincePrev < params.coinbaseMaturity)
    .errExpiryTxSpentEarly
  rejectIf (indicatedTree entry.txType ≠ txIn.previousOutPoint.tree) .errDiscordantTxTree
  let scriptClass ← getScriptClass (entry.scriptVersionByIndex originTxIndex)
    (entry.pkScriptByIndex originTxIndex)
  rejectIf ((tx.isSSGen || tx.isSSRtx) = false ∧ scriptClass = .stakeSubmissionTy)
    .errTxSStxOutSpend
  rejectIf ((scriptClass = .stakeGenTy ∨ scriptClass = .stakeRevocationTy) ∧
    blocksSincePrev < params.sstxChangeMaturity) .errImmatureSpend
  rejectIf (scriptClass = .stakeSubChangeTy ∧ blocksSincePrev < params.sstxChangeMaturity)
    .errImmatureSpend

/-- One input of `CheckTransactionInputs`: the entry of the output that it spends. -/
def checkInput (fraudProof : Bool) (txIn : TxIn) : Except (Fault ChainError) UtxoEntry := do
  let entry ← availableEntry view txIn.previousOutPoint
  rejectIf (entry.amountByIndex txIn.previousOutPoint.index = 0) .errZeroValueOutputSpend
  checkFraudProof fraudProof entry txIn
  checkSpendable params tx txHeight entry txIn
  .ok entry

section Amounts

variable (ar : Int64.Arith ChainError)

/-- The total of the inputs so far and the value of one more. -/
def addInputValue (totalAtomIn originTxAtom : Int) : Except (Fault ChainError) Int := do
  rejectIf (originTxAtom < 0) .errBadTxOutValue
  rejectIf (originTxAtom > maxAmount) .errBadTxOutValue
  let total ← ar (totalAtomIn + originTxAtom)
  rejectIf (total < totalAtomIn ∨ total > maxAmount) .errBadTxOutValue
  .ok total

variable (params : Params) (tx : Tx)

/-- The inputs of `CheckTransactionInputs`: their total, without the stakebase. -/
def checkInputs (txHeight : Nat) (view : UtxoViewpoint)
    (fraudProof : Bool) (totalAtomIn : Int) : Except (Fault ChainError) Int :=
  tx.inputs.foldlM (fun totalAtomIn txIn => do
    let entry ← checkInput params tx txHeight view fraudProof txIn
    addInputValue ar totalAtomIn (entry.amountByIndex txIn.previousOutPoint.index)) totalAtomIn

/-- What the stakebase of a vote adds to the inputs. -/
def stakebaseValue : Except (Fault ChainError) Int :=
  if tx.isSSGen then do
    let votedOn ← stakeValue (ssgenBlockVotedOn tx.msgTx)
    ar (0 + calcStakeVoteSubsidy params votedOn.2)
  else .ok 0

/-- A total and the values of some outputs. -/
def addOutputValues (total : Int) (outs : List TxOut) : Except (Fault ChainError) Int :=
  outs.foldlM (fun total out => ar (total + out.value)) total

/-- `CheckTransactionInputs`: the fee. -/
def checkTransactionInputs (txHeight : Nat) (view : UtxoViewpoint)
    (fraudProof : Bool) : Except (Fault ChainError) Int :=
  if isCoinBase tx then .ok 0
  else do
    checkStakeInputs params tx txHeight view
    let stakebase ← stakebaseValue ar params tx
    let totalAtomIn ← checkInputs ar params tx txHeight view fraudProof stakebase
    let totalAtomOut ← addOutputValues ar 0 tx.msgTx.txOut
    rejectIf (totalAtomIn < totalAtomOut) .errSpendTooHigh
    ar (totalAtomIn - totalAtomOut)

end Amounts

/-! ## Signature operations -/

def countSigOps (isCoinBaseTx isSSGen : Bool) : Nat :=
  let inputs := if isCoinBaseTx then [] else if isSSGen then tx.msgTx.txIn.drop 1 else tx.msgTx.txIn
  (inputs.map fun txIn => getSigOpCount txIn.signatureScript).sum +
    (tx.msgTx.txOut.map fun txOut => getSigOpCount txOut.pkScript).sum

def countP2SHSigOps (isCoinBaseTx isStakeBaseTx : Bool) (view : UtxoViewpoint) :
    Except (Fault ChainError) Nat :=
  if isCoinBaseTx || isStakeBaseTx then .ok 0
  else
    tx.msgTx.txIn.foldlM (fun totalSigOps txIn => do
      let entry ← availableEntry view txIn.previousOutPoint
      let pkScript := entry.pkScriptByIndex txIn.previousOutPoint.index
      .ok (if isPayToScriptHash pkScript then
          totalSigOps + getPreciseSigOpCount txIn.signatureScript pkScript true
        else totalSigOps)) 0

end Fnod
