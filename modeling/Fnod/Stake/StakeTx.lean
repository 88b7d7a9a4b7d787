import Fnod.Chaincfg.Chainhash
import Fnod.Lib.Int64
import Fnod.Txscript.Standard
import Fnod.Wire.MsgTx

/-!
# `staketx.go`: tickets, votes and revocations

A stake transaction is told from its shape alone: `CheckSStx`, `CheckSSGen` and `CheckSSRtx` look at
the counts of inputs and outputs and at the scripts of the outputs. They index the lists and the
scripts at fixed places, each of which a check before it should make sure of. All accesses are
checked here.

**Theorem (`stakeTx_safe_iff`).** The classification is safe and unambiguous for every transaction
but one kind, and there it panics: `CheckSSGen` makes sure of one output and reads the second one.
The kind is a vote that stops after its block reference (`LoneReference`).
-/

namespace Fnod

open Bytes Except List Slice

/-! ## Constants and errors -/

def maxInputsPerSStx : Nat := 64

def maxOutputsPerSStx : Nat := maxInputsPerSStx * 2 + 1

def numInputsPerSSGen : Nat := 2

def maxOutputsPerSSGen : Nat := maxInputsPerSStx + 2

def numInputsPerSSRtx : Nat := 1

def maxOutputsPerSSRtx : Nat := maxInputsPerSStx

def sstxPKHMinOutSize : Nat := 32

def sstxPKHMaxOutSize : Nat := 77

def ssgenBlockReferenceOutSize : Nat := 38

def ssgenVoteBitsOutputMinSize : Nat := 4

def ssgenVoteBitsOutputMaxSize : Nat := 77

def maxSingleBytePushLength : UInt8 := 75

/-- `validSStxAddressOutMinPrefix[1]`. -/
def sstxAddressOutMinPush : UInt8 := 0x1e

def validSSGenReferenceOutPrefix : List UInt8 := [0x6a, 0x24]

/-- `validSSGenVoteOutMinPrefix[1]`. -/
def ssgenVoteOutMinPush : UInt8 := 0x02

/-- `ErrorCode`: the codes that the checks return. -/
inductive StakeErrorCode where
  | sstxTooManyInputs
  | sstxTooManyOutputs
  | sstxNoOutputs
  | sstxInvalidOutputs
  | sstxInOutProportions
  | ssgenWrongNumInputs
  | ssgenTooManyOutputs
  | ssgenNoOutputs
  | ssgenWrongIndex
  | ssgenWrongTxTree
  | ssgenNoStakebase
  | ssgenNoReference
  | ssgenBadReference
  | ssgenNoVotePush
  | ssgenBadVotePush
  | ssgenBadGenOuts
  | ssrtxWrongNumInputs
  | ssrtxTooManyOutputs
  | ssrtxNoOutputs
  | ssrtxWrongTxTree
  | ssrtxBadOuts
deriving DecidableEq

/-- `RuleError` of package `stake`. -/
structure StakeRuleError where
  errorCode : StakeErrorCode
  description : String
deriving DecidableEq

/-- A check that returns an error if something is wrong. -/
def failIf (bad : Prop) [Decidable bad] (code : StakeErrorCode) (description : String) :
    Except (Fault StakeRuleError) Unit :=
  if bad then .error (.err ⟨code, description⟩) else .ok ()

/-! ## Stakebases -/

variable (tx : MsgTx)

def isNullOutpoint : Except (Fault StakeRuleError) Bool := do
  let txIn ← Slice.get tx.txIn 0
  let nullInOP := txIn.previousOutPoint
  .ok (nullInOP.index = maxUint32 ∧ nullInOP.hash = default ∧ nullInOP.tree = txTreeRegular)

def isNullFraudProof : Except (Fault StakeRuleError) Bool := do
  let txIn ← Slice.get tx.txIn 0
  .ok (txIn.blockHeight = nullBlockHeight ∧ txIn.blockIndex = nullBlockIndex)

def isStakeBase : Except (Fault StakeRuleError) Bool :=
  if tx.txIn.length ≠ 2 then .ok false
  else do
    let nullOutpoint ← isNullOutpoint tx
    if !nullOutpoint then .ok false else isNullFraudProof tx

/-! ## The three checks -/

/-- The first byte of a script is `OP_RETURN` and the second a push of at least `minPush` bytes. -/
def hasPushPrefix (script : List UInt8) (minPush : UInt8) : Except (Fault StakeRuleError) Bool := do
  let outputScriptPrefix := script.take 2
  let maxPush := minPush + (maxSingleBytePushLength - minPush)
  let pushLen ← Slice.get outputScriptPrefix 1
  let op ← Slice.get outputScriptPrefix 0
  .ok (op = OP_RETURN ∧ minPush ≤ pushLen ∧ pushLen ≤ maxPush)

/-- The outputs of a ticket after the first one: commitments at the odd places and change at the
even ones. -/
def checkSStxOutput (outTxIndex : Nat) : Except (Fault StakeRuleError) Unit := do
  let txOut ← Slice.get tx.txOut outTxIndex
  let rawScript := txOut.pkScript
  let scriptClass ← getScriptClass txOut.version rawScript
  if outTxIndex % 2 = 0 then
    failIf (scriptClass ≠ .stakeSubChangeTy) .sstxInvalidOutputs
      s!"SStx output at output index {outTxIndex} was not an sstx change output"
  else do
    failIf (scriptClass ≠ .nullDataTy) .sstxInvalidOutputs
      s!"SStx output at output index {outTxIndex} was not a NullData (OP_RETURN) push"
    failIf (rawScript.length < sstxPKHMinOutSize ∨ rawScript.length > sstxPKHMaxOutSize)
      .sstxInvalidOutputs
      s!"SStx output at output index {outTxIndex} was a NullData (OP_RETURN) push of the wrong size"
    let valid ← hasPushPrefix rawScript sstxAddressOutMinPush
    failIf (valid = false) .sstxInvalidOutputs
      s!"sstx commitment at output idx {outTxIndex} had an invalid prefix"

def checkSStx : Except (Fault StakeRuleError) Unit := do
  failIf (tx.txIn.length > maxInputsPerSStx) .sstxTooManyInputs "SStx has too many inputs"
  failIf (tx.txOut.length > maxOutputsPerSStx) .sstxTooManyOutputs "SStx has too many outputs"
  failIf (tx.txOut.length = 0) .sstxNoOutputs "SStx has no outputs"
  tx.txOut.zipIdx.forM fun (txOut, idx) =>
    failIf (txOut.version ≠ defaultScriptVersion) .sstxInvalidOutputs
      s!"invalid script version found in txOut idx {idx}"
  let first ← Slice.get tx.txOut 0
  let scriptClass ← getScriptClass first.version first.pkScript
  failIf (scriptClass ≠ .stakeSubmissionTy) .sstxInvalidOutputs
    "First SStx output should have been OP_SSTX tagged, but it was not"
  failIf (tx.txIn.length * 2 + 1 ≠ tx.txOut.length) .sstxInOutProportions
    "The number of inputs in the SStx tx was not the number of outputs/2 - 1"
  (List.range' 1 (tx.txOut.length - 1)).forM (checkSStxOutput tx)

/-- An input of a vote other than the stakebase: the first output of a ticket. -/
def checkSSGenInput (input : TxIn × Nat) : Except (Fault StakeRuleError) Unit :=
  let (txin, i) := input
  if i = 0 then .ok ()
  else do
    failIf (txin.previousOutPoint.index ≠ 0) .ssgenWrongIndex
      s!"SSGen used an invalid input idx (got {txin.previousOutPoint.index}, want 0)"
    failIf (txin.previousOutPoint.tree ≠ txTreeStake) .ssgenWrongTxTree
      "SSGen used a non-stake input"

/-- The inputs of a vote: a stakebase and a ticket. -/
def checkSSGenInputs : Except (Fault StakeRuleError) Unit := do
  failIf (tx.txIn.length ≠ numInputsPerSSGen) .ssgenWrongNumInputs
    "SSgen tx has an invalid number of inputs"
  failIf (tx.txOut.length > maxOutputsPerSSGen) .ssgenTooManyOutputs "SSgen tx has too many outputs"
  failIf (tx.txOut.length = 0) .ssgenNoOutputs "SSgen tx no many outputs"
  let stakeBase ← isStakeBase tx
  failIf (stakeBase = false) .ssgenNoStakebase
    "SSGen tx did not include a stakebase in the zeroeth input position"
  tx.txIn.zipIdx.forM checkSSGenInput

/-- The first output of a vote: the block it votes on. -/
def checkSSGenReference : Except (Fault StakeRuleError) Unit := do
  let zeroethOutput ← Slice.get tx.txOut 0
  let zeroethOutputScript := zeroethOutput.pkScript
  let scriptClass ← getScriptClass zeroethOutput.version zeroethOutputScript
  failIf (scriptClass ≠ .nullDataTy) .ssgenNoReference
    "First SSGen output should have been an OP_RETURN data push, but was not"
  failIf (zeroethOutputScript.length ≠ ssgenBlockReferenceOutSize) .ssgenBadReference
    "First SSGen output should have been 43 bytes long, but was not"
  failIf (zeroethOutputScript.take 2 ≠ validSSGenReferenceOutPrefix) .ssgenBadReference
    "First SSGen output had an invalid prefix"

/-- The second output of a vote: the vote bits. Nothing before makes sure that there is one. -/
def checkSSGenVoteBits : Except (Fault StakeRuleError) Unit := do
  let firstOutput ← Slice.get tx.txOut 1
  let firstOutputScript := firstOutput.pkScript
  let scriptClass ← getScriptClass firstOutput.version firstOutputScript
  failIf (scriptClass ≠ .nullDataTy) .ssgenNoVotePush
    "Second SSGen output should have been an OP_RETURN data push, but was not"
  failIf (firstOutputScript.length < ssgenVoteBitsOutputMinSize ∨
      firstOutputScript.length > ssgenVoteBitsOutputMaxSize) .ssgenBadVotePush
    "SSGen votebits output at output index 1 was a NullData (OP_RETURN) push of the wrong size"
  let valid ← hasPushPrefix firstOutputScript ssgenVoteOutMinPush
  failIf (valid = false) .ssgenBadVotePush "Second SSGen output had an invalid prefix"

/-- An output with the tag of its kind of transaction. -/
def checkTaggedOutput (scriptClass : ScriptClass) (code : StakeErrorCode)
    (description : Nat → String)
    (tx : MsgTx) (outTxIndex : Nat) : Except (Fault StakeRuleError) Unit := do
  let txOut ← Slice.get tx.txOut outTxIndex
  let outClass ← getScriptClass txOut.version txOut.pkScript
  failIf (outClass ≠ scriptClass) code (description outTxIndex)

def checkSSGen : Except (Fault StakeRuleError) Unit := do
  checkSSGenInputs tx
  tx.txOut.forM fun txOut =>
    failIf (txOut.version ≠ defaultScriptVersion) .ssgenBadGenOuts
      "invalid script version found in txOut"
  checkSSGenReference tx
  checkSSGenVoteBits tx
  (List.range' 2 (tx.txOut.length - 2)).forM
    (checkTaggedOutput .stakeGenTy .ssgenBadGenOuts
      (fun outTxIndex =>
        s!"SSGen tx output at output index {outTxIndex} was not an OP_SSGEN tagged output") tx)

def checkSSRtx : Except (Fault StakeRuleError) Unit := do
  failIf (tx.txIn.length ≠ numInputsPerSSRtx) .ssrtxWrongNumInputs
    "SSRtx has an  invalid number of inputs"
  failIf (tx.txOut.length > maxOutputsPerSSRtx) .ssrtxTooManyOutputs "SSRtx has too many outputs"
  failIf (tx.txOut.length = 0) .ssrtxNoOutputs "SSRtx has no outputs"
  tx.txOut.forM fun txOut =>
    failIf (txOut.version ≠ defaultScriptVersion) .ssrtxBadOuts
      "invalid script version found in txOut"
  tx.txIn.forM fun txin =>
    failIf (txin.previousOutPoint.tree ≠ txTreeStake) .ssrtxWrongTxTree
      "SSRtx used a non-stake input"
  (List.range tx.txOut.length).forM
    (checkTaggedOutput .stakeRevocationTy .ssrtxBadOuts
      (fun outTxIndex =>
        s!"SSRtx output at output index {outTxIndex} was not an OP_SSRTX tagged output") tx)

inductive TxType where
  | regular
  | sstx
  | ssgen
  | ssrtx
deriving DecidableEq

def determineTxType : Except (Fault StakeRuleError) TxType := do
  let isSStx ← passes (checkSStx tx)
  if isSStx then .ok .sstx
  else do
    let isSSGen ← passes (checkSSGen tx)
    if isSSGen then .ok .ssgen
    else do
      let isSSRtx ← passes (checkSSRtx tx)
      .ok (if isSSRtx then .ssrtx else .regular)

/-! ## Reading votes and tickets -/

def voteConsensusVersionAbsent : Nat := 0

/-- `SSGenBlockVotedOn`: the hash and the height of the block that a vote is for. -/
def ssgenBlockVotedOn : Except (Fault StakeRuleError) (Hash × Nat) := do
  let out ← Slice.get tx.txOut 0
  let blockHash ← Slice.slice out.pkScript 2 34
  let height ← Slice.slice out.pkScript 34 38
  .ok ((newHash blockHash).getD default, getLE height)

def ssgenVoteBits : Except (Fault StakeRuleError) Nat := do
  let out ← Slice.get tx.txOut 1
  let bits ← Slice.slice out.pkScript 2 4
  .ok (getLE bits)

def ssgenVersion : Except (Fault StakeRuleError) Nat := do
  let out ← Slice.get tx.txOut 1
  if out.pkScript.length < 8 then .ok voteConsensusVersionAbsent
  else do
    let version ← Slice.slice out.pkScript 4 8
    .ok (getLE version)

/-- `MinimalOutput`: the value, the version and the script of an output, which is all of it. -/
abbrev MinimalOutput := TxOut

def convertToMinimalOutputs : List MinimalOutput := tx.txOut

/-- What `SStxStakeOutputInfo` returns: for each input of a ticket whether the commitment is to a
script hash, the hash, the amount, the change, and for votes and for revocations whether fees may be
taken and the limit of the fees. -/
structure StakeOutputInfo where
  isP2SH : List Bool
  addresses : List (List UInt8)
  amounts : List Int
  changeAmounts : List Int
  spendRules : List (Bool × Bool)
  spendLimits : List (Nat × Nat)
deriving DecidableEq

def sstxVoteReturnFractionMask : Nat := 0x003f

def sstxRevReturnFractionMask : Nat := 0x3f00

def sstxVoteFractionFlag : Nat := 0x0040

def sstxRevFractionFlag : Nat := 0x4000

/-- The commitment in an odd output. The top bit of the amount says that the hash is of a script. -/
def readCommitment (info : StakeOutputInfo) (idx : Nat) (out : MinimalOutput) :
    Except (Fault StakeRuleError) StakeOutputInfo := do
  let amtEncoded ← Slice.slice out.pkScript 22 30
  let msb ← Slice.get amtEncoded 7
  let isP2SH ← Slice.set info.isP2SH (idx / 2) (msb &&& 0x80 != 0)
  let amtEncoded ← Slice.set amtEncoded 7 (msb &&& 0x7f)
  let address ← Slice.slice out.pkScript 2 22
  let addresses ← Slice.set info.addresses (idx / 2) address
  let amounts ← Slice.set info.amounts (idx / 2) (getLE amtEncoded)
  let limit ← Slice.slice out.pkScript 30 32
  let feeLimitUint16 := getLE limit
  let spendRules ← Slice.set info.spendRules (idx / 2)
    (feeLimitUint16 &&& sstxVoteFractionFlag == sstxVoteFractionFlag,
      feeLimitUint16 &&& sstxRevFractionFlag == sstxRevFractionFlag)
  let spendLimits ← Slice.set info.spendLimits (idx / 2)
    (feeLimitUint16 &&& sstxVoteReturnFractionMask,
      (feeLimitUint16 &&& sstxRevReturnFractionMask) >>> 8)
  .ok { info with isP2SH, addresses, amounts, spendRules, spendLimits }

/-- One output of a ticket. -/
def readTicketOutput (info : StakeOutputInfo) (output : MinimalOutput × Nat) :
    Except (Fault StakeRuleError) StakeOutputInfo :=
  let (out, idx) := output
  if 0 < idx ∧ idx % 2 ≠ 0 then readCommitment info idx out
  else if 0 < idx ∧ idx % 2 = 0 then do
    let changeAmounts ← Slice.set info.changeAmounts (idx / 2 - 1) out.value
    .ok { info with changeAmounts }
  else .ok info

def sstxStakeOutputInfo (outs : List MinimalOutput) :
    Except (Fault StakeRuleError) StakeOutputInfo :=
  let expectedInLen := outs.length / 2
  outs.zipIdx.foldlM readTicketOutput
    { isP2SH := List.replicate expectedInLen false
      addresses := List.replicate expectedInLen []
      amounts := List.replicate expectedInLen 0
      changeAmounts := List.replicate expectedInLen 0
      spendRules := List.replicate expectedInLen (false, false)
      spendLimits := List.replicate expectedInLen (0, 0) }

/-- `CalculateRewards`, with numbers of any size in between. -/
def calculateRewards (amounts : List Int) (amountTicket subsidy : Int) :
    Except (Fault StakeRuleError) (List Int) :=
  let amountWithStakebase := Int64.wrap (amountTicket + subsidy)
  let totalContrib := amounts.foldl (fun total amount => Int64.wrap (total + amount)) 0
  amounts.mapM fun amount =>
    if totalContrib = 0 then .error .panic
    else .ok (Int64.wrap (amount * amountWithStakebase * 2 ^ 32 / totalContrib / 2 ^ 32))

/-! ## What the checks establish -/

section Checks

variable {tx : MsgTx} {bad : Prop} {code : StakeErrorCode} {out : TxOut} {stakebase ticket : TxIn}
  {info : StakeOutputInfo} {n idx : Nat}

theorem failIf_safely [Decidable bad] (code : StakeErrorCode) (description : String) :
    Safely (fun _ => ¬ bad) (failIf bad code description) :=
  .ite (fun _ => .err _) fun h => .ok h

@[simp] theorem failIf_eq_ok [Decidable bad]
    {description : String} : failIf bad code description = .ok () ↔ ¬ bad := by
  unfold failIf
  split_ifs with h <;> simp [h]

def HasClass (out : TxOut) (c : ScriptClass) : Prop :=
  (getScriptClass out.version out.pkScript : Except (Fault StakeRuleError) ScriptClass) = .ok c

theorem getScriptClass_safely (out : TxOut) :
    Safely (HasClass out)
      (getScriptClass out.version out.pkScript : Except (Fault StakeRuleError) _) := by
  obtain ⟨c, hc⟩ := getScriptClass_total (ε := StakeRuleError) out.version out.pkScript
  rw [hc]
  exact hc

theorem HasClass.unique {c c' : ScriptClass} (h : HasClass out c)
    (h' : HasClass out c') : c = c' := Except.ok.inj (h.symm.trans h')

theorem hasPushPrefix_safely {script : List UInt8} (h : 2 ≤ script.length) (minPush : UInt8) :
    Safely (fun _ => True) (hasPushPrefix script minPush) := by
  have hlen : (script.take 2).length = 2 := by rw [length_take]; omega
  unfold hasPushPrefix
  refine (Safely.get (by omega)).bind fun _ _ => ?_
  exact (Safely.get (by omega)).bind fun _ _ => .ok trivial

/-- An output of a ticket: commitments have room for all that is read from them. -/
theorem checkSStxOutput_safely {outTxIndex : Nat} (h : outTxIndex < tx.txOut.length) :
    Safely (fun _ => ∀ out, tx.txOut[outTxIndex]? = some out → outTxIndex % 2 ≠ 0 →
      32 ≤ out.pkScript.length) (checkSStxOutput tx outTxIndex) := by
  unfold checkSStxOutput
  refine (Safely.get h).bind fun out hout => (getScriptClass_safely out).bind fun c _ => ?_
  refine .ite (fun heven => ?_) fun hodd => ?_
  · exact (failIf_safely _ _).mono fun _ _ _ _ hodd => absurd heven hodd
  · refine (failIf_safely _ _).bind fun _ _ => (failIf_safely _ _).bind fun _ hsize => ?_
    have h32 : 32 ≤ out.pkScript.length := by
      unfold sstxPKHMinOutSize at hsize
      omega
    refine (hasPushPrefix_safely (by omega) _).bind fun _ _ => (failIf_safely _ _).mono ?_
    intro _ _ out' hout' _
    cases hout.symm.trans hout'
    exact h32

/-- **A ticket** that passes has twice as many outputs as inputs and one more, the first of them
tagged, and its commitments are long enough. -/
structure IsTicket (tx : MsgTx) : Prop where
  proportion : tx.txIn.length * 2 + 1 = tx.txOut.length
  tagged : ∃ out, tx.txOut[0]? = some out ∧ HasClass out .stakeSubmissionTy
  commitments : ∀ i out, tx.txOut[i]? = some out → i % 2 ≠ 0 → 32 ≤ out.pkScript.length

theorem checkSStx_safely (tx : MsgTx) : Safely (fun _ => IsTicket tx) (checkSStx tx) := by
  unfold checkSStx
  refine (failIf_safely _ _).bind fun _ _ => (failIf_safely _ _).bind fun _ _ =>
    (failIf_safely _ _).bind fun _ hne => ?_
  refine (Safely.forM fun c _ => failIf_safely _ _).bind fun _ _ => ?_
  refine (Safely.get (by omega)).bind fun first hfirst =>
    (getScriptClass_safely first).bind fun c hc => ?_
  refine (failIf_safely _ _).bind fun _ htag => (failIf_safely _ _).bind fun _ hprop => ?_
  rw [not_not] at htag hprop
  refine (Safely.forM fun i hi => checkSStxOutput_safely ?_).mono fun _ hall => ?_
  · have := mem_range'_1.1 hi
    omega
  · refine ⟨hprop, ⟨first, hfirst, htag ▸ hc⟩, fun i out hout hodd => ?_⟩
    have hlt := (List.getElem?_eq_some_iff.1 hout).1
    exact hall i (mem_range'_1.2 (by omega)) out hout hodd

/-- The first input of a vote stands for the subsidy. -/
def TxIn.IsNull (txIn : TxIn) : Prop :=
  (txIn.previousOutPoint.index = maxUint32 ∧ txIn.previousOutPoint.hash = default ∧
    txIn.previousOutPoint.tree = txTreeRegular) ∧
  txIn.blockHeight = nullBlockHeight ∧ txIn.blockIndex = nullBlockIndex

instance (txIn : TxIn) : Decidable txIn.IsNull := inferInstanceAs (Decidable (_ ∧ _))

/-- The inputs of a vote. -/
structure VoteInputs (tx : MsgTx) (stakebase ticket : TxIn) : Prop where
  txIn : tx.txIn = [stakebase, ticket]
  null : stakebase.IsNull
  index : ticket.previousOutPoint.index = 0
  tree : ticket.previousOutPoint.tree = txTreeStake

theorem isStakeBase_eq (h : tx.txIn = [stakebase, ticket]) :
    isStakeBase tx = .ok (decide stakebase.IsNull) := by
  have hget : (Slice.get tx.txIn 0 : Except (Fault StakeRuleError) TxIn) = .ok stakebase :=
    get_eq (by rw [h]; rfl)
  unfold isStakeBase isNullOutpoint isNullFraudProof
  rw [if_neg (by simp [h]), hget]
  simp only [ok_bind, Bool.not_eq_true', decide_eq_false_iff_not]
  split_ifs with hnull
  · exact congrArg _ (decide_eq_decide.2 ⟨fun hproof => ⟨hnull, hproof⟩, And.right⟩)
  · rw [decide_eq_false fun hn : stakebase.IsNull => hnull hn.1]

theorem checkSSGenInput_safely (input : TxIn × Nat) :
    Safely (fun _ => input.2 ≠ 0 → input.1.previousOutPoint.index = 0 ∧
      input.1.previousOutPoint.tree = txTreeStake) (checkSSGenInput input) := by
  unfold checkSSGenInput
  refine .ite (fun hz => .ok fun h => absurd hz h) fun _ => ?_
  refine (failIf_safely _ _).bind fun _ hindex => (failIf_safely _ _).mono fun _ htree _ => ?_
  exact ⟨not_not.1 hindex, not_not.1 htree⟩

theorem checkSSGenInputs_safely (tx : MsgTx) :
    Safely (fun _ => (∃ stakebase ticket, VoteInputs tx stakebase ticket) ∧ tx.txOut.length ≠ 0)
      (checkSSGenInputs tx) := by
  unfold checkSSGenInputs
  refine (failIf_safely _ _).bind fun _ hin => (failIf_safely _ _).bind fun _ _ =>
    (failIf_safely _ _).bind fun _ hout => ?_
  obtain ⟨stakebase, ticket, htx⟩ := length_eq_two.1 (not_not.1 hin)
  rw [isStakeBase_eq htx, ok_bind]
  refine (failIf_safely _ _).bind fun _ hnull => ?_
  refine (Safely.forM fun input _ => checkSSGenInput_safely input).mono fun _ hall =>
    ⟨⟨stakebase, ticket, ?_⟩, hout⟩
  obtain ⟨hindex, htree⟩ := hall (ticket, 1) (by simp [htx]) Nat.one_ne_zero
  exact ⟨htx, by simpa using hnull, hindex, htree⟩

theorem checkSSGenInputs_of_voteInputs (h : VoteInputs tx stakebase ticket)
    (hmax : tx.txOut.length ≤ maxOutputsPerSSGen) (hout : tx.txOut.length ≠ 0) :
    checkSSGenInputs tx = .ok () := by
  have hnull : decide stakebase.IsNull = true := decide_eq_true h.null
  unfold checkSSGenInputs
  rw [isStakeBase_eq h.txIn, h.txIn, hnull]
  simp [failIf, numInputsPerSSGen, checkSSGenInput, hmax, hout, h.index, h.tree]

theorem checkSSGenReference_safely (h : tx.txOut.length ≠ 0) :
    Safely (fun _ => ∃ out, tx.txOut[0]? = some out ∧ HasClass out .nullDataTy ∧
        out.pkScript.length = ssgenBlockReferenceOutSize ∧
        out.pkScript.take 2 = validSSGenReferenceOutPrefix)
      (checkSSGenReference tx) := by
  unfold checkSSGenReference
  refine (Safely.get (by omega)).bind fun out hout =>
    (getScriptClass_safely out).bind fun c hc => ?_
  refine (failIf_safely _ _).bind fun _ hclass => (failIf_safely _ _).bind fun _ hlen =>
    (failIf_safely _ _).mono fun _ hpushes => ?_
  exact ⟨out, hout, not_not.1 hclass ▸ hc, not_not.1 hlen, not_not.1 hpushes⟩

/-- What `checkSSGenVoteBits` accepts, if there is a second output. -/
theorem checkSSGenVoteBits_safely (h : 2 ≤ tx.txOut.length) :
    Safely (fun _ => ∃ out, tx.txOut[1]? = some out ∧ 4 ≤ out.pkScript.length)
      (checkSSGenVoteBits tx) := by
  unfold checkSSGenVoteBits
  refine (Safely.get (by omega)).bind fun out hout =>
    (getScriptClass_safely out).bind fun c hc => ?_
  refine (failIf_safely _ _).bind fun _ _ => (failIf_safely _ _).bind fun _ hsize => ?_
  have h4 : 4 ≤ out.pkScript.length := by
    unfold ssgenVoteBitsOutputMinSize at hsize
    omega
  refine (hasPushPrefix_safely (by omega) _).bind fun _ _ => (failIf_safely _ _).mono fun _ _ => ?_
  exact ⟨out, hout, h4⟩

theorem checkTaggedOutput_safely {scriptClass : ScriptClass}
    {description : Nat → String} {i : Nat} (h : i < tx.txOut.length) :
    Safely (fun _ => ∃ out, tx.txOut[i]? = some out ∧ HasClass out scriptClass)
      (checkTaggedOutput scriptClass code description tx i) := by
  unfold checkTaggedOutput
  refine (Safely.get h).bind fun out hout => (getScriptClass_safely out).bind fun c hc => ?_
  exact (failIf_safely _ _).mono fun _ hclass => ⟨out, hout, not_not.1 hclass ▸ hc⟩

/-- **A vote** that passes: a block reference and vote bits that can be read. -/
structure IsVote (tx : MsgTx) : Prop where
  reference : ∃ out, tx.txOut[0]? = some out ∧ HasClass out .nullDataTy ∧ out.pkScript.length = 38
  voteBits : ∃ out, tx.txOut[1]? = some out ∧ 4 ≤ out.pkScript.length

/-- A vote that stops after its block reference. -/
def LoneReference (tx : MsgTx) : Prop :=
  (∃ stakebase ticket, VoteInputs tx stakebase ticket) ∧
    ∃ out, tx.txOut = [out] ∧ out.version = defaultScriptVersion ∧
      out.pkScript.length = ssgenBlockReferenceOutSize ∧
      out.pkScript.take 2 = validSSGenReferenceOutPrefix

theorem checkSSGen_safely (h : ¬ LoneReference tx) :
    Safely (fun _ => IsVote tx) (checkSSGen tx) := by
  unfold checkSSGen
  refine (checkSSGenInputs_safely tx).bind fun _ ⟨hinputs, hne⟩ => ?_
  refine (Safely.forM fun out _ => failIf_safely _ _).bind fun _ hversion => ?_
  refine (checkSSGenReference_safely hne).bind fun _ ⟨out, hout, hclass, hlen, hpushes⟩ => ?_
  -- with a single output this is the case that is left out
  have htwo : 2 ≤ tx.txOut.length := by
    by_contra hlt
    obtain ⟨out', hout'⟩ := length_eq_one_iff.1 (show tx.txOut.length = 1 by omega)
    obtain rfl : out' = out := by simpa [hout'] using hout
    exact h ⟨hinputs, out', hout', not_not.1 (hversion out' (by simp [hout'])), hlen, hpushes⟩
  refine (checkSSGenVoteBits_safely htwo).bind fun _ hbits => ?_
  refine (Safely.forM fun i hi => checkTaggedOutput_safely ?_).mono fun _ _ => ?_
  · have := mem_range'_1.1 hi
    omega
  · exact ⟨⟨out, hout, hclass, hlen⟩, hbits⟩

/-- The script of a lone reference is an `OP_RETURN` with a push. -/
theorem hasClass_reference (hversion : out.version = defaultScriptVersion)
    (hlen : out.pkScript.length = ssgenBlockReferenceOutSize)
    (hpushes : out.pkScript.take 2 = validSSGenReferenceOutPrefix) : HasClass out .nullDataTy := by
  have hscript : out.pkScript = OP_RETURN :: 0x24 :: out.pkScript.drop 2 := by
    conv_lhs => rw [← take_append_drop 2 out.pkScript, hpushes]
    rfl
  unfold HasClass
  rw [hversion, hscript]
  exact getScriptClass_nullData (by decide) (by rw [length_drop, hlen]; rfl)

/-- **The check panics** on a lone reference. -/
theorem checkSSGen_panics (h : LoneReference tx) : checkSSGen tx = .error .panic := by
  obtain ⟨⟨stakebase, ticket, hinputs⟩, out, hout, hversion, hlen, hpushes⟩ := h
  have hclass := hasClass_reference hversion hlen hpushes
  have hin : checkSSGenInputs tx = .ok () :=
    checkSSGenInputs_of_voteInputs hinputs (by simp [hout, maxOutputsPerSSGen]) (by simp [hout])
  have href : checkSSGenReference tx = .ok () := by
    unfold checkSSGenReference
    rw [get_eq (show tx.txOut[0]? = some out by rw [hout]; rfl), ok_bind]
    dsimp only
    rw [hclass, ok_bind]
    simp [failIf, hlen, hpushes]
  have hbits : checkSSGenVoteBits tx = .error .panic := by
    unfold checkSSGenVoteBits
    rw [get_eq_panic (by simp [hout]), error_bind]
  unfold checkSSGen
  rw [hin, ok_bind, forM_eq_ok.2 (by simp [hout, hversion]), ok_bind, href, ok_bind, hbits,
    error_bind]

/-- **A revocation** that passes has a tagged first output. -/
theorem checkSSRtx_safely (tx : MsgTx) :
    Safely (fun _ => ∃ out, tx.txOut[0]? = some out ∧ HasClass out .stakeRevocationTy)
      (checkSSRtx tx) := by
  unfold checkSSRtx
  refine (failIf_safely _ _).bind fun _ _ => (failIf_safely _ _).bind fun _ _ =>
    (failIf_safely _ _).bind fun _ hne => ?_
  refine (Safely.forM fun _ _ => failIf_safely _ _).bind fun _ _ => ?_
  refine (Safely.forM fun _ _ => failIf_safely _ _).bind fun _ _ => ?_
  refine (Safely.forM fun i hi => checkTaggedOutput_safely (mem_range.1 hi)).mono fun _ hall => ?_
  exact hall 0 (mem_range.2 (by omega))

theorem determineTxType_safely (h : ¬ LoneReference tx) :
    Safely (fun _ => True) (determineTxType tx) := by
  unfold determineTxType
  refine (checkSStx_safely tx).passes.bind fun _ _ => .ite (fun _ => .ok trivial) fun _ => ?_
  refine (checkSSGen_safely h).passes.bind fun _ _ => .ite (fun _ => .ok trivial) fun _ => ?_
  exact (checkSSRtx_safely tx).passes.bind fun _ _ => .ok trivial

/-! ## Reading is safe -/

theorem ssgenBlockVotedOn_safely (h : IsVote tx) :
    Safely (fun _ => True) (ssgenBlockVotedOn tx) := by
  obtain ⟨out, hout, -, hlen⟩ := h.reference
  unfold ssgenBlockVotedOn
  rw [get_eq hout, ok_bind]
  refine (Safely.slice (by omega) (by omega)).bind fun _ _ => ?_
  exact (Safely.slice (by omega) (by omega)).bind fun _ _ => .ok trivial

theorem ssgenVoteBits_safely (h : IsVote tx) : Safely (fun _ => True) (ssgenVoteBits tx) := by
  obtain ⟨out, hout, hlen⟩ := h.voteBits
  unfold ssgenVoteBits
  rw [get_eq hout, ok_bind]
  exact (Safely.slice (by omega) (by omega)).bind fun _ _ => .ok trivial

theorem ssgenVersion_safely (h : IsVote tx) : Safely (fun _ => True) (ssgenVersion tx) := by
  obtain ⟨out, hout, hlen⟩ := h.voteBits
  unfold ssgenVersion
  rw [get_eq hout, ok_bind]
  refine .ite (fun _ => .ok trivial) fun _ => ?_
  exact (Safely.slice (by omega) (by omega)).bind fun _ _ => .ok trivial

/-- All lists of the information have one place for each input. -/
structure StakeOutputInfo.Sized (info : StakeOutputInfo) (n : Nat) : Prop where
  isP2SH : info.isP2SH.length = n
  addresses : info.addresses.length = n
  amounts : info.amounts.length = n
  changeAmounts : info.changeAmounts.length = n
  spendRules : info.spendRules.length = n
  spendLimits : info.spendLimits.length = n

theorem readCommitment_safely {out : MinimalOutput}
    (h : info.Sized n) (hidx : idx / 2 < n) (hlen : 32 ≤ out.pkScript.length) :
    Safely (·.Sized n) (readCommitment info idx out) := by
  unfold readCommitment
  refine (Safely.slice (by omega) (by omega)).bind fun amt hamt => ?_
  refine (Safely.get (by omega)).bind fun msb _ => ?_
  refine (Safely.set (h.isP2SH.symm ▸ hidx) _).bind fun _ h1 => ?_
  refine (Safely.set (by omega) _).bind fun _ _ => ?_
  refine (Safely.slice (by omega) (by omega)).bind fun _ _ => ?_
  refine (Safely.set (h.addresses.symm ▸ hidx) _).bind fun _ h2 => ?_
  refine (Safely.set (h.amounts.symm ▸ hidx) _).bind fun _ h3 => ?_
  refine (Safely.slice (by omega) (by omega)).bind fun _ _ => ?_
  refine (Safely.set (h.spendRules.symm ▸ hidx) _).bind fun _ h4 => ?_
  refine (Safely.set (h.spendLimits.symm ▸ hidx) _).bind fun _ h5 => .ok ?_
  exact ⟨h1.trans h.isP2SH, h2.trans h.addresses, h3.trans h.amounts, h.changeAmounts,
    h4.trans h.spendRules, h5.trans h.spendLimits⟩

theorem readTicketOutput_safely {out : MinimalOutput} (h : info.Sized n) (hidx : idx < 2 * n + 1)
    (hlen : idx % 2 ≠ 0 → 32 ≤ out.pkScript.length) :
    Safely (·.Sized n) (readTicketOutput info (out, idx)) := by
  unfold readTicketOutput
  refine .ite (fun hodd => ?_) fun _ => .ite (fun heven => ?_) fun _ => .ok h
  · exact readCommitment_safely h (by omega) (hlen hodd.2)
  · refine (Safely.set (by rw [h.changeAmounts]; omega) _).bind fun _ hset => .ok ?_
    exact { h with changeAmounts := hset.trans h.changeAmounts }

/-- **Reading a ticket** stays in its scripts and in the lists that are filled. -/
theorem sstxStakeOutputInfo_safely (h : IsTicket tx) :
    Safely (·.Sized tx.txIn.length) (sstxStakeOutputInfo (convertToMinimalOutputs tx)) := by
  have hprop := h.proportion
  have hhalf : (convertToMinimalOutputs tx).length / 2 = tx.txIn.length := by
    unfold convertToMinimalOutputs
    omega
  unfold sstxStakeOutputInfo
  rw [hhalf]
  refine Safely.foldlM (fun info output hmem hinfo => ?_) ⟨?_, ?_, ?_, ?_, ?_, ?_⟩
  · obtain ⟨out, idx⟩ := output
    have hget : tx.txOut[idx]? = some out := mem_zipIdx_iff_getElem?.1 hmem
    have hlt := (List.getElem?_eq_some_iff.1 hget).1
    exact readTicketOutput_safely hinfo (by omega) (h.commitments idx out hget)
  all_goals exact length_replicate

end Checks

/-! ## The whole classification -/

/-- The classification is memory safe and unambiguous. -/
structure StakeTxSafe (tx : MsgTx) : Prop where
  sstx : Safe (checkSStx tx)
  ssgen : Safe (checkSSGen tx)
  ssrtx : Safe (checkSSRtx tx)
  txType : Safe (determineTxType tx)
  sstx_ssgen : ¬ (checkSStx tx = .ok () ∧ checkSSGen tx = .ok ())
  sstx_ssrtx : ¬ (checkSStx tx = .ok () ∧ checkSSRtx tx = .ok ())
  ssgen_ssrtx : ¬ (checkSSGen tx = .ok () ∧ checkSSRtx tx = .ok ())
  vote : checkSSGen tx = .ok () →
    Safe (ssgenBlockVotedOn tx) ∧ Safe (ssgenVoteBits tx) ∧ Safe (ssgenVersion tx)
  ticket : checkSStx tx = .ok () → Safe (sstxStakeOutputInfo (convertToMinimalOutputs tx))

/-- The first output has one class. -/
theorem not_both_classes {tx : MsgTx} {c c' : ScriptClass} (hne : c ≠ c')
    (h : ∃ out, tx.txOut[0]? = some out ∧ HasClass out c)
    (h' : ∃ out, tx.txOut[0]? = some out ∧ HasClass out c') : False := by
  obtain ⟨out, hout, hc⟩ := h
  obtain ⟨out', hout', hc'⟩ := h'
  cases hout.symm.trans hout'
  exact hne (hc.unique hc')

/-- **Classification of stake transactions** is memory safe and unambiguous exactly for the
transactions that are not a vote with its block reference as the only output. -/
theorem stakeTx_safe_iff (tx : MsgTx) : StakeTxSafe tx ↔ ¬ LoneReference tx := by
  constructor
  · exact fun h hlone => h.ssgen (checkSSGen_panics hlone)
  · intro h
    have hticket := checkSStx_safely tx
    have hvote := checkSSGen_safely h
    have hrevocation := checkSSRtx_safely tx
    have href (hv : IsVote tx) : ∃ out, tx.txOut[0]? = some out ∧ HasClass out .nullDataTy := by
      obtain ⟨out, hout, hclass, -⟩ := hv.reference
      exact ⟨out, hout, hclass⟩
    exact {
      sstx := hticket.safe
      ssgen := hvote.safe
      ssrtx := hrevocation.safe
      txType := (determineTxType_safely h).safe
      sstx_ssgen := fun ⟨ht, hv⟩ =>
        not_both_classes (by decide) (hticket.of_eq_ok ht).tagged (href (hvote.of_eq_ok hv))
      sstx_ssrtx := fun ⟨ht, hr⟩ =>
        not_both_classes (by decide) (hticket.of_eq_ok ht).tagged (hrevocation.of_eq_ok hr)
      ssgen_ssrtx := fun ⟨hv, hr⟩ =>
        not_both_classes (by decide) (href (hvote.of_eq_ok hv)) (hrevocation.of_eq_ok hr)
      vote := fun hv =>
        have hvote := hvote.of_eq_ok hv
        ⟨(ssgenBlockVotedOn_safely hvote).safe, (ssgenVoteBits_safely hvote).safe,
          (ssgenVersion_safely hvote).safe⟩
      ticket := fun ht => (sstxStakeOutputInfo_safely (hticket.of_eq_ok ht)).safe }

/-- A vote without vote bits. -/
def loneVote : MsgTx where
  version := 1
  txIn := [⟨⟨default, maxUint32, txTreeRegular⟩, 0, nullBlockHeight, nullBlockIndex, []⟩,
    ⟨⟨Hash.ofNat 1, 0, txTreeStake⟩, 0, 0, 0, []⟩]
  txOut := [⟨0, 0, [0x6a, 0x24] ++ List.replicate 36 0⟩]
  expiry := 0

/-- `CheckSSGen` and `DetermineTxType` panic on a vote without vote bits. -/
theorem loneVote_panics : loneVote.txIn.length = 2 ∧ loneVote.txOut.length = 1 ∧
    checkSSGen loneVote = .error .panic ∧ determineTxType loneVote = .error .panic := by
  decide +kernel

end Fnod
