import Fnod.Lib.OrdMap
import Fnod.Stake.StakeTx
import Fnod.Txscript.Script

/-!
# `utxoviewpoint.go`: the view of the unspent outputs

A view is a partial copy of the utxo set, with one entry for each transaction. The rules for the
inputs of a transaction look up the entries of the outputs that are spent, and `AddTxOuts` adds the
outputs of a transaction to its entry. The types of transactions and the errors of package
`blockchain` are here, too.
-/

namespace Fnod

open Except

/-! ## Transactions and blocks -/

/-- `Tx` of package `fnoutil`: a transaction with its hash. `DetermineTxType` has told its type, as
the sanity checks of a block do for every transaction; the other functions ask for it again. -/
structure Tx where
  hash : Hash
  msgTx : MsgTx
  txType : TxType
  typed : determineTxType msgTx = .ok txType
deriving DecidableEq

namespace Tx

def isSStx (tx : Tx) : Bool := tx.txType = .sstx

def isSSGen (tx : Tx) : Bool := tx.txType = .ssgen

def isSSRtx (tx : Tx) : Bool := tx.txType = .ssrtx

/-- The inputs that spend something, which are all but the stakebase of a vote. -/
def inputs (tx : Tx) : List TxIn := if tx.isSSGen then tx.msgTx.txIn.drop 1 else tx.msgTx.txIn

end Tx

def isCoinBaseTx (msgTx : MsgTx) : Bool :=
  match msgTx.txIn with
  | [txIn] => txIn.previousOutPoint.index = maxUint32 ∧ txIn.previousOutPoint.hash = default
  | _ => false

def isCoinBase (tx : Tx) : Bool := isCoinBaseTx tx.msgTx

def blockValid : Nat := 1

def voteBitsApproveParent (voteBits : Nat) : Bool := voteBits &&& blockValid != 0

/-! ## Errors -/

/-- `ErrorCode` of package `blockchain`: the codes that the modelled checks return. -/
inductive ErrorCode where
  | errMissingTxOut
  | errZeroValueOutputSpend
  | errFraudAmountIn
  | errFraudBlockHeight
  | errFraudBlockIndex
  | errImmatureSpend
  | errExpiryTxSpentEarly
  | errDiscordantTxTree
  | errTxSStxOutSpend
  | errBadTxOutValue
  | errSpendTooHigh
  | errTicketInputScript
  | errTicketCommitment
  | errBadPayeeScriptVersion
  | errBadPayeeScriptType
  | errMismatchedPayeeHash
  | errBadPayeeValue
  | errBadStakebaseAmountIn
  | errInvalidVoteInput
  | errInvalidRevokeInput
  | errImmatureTicketSpend
  | errBadNumPayees
  | errTooManySigOps
  | errTicketUnavailable
  | errSSGenSubsidy
  | errStakeFees
  | errBadFees
  | errBadCoinbaseAmountIn
  | errBadCoinbaseValue
  | errNoStakeTx
  | errBadStakebaseValue
  | errNoTxOutputs
  | errNoTax
deriving DecidableEq

/-- The errors of package `blockchain`. -/
inductive ChainError where
  /-- `RuleError`: the block breaks a rule. -/
  | rule (code : ErrorCode)
  /-- `AssertError`: the code is in a state that it does not expect. -/
  | assertError
  /-- `ErrCorruption`: the database does not hold what it should. -/
  | corruption
deriving DecidableEq

/-! ## Entries -/

/-- `utxoOutput`. Scripts are kept uncompressed. -/
structure UtxoOutput where
  amount : Int
  scriptVersion : Nat
  pkScript : List UInt8
  spent : Bool
deriving DecidableEq

/-- `UtxoEntry`: the outputs of a transaction that are not all spent. The extra data of a ticket is
the list of its outputs. -/
structure UtxoEntry where
  sparseOutputs : OrdMap Nat UtxoOutput
  stakeExtra : List MinimalOutput
  txType : TxType
  height : Nat
  index : Nat
  txVersion : Nat
  isCoinBase : Bool
  hasExpiry : Bool
  modified : Bool
deriving DecidableEq

def newUtxoEntry (txVersion height index : Nat) (isCoinBase hasExpiry : Bool) (txType : TxType) :
    UtxoEntry where
  sparseOutputs := .empty
  stakeExtra := []
  txType := txType
  height := height
  index := index
  txVersion := txVersion
  isCoinBase := isCoinBase
  hasExpiry := hasExpiry
  modified := false

namespace UtxoEntry

variable (entry : UtxoEntry) (outputIndex : Nat)

/-- `IsOutputSpent`: outputs that the entry does not have are spent or cannot be spent. -/
def isOutputSpent : Bool :=
  match entry.sparseOutputs.get? outputIndex with
  | none => true
  | some output => output.spent

def isFullySpent : Bool := entry.sparseOutputs.toList.all fun o => o.2.spent

def amountByIndex : Int :=
  match entry.sparseOutputs.get? outputIndex with
  | none => 0
  | some output => output.amount

def scriptVersionByIndex : Nat :=
  match entry.sparseOutputs.get? outputIndex with
  | none => 0
  | some output => output.scriptVersion

def pkScriptByIndex : List UInt8 :=
  match entry.sparseOutputs.get? outputIndex with
  | none => []
  | some output => output.pkScript

end UtxoEntry

/-! ## Views -/

/-- `UtxoViewpoint`. A hash may have no entry, the entry `nil`, or a proper one. -/
structure UtxoViewpoint where
  entries : Hash → Option (Option UtxoEntry)
  bestHash : Hash

def newUtxoViewpoint : UtxoViewpoint := ⟨fun _ => none, default⟩

namespace UtxoViewpoint

variable (view : UtxoViewpoint)

def lookupEntry (h : Hash) : Option UtxoEntry := (view.entries h).join

/-- An assignment to `view.entries`. -/
def setEntry (h : Hash) (entry : UtxoEntry) : UtxoViewpoint :=
  { view with entries := fun h' => if h' = h then some (some entry) else view.entries h' }

/-- The output of a transaction as a new output of its entry. -/
def newOutput (txOut : TxOut) : UtxoOutput := ⟨txOut.value, txOut.version, txOut.pkScript, false⟩

/-- The loop over the outputs in `AddTxOuts`. An output that the entry has already is overwritten
and unspent again. -/
def addOutputs (outputs : OrdMap Nat UtxoOutput) (txOuts : List (TxOut × Nat)) :
    OrdMap Nat UtxoOutput :=
  txOuts.foldl (fun outputs (txOut, txOutIdx) =>
    if isUnspendable txOut.value txOut.pkScript then outputs
    else outputs.insert txOutIdx (newOutput txOut)) outputs

/-- The entry that `AddTxOuts` adds to, which is a new one if there is none. -/
def entryFor (tx : Tx) (blockHeight blockIndex : Nat) : UtxoEntry :=
  match view.lookupEntry tx.hash with
  | none =>
    { newUtxoEntry tx.msgTx.version blockHeight blockIndex (isCoinBaseTx tx.msgTx)
        (tx.msgTx.expiry != 0) tx.txType with
      stakeExtra := if tx.txType = .sstx then convertToMinimalOutputs tx.msgTx else [] }
  | some entry => { entry with height := blockHeight, index := blockIndex }

def addTxOuts (tx : Tx) (blockHeight blockIndex : Nat) : UtxoViewpoint :=
  let entry := view.entryFor tx blockHeight blockIndex
  view.setEntry tx.hash
    { entry with
      modified := true
      sparseOutputs := addOutputs entry.sparseOutputs tx.msgTx.txOut.zipIdx }

end UtxoViewpoint

end Fnod
