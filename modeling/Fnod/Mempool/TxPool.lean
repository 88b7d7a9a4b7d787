import Fnod.Blockchain.Validate

/-!
# `mempool.go`: the pool of transactions

The pool keeps the transactions that wait for a block, and two indexes over them: which transaction
spends an outpoint, and which votes there are on a block. Transactions with unknown inputs are kept
apart as orphans, with an index of their own. Everything here is executable; what the indexes say
about the pool is proved in the modules that follow.

What the pool cannot know is an argument (`World`): the answers of the chain, the verdicts of the
checks of other packages, and the order in which Go iterates over a map. The pool counts its
questions, so that no two answers need to agree.

`removeTransaction` and `removeOrphan` call themselves. They run with fuel here, and `none` stands
for a call that does not return: it recurses without end, or it panics.
-/

namespace Fnod

open Except

/-! ## Configuration and errors -/

/-- `RejectCode` of package `wire`: the codes that the pool uses. -/
inductive RejectCode where
  | rejectInvalid
  | rejectDuplicate
  | rejectNonstandard
  | rejectInsufficientFee
deriving DecidableEq

/-- The errors of the pool: a `RuleError` with a `TxRuleError` or an error of the chain in it, or
something else. -/
inductive PoolError where
  | txRule (code : RejectCode)
  | chainRule (code : ErrorCode)
  | other
deriving DecidableEq

def defaultBlockPrioritySize : Int := 20000

def maxRelayFeeMultiplier : Int := 10000

def maxVoteDoubleSpends : Nat := 5

def heightDiffToPruneTicket : Nat := 288

def heightDiffToPruneVotes : Nat := 10

def maximumVoteAgeDelta : Int := 1440

/-- `UnminedHeight` of package `mining`. -/
def unminedHeight : Nat := 0x7fffffff

/-- `Policy` and `ChainParams` of the configuration. -/
structure PoolConfig where
  chainParams : Params
  disableRelayPriority : Bool
  acceptNonStd : Bool
  maxOrphanTxs : Int
  maxOrphanTxSize : Int
  maxSigOpsPerTx : Int
  minRelayTxFee : Int
  allowOldVotes : Bool

/-- The regression test network, with a limit on orphans. -/
def PoolConfig.regNet (maxOrphanTxs : Int) : PoolConfig where
  chainParams := regNetParams
  disableRelayPriority := true
  acceptNonStd := true
  maxOrphanTxs := maxOrphanTxs
  maxOrphanTxSize := 1000
  maxSigOpsPerTx := 1000
  minRelayTxFee := 0
  allowOldVotes := true

/-- `SequenceLock` of package `blockchain`. -/
structure SequenceLock where
  minHeight : Int
  minTime : Int

def sequenceLockActive (lock : SequenceLock) (blockHeight medianTime : Int) : Bool :=
  !(blockHeight ≤ lock.minHeight || medianTime ≤ lock.minTime)

/-- What the pool is told when it asks: the callbacks of its configuration, and the verdicts of
other packages on a transaction. -/
structure PoolEnv where
  bestHash : Hash
  bestHeight : Nat
  pastMedianTime : Int
  nextStakeDifficulty : Except PoolError Int
  fetchUtxoView : Tx → Bool → Except PoolError UtxoViewpoint
  calcSequenceLock : Tx → UtxoViewpoint → Except PoolError SequenceLock
  acceptSequenceLocks : Except PoolError Bool
  standardVerifyFlags : Except PoolError Nat
  checkTransactionSanity : Tx → Except PoolError Unit
  /-- An input of the transaction has a relative lock time. -/
  hasSequenceLock : Tx → Bool
  checkTransactionStandard : Tx → Nat → Int → Except PoolError Unit
  checkInputsStandard : Tx → UtxoViewpoint → Except PoolError Unit
  serializeSize : Tx → Nat
  /-- `CalcPriority` is above `MinHighPriority`. -/
  hasHighPriority : Tx → UtxoViewpoint → Nat → Bool
  /-- The rate limiter for transactions without fees has reached its limit. -/
  overRelayLimit : Tx → Bool
  validateTransactionScripts : Tx → UtxoViewpoint → Nat → Except PoolError Unit

/-- The world around the pool: what the `n`-th question is answered with, and in which order the
`n`-th loop visits the entries of its map. -/
structure World where
  env : Nat → PoolEnv
  order : (α : Type) → Nat → List α → List α
  order_perm : ∀ α n l, (order α n l).Perm l

/-- Answers that refuse nothing, at a height and with views of the chain. -/
def PoolEnv.lenient (bestHeight : Nat) (view : Tx → UtxoViewpoint) : PoolEnv where
  bestHash := default
  bestHeight := bestHeight
  pastMedianTime := 0
  nextStakeDifficulty := .ok 0
  fetchUtxoView tx _ := .ok (view tx)
  calcSequenceLock _ _ := .ok ⟨-1, -1⟩
  acceptSequenceLocks := .ok true
  standardVerifyFlags := .ok 0
  checkTransactionSanity _ := .ok ()
  hasSequenceLock _ := false
  checkTransactionStandard _ _ _ := .ok ()
  checkInputsStandard _ _ := .ok ()
  serializeSize _ := 0
  hasHighPriority _ _ _ := true
  overRelayLimit _ := false
  validateTransactionScripts _ _ _ := .ok ()

/-- A world that always gives the same answers, and visits the entries of a map as they are listed.
-/
def World.constant (env : PoolEnv) : World := ⟨fun _ => env, fun _ _ l => l, fun _ _ _ => .refl _⟩

/-- `TxDesc`, with the fields that are read. -/
structure TxDesc where
  tx : Tx
  type : TxType
  height : Nat
  fee : Int
deriving DecidableEq

/-- `VoteDesc` of package `mining`. -/
structure VoteDesc where
  voteHash : Hash
  ticketHash : Hash
  approvesParent : Bool
deriving DecidableEq

/-- `TxPool`. The maps that are iterated over or counted are the lists of their entries, in any
order. `asked` counts the questions to the world. -/
structure TxPool where
  pool : List TxDesc
  orphans : List Tx
  orphansByPrev : OutPoint → Option (List Tx)
  outpoints : OutPoint → Option Tx
  votes : Hash → Option (List VoteDesc)
  asked : Nat

/-- `New`. -/
def newTxPool : TxPool := ⟨[], [], fun _ => none, fun _ => none, fun _ => none, 0⟩

/-- The outputs of a transaction, in its tree. -/
def Tx.outPoints (tx : Tx) : List OutPoint :=
  (List.range tx.msgTx.txOut.length).map fun i => ⟨tx.hash, i, indicatedTree tx.txType⟩

/-- The outpoints that the inputs of a transaction name. -/
def Tx.prevOuts (tx : Tx) : List OutPoint := tx.msgTx.txIn.map (·.previousOutPoint)

def isExpired (tx : Tx) (blockHeight : Nat) : Bool :=
  tx.msgTx.expiry ≠ 0 ∧ tx.msgTx.expiry ≤ blockHeight

def calcMinRequiredTxRelayFee (serializedSize minRelayTxFee : Int) : Int :=
  let minFee := (Int64.wrap (serializedSize * minRelayTxFee)).tdiv 1000
  let minFee := if minFee = 0 ∧ minRelayTxFee > 0 then minRelayTxFee else minFee
  if minFee < 0 ∨ minFee > maxAmount then maxAmount else minFee

namespace TxPool

/-! ## Lookups -/

variable (mp : TxPool) (hash : Hash)

def isTransactionInPool : Bool := mp.pool.any (·.tx.hash = hash)

def isOrphanInPool : Bool := mp.orphans.any (·.hash = hash)

/-- One more question was asked. -/
def ask : TxPool := { mp with asked := mp.asked + 1 }

/-! ## Orphans -/

section Orphans

variable (w : World) (cfg : PoolConfig)

/-- An entry of a map of collections, which is deleted when its collection is empty. -/
def collectionEntry {α : Type} : List α → Option (List α)
  | [] => none
  | a :: l => some (a :: l)

/-- One input of the orphan in the first loop of `removeOrphan`. -/
def unlinkPrev (hash : Hash) (mp : TxPool) (op : OutPoint) : TxPool :=
  match mp.orphansByPrev op with
  | none => mp
  | some orphans =>
    { mp with
      orphansByPrev := fun op' =>
        if op' = op then collectionEntry (orphans.filter (·.hash ≠ hash))
        else mp.orphansByPrev op' }

variable (mp : TxPool) (tx : Tx)

/-- The first loop of `removeOrphan`. -/
def unlinkOrphan : TxPool := tx.prevOuts.foldl (unlinkPrev tx.hash) mp

/-- The orphans that spend an outpoint. -/
def orphansOf (op : OutPoint) : List Tx := (mp.orphansByPrev op).getD []

/-- A loop over the orphans that spend an outpoint. An orphan that is taken out of the map before
its turn is not visited. -/
def rangeOrphans (body : TxPool → Tx → Option TxPool) (mp : TxPool) (op : OutPoint) :
    Option TxPool :=
  (w.order Tx mp.asked (mp.orphansOf op)).foldlM
    (fun mp orphan => if orphan ∈ mp.orphansOf op then body mp orphan else some mp) mp.ask

/-- `removeOrphan`. -/
def removeOrphanRec : Nat → TxPool → Tx → Bool → Option TxPool
  | 0, _, _, _ => none
  | fuel + 1, mp, tx, removeRedeemers =>
    match mp.orphans.find? (·.hash = tx.hash) with
    | none => some mp
    | some tx =>
      let mp := mp.unlinkOrphan tx
      (if removeRedeemers then
          tx.outPoints.foldlM
            (rangeOrphans w fun mp orphan => removeOrphanRec fuel mp orphan true) mp
        else some mp).map
        fun mp => { mp with orphans := mp.orphans.filter (·.hash ≠ tx.hash) }

/-- `removeOrphan`, with fuel for every orphan. -/
def removeOrphan (removeRedeemers : Bool) : Option TxPool :=
  removeOrphanRec w (mp.orphans.length + 1) mp tx removeRedeemers

def limitNumOrphans : Option TxPool :=
  if mp.orphans.length + 1 ≤ cfg.maxOrphanTxs then some mp
  else
    match w.order Tx mp.asked mp.orphans with
    | [] => some mp.ask
    | tx :: _ => mp.ask.removeOrphan w tx false

/-- One input of the orphan in the loop of `addOrphan`. -/
def linkPrev (mp : TxPool) (op : OutPoint) : TxPool :=
  { mp with
    orphansByPrev := fun op' =>
      if op' = op then some ((mp.orphansOf op).filter (·.hash ≠ tx.hash) ++ [tx])
      else mp.orphansByPrev op' }

def addOrphan : Option TxPool :=
  if cfg.maxOrphanTxs ≤ 0 then some mp
  else do
    let mp ← mp.limitNumOrphans w cfg
    let mp := { mp with orphans := mp.orphans.filter (·.hash ≠ tx.hash) ++ [tx] }
    some (tx.prevOuts.foldl (linkPrev tx) mp)

def maybeAddOrphan : Option (TxPool × Except PoolError Unit) :=
  if (w.env mp.asked).serializeSize tx > cfg.maxOrphanTxSize then
    some (mp.ask, .error (.txRule .rejectNonstandard))
  else do
    let mp ← mp.ask.addOrphan w cfg tx
    some (mp, .ok ())

def removeOrphanDoubleSpends : Option TxPool :=
  tx.prevOuts.foldlM (rangeOrphans w fun mp orphan => mp.removeOrphan w orphan true) mp

end Orphans

/-! ## Removing transactions -/

section Remove

variable (w : World)

variable (mp : TxPool)

/-- The second half of `removeTransaction`: the transaction leaves the pool and its outpoints. -/
def dropTransaction (hash : Hash) : TxPool :=
  match mp.pool.find? (·.tx.hash = hash) with
  | none => mp
  | some txDesc =>
    { mp with
      outpoints := fun op => if op ∈ txDesc.tx.prevOuts then none else mp.outpoints op
      pool := mp.pool.filter (·.tx.hash ≠ hash) }

/-- `removeTransaction`. -/
def removeTransactionRec : Nat → TxPool → Tx → Bool → Option TxPool
  | 0, _, _, _ => none
  | fuel + 1, mp, tx, removeRedeemers =>
    (if removeRedeemers then
        tx.outPoints.foldlM (fun mp prevOut =>
          match mp.outpoints prevOut with
          | some txRedeemer => removeTransactionRec fuel mp txRedeemer true
          | none => some mp) mp
      else some mp).map
      fun mp => mp.dropTransaction tx.hash

/-- `removeTransaction`, with fuel for every transaction of the pool and for one that is not in
it. -/
def removeTransaction (tx : Tx) (removeRedeemers : Bool) : Option TxPool :=
  removeTransactionRec (mp.pool.length + 1) mp tx removeRedeemers

def removeDoubleSpends (tx : Tx) : Option TxPool :=
  tx.prevOuts.foldlM (fun mp op =>
    match mp.outpoints op with
    | some txRedeemer =>
      if txRedeemer.hash ≠ tx.hash then mp.removeTransaction txRedeemer true else some mp
    | none => some mp) mp

/-- A loop over the pool that may remove transactions. A transaction that is removed before its turn
is not visited. -/
def rangePool (body : TxPool → TxDesc → Option TxPool) (mp : TxPool) : Option TxPool :=
  (w.order TxDesc mp.asked mp.pool).foldlM
    (fun mp desc => if desc ∈ mp.pool then body mp desc else some mp) mp.ask

/-- One of the checks of a loop that prunes the pool. -/
def pruneIf (bad : Prop) [Decidable bad] (mp : TxPool) (desc : TxDesc) : Option TxPool :=
  if bad then mp.removeTransaction desc.tx true else some mp

def pruneStakeTx (requiredStakeDifficulty : Int) (height : Nat) : Option TxPool :=
  mp.rangePool w fun mp desc => do
    let isTicket := desc.tx.txType = .sstx
    let mp ← mp.pruneIf (isTicket ∧ desc.height + heightDiffToPruneTicket < height) desc
    let mp ← mp.pruneIf
      (isTicket ∧ ∃ out ∈ desc.tx.msgTx.txOut[0]?, out.value < requiredStakeDifficulty) desc
    mp.pruneIf ((desc.tx.txType = .ssrtx ∨ desc.tx.txType = .ssgen) ∧
      desc.height + heightDiffToPruneVotes < height) desc

def pruneExpiredTx : Option TxPool :=
  mp.ask.rangePool w fun mp' desc =>
    mp'.pruneIf (isExpired desc.tx ((w.env mp.asked).bestHeight + 1) = true) desc

end Remove

/-! ## Votes -/

def insertVote (ssgen : Tx) : Option TxPool :=
  match ssgen.msgTx.txIn[1]?, ssgenBlockVotedOn ssgen.msgTx with
  | some ticketIn, .ok (blockHash, _) =>
    let ticketHash := ticketIn.previousOutPoint.hash
    let vts := (mp.votes blockHash).getD []
    if vts.any (·.ticketHash = ticketHash) then some mp
    else
      match ssgenVoteBits ssgen.msgTx with
      | .ok voteBits =>
        let voteTx := ⟨ssgen.hash, ticketHash, voteBitsApproveParent voteBits⟩
        some { mp with
          votes := fun h => if h = blockHash then some (vts ++ [voteTx]) else mp.votes h }
      | .error _ => none
  | _, _ => none

/-- A vote that was accepted is recorded. -/
def recordVote (tx : Tx) : Option TxPool :=
  if tx.isSSGen then mp.insertVote tx else some mp

def voteHashesForBlock (blockHash : Hash) : List Hash :=
  ((mp.votes blockHash).getD []).map (·.voteHash)

def votesForBlocks (hashes : List Hash) : List (List VoteDesc) :=
  hashes.map fun hash => (mp.votes hash).getD []

def isRegTxTreeKnownDisapproved (cfg : PoolConfig) (hash : Hash) : Bool :=
  let vts := (mp.votes hash).getD []
  if vts.length ≤ cfg.chainParams.ticketsPerBlock / 2 then false
  else vts.countP (·.approvesParent) ≤ vts.countP fun vote => !vote.approvesParent

/-! ## Accepting transactions -/

/-- A check of the pool. A panic of a callee is a fault too. -/
abbrev Check := Except (Fault PoolError)

/-- An error of package `blockchain`, passed on. -/
def ofChain {α : Type} : Except (Fault ChainError) α → Check α
  | .ok a => .ok a
  | .error .panic => .error .panic
  | .error (.err (.rule code)) => .error (.err (.chainRule code))
  | .error (.err _) => .error (.err .other)

/-- An error of a callback, passed on. -/
def ofCallback {α : Type} : Except PoolError α → Check α
  | .ok a => .ok a
  | .error e => .error (.err e)

/-- A check that fails with a `TxRuleError`. -/
def refuseIf (bad : Prop) [Decidable bad] (code : RejectCode) : Check Unit :=
  if bad then .error (.err (.txRule code)) else .ok ()

section Accept

variable (cfg : PoolConfig) (env : PoolEnv) (mp : TxPool) (tx : Tx)

def checkPoolDoubleSpend : Check Unit :=
  let spends := if tx.isSSGen || tx.isSSRtx then tx.prevOuts.drop 1 else tx.prevOuts
  refuseIf (∃ op ∈ spends, (mp.outpoints op).isSome) .rejectDuplicate

/-- The outpoint of the `i`-th input. -/
def prevOut? (tx : Tx) (i : Nat) : Option OutPoint := tx.msgTx.txIn[i]?.map (·.previousOutPoint)

/-- The number of transactions of a type in the pool that spend with their `i`-th input what `tx`
spends with it. -/
def countSame (type : TxType) (i : Nat) : Nat :=
  mp.pool.countP fun desc => desc.type = type ∧ prevOut? desc.tx i = prevOut? tx i

/-- The checks of `maybeAcceptTransaction` against double spends in the pool. The loops over the
pool stop at a count that does not depend on their order. -/
def checkDoubleSpends : Check Unit :=
  if tx.isSSGen then refuseIf (mp.countSame tx .ssgen 1 > maxVoteDoubleSpends) .rejectDuplicate
  else if tx.isSSRtx then refuseIf (mp.countSame tx .ssrtx 0 > 0) .rejectDuplicate
  else mp.checkPoolDoubleSpend tx

variable (view : UtxoViewpoint) (nextBlockHeight : Nat)

/-- The checks of `maybeAcceptTransaction` before it looks at the pool: the shape of the transaction
and its place in the chain. -/
def checkAlone : Check Unit := do
  ofCallback (env.checkTransactionSanity tx)
  refuseIf (isCoinBase tx = true) .rejectInvalid
  refuseIf (isExpired tx nextBlockHeight = true) .rejectInvalid
  let acceptSeqLocks ← ofCallback env.acceptSequenceLocks
  refuseIf (acceptSeqLocks = false ∧ tx.msgTx.version ≥ 2 ∧ tx.isSSGen = false ∧
    env.hasSequenceLock tx = true) .rejectInvalid
  let stakeValidationHeight := cfg.chainParams.stakeValidationHeight
  refuseIf (tx.isSSGen = true ∧ nextBlockHeight < stakeValidationHeight) .rejectInvalid
  refuseIf (tx.isSSRtx = true ∧ nextBlockHeight < stakeValidationHeight + 1) .rejectInvalid
  if cfg.acceptNonStd then .ok ()
  else ofCallback (env.checkTransactionStandard tx nextBlockHeight env.pastMedianTime)
  if tx.isSStx then do
    let sDiff ← ofCallback env.nextStakeDifficulty
    refuseIf (∃ out ∈ tx.msgTx.txOut[0]?, out.value < sDiff) .rejectInsufficientFee
  else .ok ()

/-- Votes on blocks that are too old. -/
def checkVoteAge : Check Unit :=
  if tx.isSSGen then
    match ssgenBlockVotedOn tx.msgTx with
    | .ok (_, voteHeight) =>
      refuseIf ((voteHeight : Int) < (nextBlockHeight : Int) - maximumVoteAgeDelta ∧
        cfg.allowOldVotes = false) .rejectNonstandard
    | .error _ => .error .panic
  else .ok ()

/-- `fetchInputUtxos`: the view of the chain, where the outputs of the pool fill in for transactions
that the chain does not have. -/
def fetchInputUtxos : Check UtxoViewpoint := do
  let knownDisapproved := mp.isRegTxTreeKnownDisapproved cfg env.bestHash
  let utxoView ← ofCallback (env.fetchUtxoView tx !knownDisapproved)
  .ok (mp.pool.foldl (fun view desc =>
    match utxoView.entries desc.tx.hash with
    | none => view
    | some entry =>
      if entry.all (·.isFullySpent) then view.addTxOuts desc.tx unminedHeight nullBlockIndex
      else view) utxoView)

/-- No output of the transaction is left in the view. -/
def isMissing (hash : Hash) : Bool :=
  (view.lookupEntry hash).all (·.isFullySpent)

/-- The parents that are unknown or fully spent. -/
def missingParents : List Hash :=
  (tx.inputs.map (·.previousOutPoint.hash)).filter (isMissing view)

/-- The checks of `maybeAcceptTransaction` on fees. -/
def checkFees (txFee : Int) (isNew rateLimit allowHighFees : Bool) : Check Unit := do
  let serializedSize : Int := env.serializeSize tx
  let minFee := calcMinRequiredTxRelayFee serializedSize cfg.minRelayTxFee
  let isRegular := tx.txType = .regular
  refuseIf (isRegular ∧ serializedSize ≥ defaultBlockPrioritySize - 1000 ∧ txFee < minFee)
    .rejectInsufficientFee
  refuseIf (isNew = true ∧ cfg.disableRelayPriority = false ∧ txFee < minFee ∧ isRegular ∧
    env.hasHighPriority tx view nextBlockHeight = false) .rejectInsufficientFee
  refuseIf (rateLimit = true ∧ txFee < minFee ∧ isRegular ∧ env.overRelayLimit tx = true)
    .rejectInsufficientFee
  refuseIf (tx.isSStx = true ∧ txFee < minFee) .rejectInsufficientFee
  let maxFee := calcMinRequiredTxRelayFee (Int64.wrap (serializedSize * maxRelayFeeMultiplier))
    cfg.minRelayTxFee
  if allowHighFees = false ∧ txFee > maxFee then .error (.err .other) else .ok ()

/-- The checks of `maybeAcceptTransaction` on a transaction whose parents are all known: the fee. -/
def checkInputsAndFees (isNew rateLimit allowHighFees : Bool) : Check Int := do
  let seqLock ← ofCallback (env.calcSequenceLock tx view)
  refuseIf (sequenceLockActive seqLock nextBlockHeight env.pastMedianTime = false)
    .rejectNonstandard
  let txFee ← ofChain
    (checkTransactionInputs Int64.wrapping cfg.chainParams tx nextBlockHeight view false)
  if cfg.acceptNonStd then .ok () else ofCallback (env.checkInputsStandard tx view)
  let numP2SHSigOps ← ofChain (countP2SHSigOps tx false tx.isSSGen view)
  refuseIf ((numP2SHSigOps + countSigOps tx false tx.isSSGen : Nat) > cfg.maxSigOpsPerTx)
    .rejectNonstandard
  checkFees cfg env tx view nextBlockHeight txFee isNew rateLimit allowHighFees
  let flags ← ofCallback env.standardVerifyFlags
  ofCallback (env.validateTransactionScripts tx view flags)
  .ok txFee

/-- What `maybeAcceptTransaction` finds out before it changes anything: the parents that are
missing, or the fee. -/
def checkTransaction (isNew rateLimit allowHighFees rejectDupOrphans : Bool) :
    Check (List Hash ⊕ Int) := do
  refuseIf ((mp.isTransactionInPool tx.hash ||
    (rejectDupOrphans && mp.isOrphanInPool tx.hash)) = true) .rejectDuplicate
  let nextBlockHeight := env.bestHeight + 1
  checkAlone cfg env tx nextBlockHeight
  mp.checkDoubleSpends tx
  checkVoteAge cfg tx nextBlockHeight
  let utxoView ← mp.fetchInputUtxos cfg env tx
  refuseIf (isMissing utxoView tx.hash = false) .rejectDuplicate
  let utxoView := { utxoView with
    entries := fun h => if h = tx.hash then none else utxoView.entries h }
  let missing := missingParents tx utxoView
  if missing ≠ [] then .ok (.inl missing)
  else do
    let txFee ← checkInputsAndFees cfg env tx utxoView nextBlockHeight isNew rateLimit allowHighFees
    .ok (.inr txFee)

def addTransaction (height : Nat) (fee : Int) : TxPool :=
  { mp with
    pool := mp.pool.filter (·.tx.hash ≠ tx.hash) ++ [⟨tx, tx.txType, height, fee⟩]
    outpoints := fun op => if op ∈ tx.prevOuts then some tx else mp.outpoints op }

end Accept

section Process

variable (w : World) (cfg : PoolConfig)

def maybeAcceptTransaction (mp : TxPool) (tx : Tx)
    (isNew rateLimit allowHighFees rejectDupOrphans : Bool) :
    Option (TxPool × Except PoolError (List Hash)) :=
  let env := w.env mp.asked
  match mp.checkTransaction cfg env tx isNew rateLimit allowHighFees rejectDupOrphans with
  | .error .panic => none
  | .error (.err e) => some (mp.ask, .error e)
  | .ok (.inl missing) => some (mp.ask, .ok missing)
  | .ok (.inr fee) =>
    ((mp.ask.addTransaction tx env.bestHeight fee).recordVote tx).map fun mp => (mp, .ok [])

/-- The inner loop of `processOrphans`: the orphan that was accepted, if one was. It stops at the
first orphan that is accepted or refused. -/
def tryOrphans : List Tx → TxPool → Option (TxPool × Option Tx)
  | [], mp => some (mp, none)
  | tx :: orphans, mp => do
    let (mp, verdict) ← mp.maybeAcceptTransaction w cfg tx true true true false
    match verdict with
    | .error _ => do
      let mp ← mp.removeOrphan w tx true
      some (mp, none)
    | .ok (_ :: _) => tryOrphans orphans mp
    | .ok [] => do
      let mp ← mp.removeOrphan w tx false
      some (mp, some tx)

/-- One output in the middle loop of `processOrphans`. -/
def processOutput (s : TxPool × List Tx) (prevOut : OutPoint) : Option (TxPool × List Tx) :=
  match s.1.orphansByPrev prevOut with
  | none => some s
  | some orphans => do
    let (mp, accepted) ← tryOrphans w cfg (w.order Tx s.1.asked orphans) s.1.ask
    some (mp, s.2 ++ accepted.toList)

/-- The outer loop of `processOrphans`. -/
def processQueue : Nat → TxPool → List Tx → List Tx → Option (TxPool × List Tx)
  | 0, _, _, _ => none
  | _ + 1, mp, [], acceptedTxns => some (mp, acceptedTxns)
  | fuel + 1, mp, processItem :: queue, acceptedTxns => do
    let (mp, accepted) ← processItem.outPoints.foldlM (processOutput w cfg) (mp, [])
    processQueue fuel mp (queue ++ accepted) (acceptedTxns ++ accepted)

def processOrphans (mp : TxPool) (acceptedTx : Tx) : Option (TxPool × List Tx) := do
  let (mp, acceptedTxns) ← processQueue w cfg (mp.orphans.length + 2) mp [acceptedTx] []
  let mp ← (acceptedTx :: acceptedTxns).foldlM (removeOrphanDoubleSpends w) mp
  some (mp, acceptedTxns)

def processTransaction (mp : TxPool) (tx : Tx) (allowOrphan rateLimit allowHighFees : Bool) :
    Option (TxPool × Except PoolError (List Tx)) := do
  let (mp, verdict) ← mp.maybeAcceptTransaction w cfg tx true rateLimit allowHighFees true
  match verdict with
  | .error e => some (mp, .error e)
  | .ok [] => do
    let (mp, newTxs) ← mp.processOrphans w cfg tx
    some (mp, .ok (tx :: newTxs))
  | .ok (_ :: _) =>
    if !allowOrphan then some (mp, .error (.txRule .rejectDuplicate))
    else do
      let (mp, verdict) ← mp.maybeAddOrphan w cfg tx
      some (mp, verdict.map fun _ => [])

end Process

end TxPool

/-! ## Histories -/

/-- The calls that change the pool. -/
inductive PoolOp where
  | processTransaction (tx : Tx) (allowOrphan rateLimit allowHighFees : Bool)
  | maybeAcceptTransaction (tx : Tx) (isNew rateLimit : Bool)
  | processOrphans (acceptedTx : Tx)
  | removeOrphan (tx : Tx)
  | removeTransaction (tx : Tx) (removeRedeemers : Bool)
  | removeDoubleSpends (tx : Tx)
  | pruneStakeTx (requiredStakeDifficulty : Int) (height : Nat)
  | pruneExpiredTx

/-- The pool after a call, if the call returns. -/
def PoolOp.run (w : World) (cfg : PoolConfig) (mp : TxPool) : PoolOp → Option TxPool
  | processTransaction tx allowOrphan rateLimit allowHighFees =>
    (mp.processTransaction w cfg tx allowOrphan rateLimit allowHighFees).map Prod.fst
  | maybeAcceptTransaction tx isNew rateLimit =>
    (mp.maybeAcceptTransaction w cfg tx isNew rateLimit true true).map Prod.fst
  | processOrphans acceptedTx => (mp.processOrphans w cfg acceptedTx).map Prod.fst
  | removeOrphan tx => mp.removeOrphan w tx false
  | removeTransaction tx removeRedeemers => mp.removeTransaction tx removeRedeemers
  | removeDoubleSpends tx => mp.removeDoubleSpends tx
  | pruneStakeTx requiredStakeDifficulty height => mp.pruneStakeTx w requiredStakeDifficulty height
  | pruneExpiredTx => mp.pruneExpiredTx w

/-- The transaction that a call is about. -/
def PoolOp.tx? : PoolOp → Option Tx
  | processTransaction tx _ _ _ | maybeAcceptTransaction tx _ _ | processOrphans tx
  | removeOrphan tx | removeTransaction tx _ | removeDoubleSpends tx => some tx
  | pruneStakeTx _ _ | pruneExpiredTx => none

/-- The call may take transactions in, and takes none out of the pool. -/
def PoolOp.IsIntake : PoolOp → Prop
  | processTransaction .. | maybeAcceptTransaction .. | processOrphans _ | removeOrphan _ => True
  | removeTransaction .. | removeDoubleSpends _ | pruneStakeTx .. | pruneExpiredTx => False

/-- A call, with the pool before and after it. -/
structure PoolStep where
  before : TxPool
  op : PoolOp
  after : TxPool

/-- The pools that a new one can become, with the calls on the way. -/
inductive PoolRun (w : World) (cfg : PoolConfig) : List PoolStep → TxPool → Prop
  | new : PoolRun w cfg [] newTxPool
  | call {steps mp mp' op} : PoolRun w cfg steps mp → op.run w cfg mp = some mp' →
      PoolRun w cfg (steps ++ [⟨mp, op, mp'⟩]) mp'

end Fnod
