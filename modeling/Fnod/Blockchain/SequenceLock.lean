import Fnod.Blockchain.MedianTime
import Fnod.Mempool.TxPool
import Fnod.Wire.Plain
import Mathlib.Data.Nat.Bitwise

/-!
# `sequencelock.go`: relative lock times

The sequence number of an input may ask for a number of blocks, or of units of 512 seconds, between
the output that it spends and the transaction. `calcSequenceLock` folds what the inputs ask for into
one lock, the last height and the last time at which the transaction must wait, and
`SequenceLockActive` compares a height and a time with the lock.

**Theorem (`relativeLocks_iff`).** For a transaction that is not a vote and whose inputs are known,
there is a lock, and it lets the transaction pass exactly if every input that is not disabled is old
enough, provided the transaction is not a lone reference, on which `IsSSGen` panics.

Each input takes the lock to one that also waits for the input (`lockInput_spec`), so the fold waits
for all of them.
-/

namespace Fnod

open BlockTree List

/-! ## Constants -/

def sequenceLockTimeDisabled : UInt32 := (1 : UInt32) <<< 31

def sequenceLockTimeIsSeconds : UInt32 := (1 : UInt32) <<< 22

def sequenceLockTimeMask : UInt32 := 0x0000ffff

def sequenceLockTimeGranularity : Nat := 9

/-! ## `calcSequenceLock` -/

def isStakeBaseTx (tx : MsgTx) : Except (Fault ChainError) Bool :=
  match checkSSGen tx with
  | .ok () => .ok true
  | .error .panic => .error .panic
  | .error (.err _) => .ok false

section Functions

variable (node : VoteNode) (view : UtxoViewpoint)

/-- The height of the block of an entry, which is the next block for one from the mempool. -/
def inputHeight (utxo : UtxoEntry) : Int :=
  if utxo.height = unminedHeight then height node + 1 else utxo.height

/-- The body of the loop over the inputs. Heights, and times in seconds, are 32-bit numbers, so
nothing overflows. -/
def lockInput (sequenceLock : SequenceLock) (txIn : Wire.TxIn) :
    Except (Fault ChainError) SequenceLock :=
  let sequenceNum := txIn.sequence
  if sequenceNum &&& sequenceLockTimeDisabled ≠ 0 then .ok sequenceLock
  else
    match view.lookupEntry txIn.previousOutPoint.hash with
    | none => .error (.err (.rule .errMissingTxOut))
    | some utxo =>
      let inputHeight := inputHeight node utxo
      let relativeLock : Int := (sequenceNum &&& sequenceLockTimeMask).toNat
      if sequenceNum &&& sequenceLockTimeIsSeconds ≠ 0 then
        let prevInputHeight := if inputHeight - 1 < 0 then 0 else inputHeight - 1
        match ancestor node prevInputHeight with
        -- the median of no times at all
        | [] => .error .panic
        | b :: parent =>
          let relativeSecs := relativeLock <<< sequenceLockTimeGranularity
          let minTime := calcPastMedianTime (b :: parent) + relativeSecs - 1
          .ok (if minTime > sequenceLock.minTime then { sequenceLock with minTime }
            else sequenceLock)
      else
        let minHeight := inputHeight + relativeLock - 1
        .ok (if minHeight > sequenceLock.minHeight then { sequenceLock with minHeight }
          else sequenceLock)

def calcSequenceLock (tx : Wire.MsgTx) (isActive : Bool) :
    Except (Fault ChainError) SequenceLock := do
  let sequenceLock : SequenceLock := ⟨-1, -1⟩
  let enforce := isActive ∧ tx.version ≥ 2
  if ¬ enforce ∨ isCoinBaseTx tx.plain = true then .ok sequenceLock
  else
    let isStakeBase ← isStakeBaseTx tx.plain
    if isStakeBase then .ok sequenceLock
    else tx.txIn.foldlM (lockInput node view) sequenceLock

end Functions

/-! ## What a lock is for -/

section Purpose

variable (node : VoteNode) (view : UtxoViewpoint)

/-- The block before the one of an entry, or the genesis block for the genesis block itself. -/
def blockBefore (utxo : UtxoEntry) : VoteNode := ancestor node (max 0 (inputHeight node utxo - 1))

/-- The input is old enough in a block at a height, with a past median time. -/
def OldEnough (txIn : Wire.TxIn) (h t : Nat) : Prop :=
  ∀ utxo, view.lookupEntry txIn.previousOutPoint.hash = some utxo →
    txIn.sequence &&& sequenceLockTimeDisabled = 0 →
    if txIn.sequence &&& sequenceLockTimeIsSeconds = 0 then
      inputHeight node utxo + (txIn.sequence &&& sequenceLockTimeMask).toNat ≤ h
    else
      calcPastMedianTime (blockBefore node utxo) +
        (txIn.sequence &&& sequenceLockTimeMask).toNat * 512 ≤ t

/-- The output of the input is on the chain of the node or in the mempool, if it is looked up. -/
def InputKnown (txIn : Wire.TxIn) : Prop :=
  txIn.sequence &&& sequenceLockTimeDisabled = 0 →
    ∃ utxo, view.lookupEntry txIn.previousOutPoint.hash = some utxo ∧
      (utxo.height = unminedHeight ∨ utxo.height ≤ height node)

/-- The inputs that spend something. -/
def spends (tx : Wire.MsgTx) : List Wire.TxIn := if isCoinBaseTx tx.plain then [] else tx.txIn

end Purpose

/-! ## One input -/

section Inputs

variable {node : VoteNode} {view : UtxoViewpoint} {lock lock' : SequenceLock} {txIn : Wire.TxIn}
  {h t : Int} {utxo : UtxoEntry}

theorem sequenceLockActive_iff :
    sequenceLockActive lock h t = true ↔ lock.minHeight < h ∧ lock.minTime < t := by
  simp [sequenceLockActive]

theorem active_raiseHeight {minHeight : Int} :
    sequenceLockActive (if minHeight > lock.minHeight then { lock with minHeight } else lock) h t =
      true ↔ sequenceLockActive lock h t = true ∧ minHeight < h := by
  rw [sequenceLockActive_iff, sequenceLockActive_iff]
  split_ifs
  · dsimp only
    omega
  · omega

theorem active_raiseTime {minTime : Int} :
    sequenceLockActive (if minTime > lock.minTime then { lock with minTime } else lock) h t =
      true ↔ sequenceLockActive lock h t = true ∧ minTime < t := by
  rw [sequenceLockActive_iff, sequenceLockActive_iff]
  split_ifs
  · dsimp only
    omega
  · omega

theorem blockBefore_ne_nil (hne : node ≠ [])
    (hheight : utxo.height = unminedHeight ∨ utxo.height ≤ height node) :
    blockBefore node utxo ≠ [] := by
  have hnode : 0 ≤ height node := by
    have hpos := length_pos_iff.2 hne
    unfold height
    omega
  have hle : max 0 (inputHeight node utxo - 1) ≤ height node := by
    unfold inputHeight
    split_ifs <;> omega
  intro hnil
  have hbefore := height_ancestor (le_max_left 0 (inputHeight node utxo - 1)) hle
  unfold blockBefore at hnil
  rw [hnil] at hbefore
  unfold height at hbefore
  rw [length_nil] at hbefore
  omega

theorem oldEnough_iff (hutxo : view.lookupEntry txIn.previousOutPoint.hash = some utxo)
    (henabled : txIn.sequence &&& sequenceLockTimeDisabled = 0) {h t : Nat} :
    OldEnough node view txIn h t ↔
      if txIn.sequence &&& sequenceLockTimeIsSeconds = 0 then
        inputHeight node utxo + (txIn.sequence &&& sequenceLockTimeMask).toNat ≤ h
      else calcPastMedianTime (blockBefore node utxo) +
        (txIn.sequence &&& sequenceLockTimeMask).toNat * 512 ≤ t := by
  constructor
  · intro hold
    exact hold utxo hutxo henabled
  · intro hold utxo' hutxo' _
    cases hutxo.symm.trans hutxo'
    exact hold

/-- **One input**: the lock waits for it, too. -/
theorem lockInput_spec (hne : node ≠ []) (hknown : InputKnown node view txIn) :
    ∃ lock', lockInput node view lock txIn = .ok lock' ∧ ∀ h t : Nat,
      sequenceLockActive lock' h t = true ↔
        sequenceLockActive lock h t = true ∧ OldEnough node view txIn h t := by
  unfold lockInput
  dsimp only
  by_cases hdisabled : txIn.sequence &&& sequenceLockTimeDisabled = 0
  · obtain ⟨utxo, hutxo, hheight⟩ := hknown hdisabled
    rw [if_neg (not_not_intro hdisabled), hutxo]
    dsimp only
    by_cases hseconds : txIn.sequence &&& sequenceLockTimeIsSeconds = 0
    · rw [if_neg (not_not_intro hseconds)]
      refine ⟨_, rfl, fun h t => ?_⟩
      rw [active_raiseHeight, oldEnough_iff hutxo hdisabled, if_pos hseconds]
      refine and_congr_right fun _ => ?_
      omega
    · rw [if_pos hseconds]
      have hbefore : ancestor node
          (if inputHeight node utxo - 1 < 0 then 0 else inputHeight node utxo - 1) =
            blockBefore node utxo := by
        unfold blockBefore
        congr 1
        split_ifs <;> omega
      obtain ⟨b, parent, hb⟩ := exists_cons_of_ne_nil (blockBefore_ne_nil hne hheight)
      rw [hbefore, hb]
      refine ⟨_, rfl, fun h t => ?_⟩
      rw [active_raiseTime, oldEnough_iff hutxo hdisabled, if_neg hseconds, hb, Int.shiftLeft_eq]
      refine and_congr_right fun _ => ?_
      unfold sequenceLockTimeGranularity
      omega
  · rw [if_pos hdisabled]
    refine ⟨lock, rfl, fun h t => (and_iff_left ?_).symm⟩
    intro _ _ hzero
    exact absurd hzero hdisabled

/-- **All inputs.** -/
theorem foldlM_lockInput (hne : node ≠ []) {txIns : List Wire.TxIn}
    (hknown : ∀ txIn ∈ txIns, InputKnown node view txIn) :
    ∃ lock', txIns.foldlM (lockInput node view) lock = .ok lock' ∧ ∀ h t : Nat,
      sequenceLockActive lock' h t = true ↔
        sequenceLockActive lock h t = true ∧ ∀ txIn ∈ txIns, OldEnough node view txIn h t := by
  induction txIns generalizing lock with
  | nil => exact ⟨lock, rfl, fun h t => by simp⟩
  | cons txIn txIns ih =>
    obtain ⟨lock₁, hlock₁, hactive₁⟩ :=
      @lockInput_spec node view lock txIn hne (hknown txIn (mem_cons_self ..))
    obtain ⟨lock₂, hlock₂, hactive₂⟩ :=
      @ih lock₁ (forall_mem_cons.1 hknown).2
    refine ⟨lock₂, ?_, fun h t => ?_⟩
    · rw [foldlM_cons, hlock₁]
      exact hlock₂
    · rw [hactive₂, hactive₁, forall_mem_cons, and_assoc]

theorem active_none (h t : Nat) : sequenceLockActive ⟨-1, -1⟩ h t = true := by
  rw [sequenceLockActive_iff]
  dsimp only
  omega

end Inputs

/-! ## All transactions -/

section Main

variable {node : VoteNode} {view : UtxoViewpoint} {tx : Wire.MsgTx}

theorem LoneReference.not_coinBase {tx : MsgTx} (h : LoneReference tx) :
    isCoinBaseTx tx = false := by
  obtain ⟨⟨stakebase, ticket, hinputs⟩, -⟩ := h
  unfold isCoinBaseTx
  rw [hinputs.txIn]

theorem isStakeBaseTx_of_not {tx : MsgTx} (hvote : checkSSGen tx ≠ .ok ()) :
    isStakeBaseTx tx = if checkSSGen tx = .error .panic then .error .panic else .ok false := by
  unfold isStakeBaseTx
  cases hcheck : checkSSGen tx with
  | ok _ => exact absurd hcheck hvote
  | error fault =>
    cases fault with
    | panic => rfl
    | err e => rfl

theorem checkSSGen_panics_iff {tx : MsgTx} : checkSSGen tx = .error .panic ↔ LoneReference tx := by
  refine ⟨fun hpanic => ?_, checkSSGen_panics⟩
  by_contra hlone
  have hsafe := checkSSGen_safely hlone
  rw [hpanic] at hsafe
  exact hsafe

/-- **Theorem.** For a transaction that is not a vote, there is a lock, and it lets the transaction
pass if and only if each of its inputs is old enough. For a lone reference there is no lock. -/
theorem relativeLocks_iff (hne : node ≠ []) (hversion : 2 ≤ tx.version)
    (hvote : checkSSGen tx.plain ≠ .ok ())
    (hknown : ∀ txIn ∈ spends tx, InputKnown node view txIn) :
    (∃ lock, calcSequenceLock node view tx true = .ok lock ∧ ∀ h t : Nat,
      sequenceLockActive lock h t = true ↔ ∀ txIn ∈ spends tx, OldEnough node view txIn h t) ↔
      ¬ LoneReference tx.plain := by
  unfold calcSequenceLock spends
  unfold spends at hknown
  dsimp only
  by_cases hcoinBase : isCoinBaseTx tx.plain = true
  · rw [if_pos (.inr hcoinBase), if_pos hcoinBase]
    refine iff_of_true ⟨_, rfl, fun h t => by simp [active_none]⟩ fun hlone => ?_
    rw [hlone.not_coinBase] at hcoinBase
    cases hcoinBase
  · rw [if_neg hcoinBase] at hknown ⊢
    rw [if_neg (by simp [hcoinBase, hversion]), isStakeBaseTx_of_not hvote]
    by_cases hlone : LoneReference tx.plain
    · rw [if_pos (checkSSGen_panics hlone)]
      refine iff_of_false ?_ (not_not_intro hlone)
      rintro ⟨lock, hlock, -⟩
      cases hlock
    · rw [if_neg (checkSSGen_panics_iff.not.2 hlone)]
      refine iff_of_true ?_ hlone
      obtain ⟨lock, hlock, hactive⟩ := @foldlM_lockInput node view ⟨-1, -1⟩ hne _ hknown
      refine ⟨lock, hlock, fun h t => ?_⟩
      rw [hactive, and_iff_right (active_none h t)]

end Main

/-! Two inputs with locks: one of five blocks, and one of three units of time. -/

namespace TwoLocks

/-- The first output is in the block at height three, the second one is in the mempool. -/
def view : UtxoViewpoint :=
  (newUtxoViewpoint.setEntry (Hash.ofNat 1) (newUtxoEntry 1 3 0 false false .regular)).setEntry
    (Hash.ofNat 2) (newUtxoEntry 1 unminedHeight 0 false false .regular)

def input (hash : Hash) (sequence : UInt32) : Wire.TxIn :=
  { (default : Wire.TxIn) with previousOutPoint := ⟨hash, 0, 0⟩, sequence }

def tx : Wire.MsgTx :=
  { (default : Wire.MsgTx) with
    version := 2
    txIn := [input (Hash.ofNat 1) 5, input (Hash.ofNat 2) (sequenceLockTimeIsSeconds ||| 3)] }

/-- A vote without vote bits, as it is sent. -/
def sentVote : Wire.MsgTx :=
  { (default : Wire.MsgTx) with
    version := 2
    txIn := [⟨⟨default, 0xffffffff, 0⟩, 0xffffffff, 0, 0, 0xffffffff, []⟩,
      ⟨⟨Hash.ofNat 1, 0, 1⟩, 0xffffffff, 0, 0, 0, []⟩]
    txOut := [⟨0, 0, [0x6a, 0x24] ++ List.replicate 36 0⟩] }

end TwoLocks

open TwoLocks in
/-- The transaction waits for both inputs. -/
theorem relativeLocks_twoLocks : checkSSGen tx.plain ≠ .ok () ∧
    (∀ txIn ∈ spends tx, InputKnown backAndForth view txIn) ∧
    ∃ lock, calcSequenceLock backAndForth view tx true = .ok lock ∧ ∀ h t : Nat,
      sequenceLockActive lock h t = true ↔
        ∀ txIn ∈ spends tx, OldEnough backAndForth view txIn h t := by
  have hvote : checkSSGen tx.plain ≠ .ok () := by decide +kernel
  have hknown : ∀ txIn ∈ spends tx, InputKnown backAndForth view txIn := by
    have hspends : spends tx =
      [input (Hash.ofNat 1) 5, input (Hash.ofNat 2) (sequenceLockTimeIsSeconds ||| 3)] := rfl
    intro txIn hmem _
    rw [hspends] at hmem
    rcases mem_cons.1 hmem with rfl | hmem
    · exact ⟨_, rfl, .inr (by decide)⟩
    · rw [mem_singleton.1 hmem]
      exact ⟨_, rfl, .inl rfl⟩
  refine ⟨hvote, hknown, (relativeLocks_iff (by decide) (by decide) hvote hknown).2 ?_⟩
  rw [← checkSSGen_panics_iff]
  decide +kernel

open TwoLocks in
/-- For a vote without vote bits there is no lock. -/
theorem loneVote_no_lock : 2 ≤ sentVote.version ∧ checkSSGen sentVote.plain ≠ .ok () ∧
    (∀ txIn ∈ spends sentVote, InputKnown backAndForth view txIn) ∧
    calcSequenceLock backAndForth view sentVote true = .error .panic := by
  have hpanic : checkSSGen sentVote.plain = .error .panic := by decide +kernel
  have hvote : checkSSGen sentVote.plain ≠ .ok () := by decide +kernel
  refine ⟨by decide, hvote, ?_, ?_⟩
  · intro txIn hmem henabled
    have hdisabled : ∀ txIn ∈ spends sentVote, txIn.sequence &&& sequenceLockTimeDisabled ≠ 0 := by
      decide
    exact absurd henabled (hdisabled txIn hmem)
  · unfold calcSequenceLock
    dsimp only
    rw [if_neg (by decide), isStakeBaseTx_of_not hvote, if_pos hpanic]
    rfl

end Fnod
