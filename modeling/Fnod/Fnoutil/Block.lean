import Fnod.Wire.BlockCodec
import Fnod.Wire.MsgTx

/-!
# `fnoutil/block.go`: a block and its caches

A `Block` wraps a message and keeps what it was asked for: the bytes of the message, and the wrapped
transactions of each tree, one by one or all at once.

**`accessor_iff`**: after any calls on a block from any constructor, an accessor returns what is
computed from the message itself, except that `BlockHeaderBytes` returns all bytes of the block once
they are kept, that an index equal to the number of transactions panics, and that bytes which came
with the block are returned and searched as they are.

What is kept is right (`Kept`), and every call leaves it so.
-/

namespace Fnod.Fnoutil

open List Wire

variable [Blake256]

structure Tx where
  hash : Hash
  msgTx : Wire.MsgTx
  txTree : Int
  txIndex : Int
deriving DecidableEq

/-- `NewTx`, with `SetIndex` and `SetTree`. -/
def newTx (tree : Int) (i : Nat) (msgTx : Wire.MsgTx) : Tx := ⟨msgTx.txHash, msgTx, tree, i⟩

/-- The wrapped transactions of a tree, and whether all of them are there. -/
structure TxCache where
  txns : List (Option Tx)
  generated : Bool

structure Block where
  msgBlock : MsgBlock
  serializedBlock : List UInt8
  txCache : TxCache
  sTxCache : TxCache

/-- What an accessor returns. -/
inductive Result
  | bytes (b : List UInt8)
  | tx (tx : Tx)
  | txs (txs : List (Option Tx))
  | hash (h : Hash)
  | txLoc (locs sLocs : List TxLoc)
  | error
  | outOfRangeError
  | panics
deriving DecidableEq

/-! ## The transactions of a tree -/

section Tree

variable (tree : Int) (msgs : List Wire.MsgTx)

variable (c : TxCache)

/-- The slice is made when it is first needed. -/
def TxCache.alloc : TxCache :=
  if c.txns.length = 0 then { c with txns := List.replicate msgs.length none } else c

/-- `Tx` and `STx`. -/
def getTx (txNum : Int) : Result × TxCache :=
  if txNum < 0 ∨ (msgs.length : Int) < txNum then (.outOfRangeError, c)
  else
    let c := c.alloc msgs
    match c.txns[txNum.toNat]?, msgs[txNum.toNat]? with
    | some (some tx), _ => (.tx tx, c)
    | some none, some msgTx =>
      let tx := newTx tree txNum.toNat msgTx
      (.tx tx, { c with txns := c.txns.set txNum.toNat (some tx) })
    | _, _ => (.panics, c)

/-- `Transactions` and `STransactions`. -/
def getTxs : Result × TxCache :=
  if c.generated then (.txs c.txns, c)
  else
    let c := c.alloc msgs
    let txns := c.txns.mapIdx fun i tx => tx.or (msgs[i]?.map (newTx tree i))
    (.txs txns, ⟨txns, true⟩)

/-- The transaction at an index, from the message. -/
def directTx (txNum : Int) : Result :=
  match if txNum < 0 then none else msgs[txNum.toNat]? with
  | none => .outOfRangeError
  | some msgTx => .tx (newTx tree txNum.toNat msgTx)

/-- What is kept of a tree is what is computed from the message. -/
structure Kept : Prop where
  length : c.txns = [] ∨ c.txns.length = msgs.length
  tx : ∀ i tx, c.txns[i]? = some (some tx) → msgs[i]?.map (newTx tree i) = some tx
  all : c.generated = true → c.txns = msgs.mapIdx fun i msgTx => some (newTx tree i msgTx)

variable {tree msgs} {c : TxCache}

theorem Kept.alloc (h : Kept tree msgs c) :
    (c.alloc msgs).txns.length = msgs.length ∧ Kept tree msgs (c.alloc msgs) := by
  unfold TxCache.alloc
  split_ifs with hempty
  · refine ⟨length_replicate, .inr length_replicate, ?_, fun hall => ?_⟩
    · simp [getElem?_replicate]
    · have hnil := h.all hall
      rw [length_eq_zero_iff.1 hempty] at hnil
      simp [mapIdx_eq_nil_iff.1 hnil.symm]
  · exact ⟨h.length.resolve_left fun hnil => hempty (by simp [hnil]), h⟩

theorem getTx_spec (h : Kept tree msgs c) (txNum : Int) :
    Kept tree msgs (getTx tree msgs c txNum).2 ∧ (getTx tree msgs c txNum).1 =
      if txNum = msgs.length then .panics else directTx tree msgs txNum := by
  unfold getTx directTx
  split_ifs with hrange hlen hneg hlen hneg
  · omega
  · exact ⟨h, rfl⟩
  · have hnone : msgs[txNum.toNat]? = none := getElem?_eq_none (by omega)
    rw [hnone]
    exact ⟨h, rfl⟩
  · obtain ⟨hlength, halloc⟩ := h.alloc
    have hnone : (c.alloc msgs).txns[txNum.toNat]? = none := getElem?_eq_none (by omega)
    dsimp only
    rw [hnone]
    exact ⟨halloc, rfl⟩
  · omega
  · obtain ⟨hlength, halloc⟩ := h.alloc
    have hi : txNum.toNat < msgs.length := by omega
    have hi' : txNum.toNat < (c.alloc msgs).txns.length := by omega
    dsimp only
    rw [List.getElem?_eq_getElem hi, List.getElem?_eq_getElem hi']
    cases hcell : (c.alloc msgs).txns[txNum.toNat] with
    | some tx =>
      have htx := halloc.tx _ tx (by rw [List.getElem?_eq_getElem hi', hcell])
      rw [List.getElem?_eq_getElem hi] at htx
      cases htx
      exact ⟨halloc, rfl⟩
    | none =>
      refine ⟨⟨.inr (by simpa using hlength), fun i tx htx => ?_, fun hall => ?_⟩, rfl⟩
      · rw [getElem?_set] at htx
        split_ifs at htx with he
        · cases htx
          rw [← he, List.getElem?_eq_getElem hi]
          rfl
        · exact halloc.tx i tx htx
      · simp [halloc.all hall] at hcell

theorem getTxs_spec (h : Kept tree msgs c) :
    Kept tree msgs (getTxs tree msgs c).2 ∧ (getTxs tree msgs c).1 =
      .txs (msgs.mapIdx fun i msgTx => some (newTx tree i msgTx)) := by
  unfold getTxs
  split_ifs with hall
  · exact ⟨h, by rw [h.all hall]⟩
  · obtain ⟨hlength, halloc⟩ := h.alloc
    have htxns : ((c.alloc msgs).txns.mapIdx fun i tx => tx.or (msgs[i]?.map (newTx tree i))) =
        msgs.mapIdx fun i msgTx => some (newTx tree i msgTx) := by
      refine ext_getElem (by simpa using hlength) fun i h₁ h₂ => ?_
      have hi : i < msgs.length := by simpa using h₂
      rw [getElem_mapIdx, getElem_mapIdx, List.getElem?_eq_getElem hi, Option.map_some]
      cases hcell : (c.alloc msgs).txns[i] with
      | none => rfl
      | some tx =>
        have htx := halloc.tx i tx (by rw [List.getElem?_eq_getElem (hlength ▸ hi), hcell])
        rw [List.getElem?_eq_getElem hi] at htx
        exact htx.symm
    dsimp only
    rw [htxns]
    refine ⟨⟨.inr (by simp), fun i tx htx => ?_, fun _ => rfl⟩, rfl⟩
    simpa using htx

end Tree

/-! ## The accessors -/

/-- The accessors of a block, with the arguments of a call. -/
inductive Call
  | bytes
  | blockHeaderBytes
  | tx (txNum : Int)
  | sTx (txNum : Int)
  | transactions
  | sTransactions
  | txHash (txNum : Int)
  | sTxHash (txNum : Int)
  | txLoc

/-- The locations that are found in the bytes of a block. -/
def locate (rawMsg : List UInt8) : Result :=
  match (default : MsgBlock).deserializeTxLoc rawMsg with
  | none => .error
  | some ((_, txLocs, sTxLocs), _) => .txLoc txLocs sTxLocs

/-- The hash of a transaction that was found. -/
def Result.txHash : Result → Result
  | tx t => hash t.hash
  | r => r

namespace Block

variable (b : Block)

def bytes : Option (List UInt8) × Block :=
  if b.serializedBlock.length ≠ 0 then (some b.serializedBlock, b)
  else
    match b.msgBlock.bytes with
    | none => (none, b)
    | some serializedBlock => (some serializedBlock, { b with serializedBlock })

def blockHeaderBytes : List UInt8 :=
  if b.serializedBlock.length ≠ 0 then b.serializedBlock else writeBlockHeader b.msgBlock.header

def tx (txNum : Int) : Result × Block :=
  let (r, c) := getTx txTreeRegular b.msgBlock.transactions b.txCache txNum
  (r, { b with txCache := c })

def sTx (txNum : Int) : Result × Block :=
  let (r, c) := getTx txTreeStake b.msgBlock.sTransactions b.sTxCache txNum
  (r, { b with sTxCache := c })

def transactions : Result × Block :=
  let (r, c) := getTxs txTreeRegular b.msgBlock.transactions b.txCache
  (r, { b with txCache := c })

def sTransactions : Result × Block :=
  let (r, c) := getTxs txTreeStake b.msgBlock.sTransactions b.sTxCache
  (r, { b with sTxCache := c })

def txLoc : Result × Block :=
  (b.bytes.1.elim .error locate, b.bytes.2)

def call : Call → Result × Block
  | .bytes => (b.bytes.1.elim .error .bytes, b.bytes.2)
  | .blockHeaderBytes => (.bytes b.blockHeaderBytes, b)
  | .tx txNum => b.tx txNum
  | .sTx txNum => b.sTx txNum
  | .transactions => b.transactions
  | .sTransactions => b.sTransactions
  | .txHash txNum => ((b.tx txNum).1.txHash, (b.tx txNum).2)
  | .sTxHash txNum => ((b.sTx txNum).1.txHash, (b.sTx txNum).2)
  | .txLoc => b.txLoc

end Block

variable (msg : MsgBlock)

/-- What the message itself gives. -/
def direct : Call → Result
  | .bytes => msg.bytes.elim .error .bytes
  | .blockHeaderBytes => .bytes (writeBlockHeader msg.header)
  | .tx txNum => directTx txTreeRegular msg.transactions txNum
  | .sTx txNum => directTx txTreeStake msg.sTransactions txNum
  | .transactions => .txs (msg.transactions.mapIdx fun i tx => some (newTx txTreeRegular i tx))
  | .sTransactions => .txs (msg.sTransactions.mapIdx fun i tx => some (newTx txTreeStake i tx))
  | .txHash txNum => (directTx txTreeRegular msg.transactions txNum).txHash
  | .sTxHash txNum => (directTx txTreeStake msg.sTransactions txNum).txHash
  | .txLoc => msg.bytes.elim .error locate

/-- The calls that return what the message gives, where `raw` is what is kept of its bytes. -/
def Transparent (raw : List UInt8) : Call → Prop
  | .bytes => raw = [] ∨ msg.bytes = some raw
  | .blockHeaderBytes => raw = [] ∨ raw = writeBlockHeader msg.header
  | .tx txNum | .txHash txNum => txNum ≠ msg.transactions.length
  | .sTx txNum | .sTxHash txNum => txNum ≠ msg.sTransactions.length
  | .transactions | .sTransactions => True
  | .txLoc => raw = [] ∨ locate raw = msg.bytes.elim .error locate

/-! ## The constructors -/

def newBlock : Block := ⟨msg, [], ⟨[], false⟩, ⟨[], false⟩⟩

/-- `NewBlockDeepCopyCoinbase`; the copy has the same fields. It panics without a coinbase. -/
def newBlockDeepCopyCoinbase : Option Block :=
  if msg.transactions = [] then none else some (newBlock msg)

/-- `NewBlockDeepCopy`; the copies have the same fields. -/
def newBlockDeepCopy : Block := newBlock msg

def newBlockFromReader (r : List UInt8) : Option Block :=
  ((default : MsgBlock).deserialize r).map fun (msg, _) => newBlock msg

def newBlockFromBlockAndBytes (serializedBlock : List UInt8) : Block :=
  { newBlock msg with serializedBlock }

def newBlockFromBytes (serializedBlock : List UInt8) : Option Block :=
  (newBlockFromReader serializedBlock).map ({ · with serializedBlock })

/-- Blocks that were made with some bytes or none, and the calls since then. -/
inductive Reachable : List UInt8 → List Call → Block → Prop
  | newBlock (msg : MsgBlock) : Reachable [] [] (newBlock msg)
  | deepCopyCoinbase {msg : MsgBlock} {b : Block} :
      newBlockDeepCopyCoinbase msg = some b → Reachable [] [] b
  | deepCopy (msg : MsgBlock) : Reachable [] [] (newBlockDeepCopy msg)
  | fromReader {r : List UInt8} {b : Block} : newBlockFromReader r = some b → Reachable [] [] b
  | fromBlockAndBytes (msg : MsgBlock) (raw : List UInt8) :
      Reachable raw [] (newBlockFromBlockAndBytes msg raw)
  | fromBytes {raw : List UInt8} {b : Block} : newBlockFromBytes raw = some b → Reachable raw [] b
  | call {raw : List UInt8} {calls : List Call} {b : Block} (c : Call) :
      Reachable raw calls b → Reachable raw (c :: calls) (b.call c).2

/-- The calls that ask for the bytes of the block. -/
def Call.serializes : Call → Bool
  | bytes | txLoc => true
  | _ => false

/-- The bytes that a block keeps after some calls: those that came with it, or those of the message
once they were asked for. -/
def keptBytes (raw : List UInt8) (calls : List Call) : List UInt8 :=
  if raw = [] ∧ calls.any Call.serializes then msg.bytes.getD [] else raw

/-! ## Calls in any order -/

/-- What a block keeps is right; `raw` came with it. -/
structure Right (raw : List UInt8) (calls : List Call) (b : Block) : Prop where
  bytes : b.serializedBlock = keptBytes b.msgBlock raw calls
  tx : Kept txTreeRegular b.msgBlock.transactions b.txCache
  sTx : Kept txTreeStake b.msgBlock.sTransactions b.sTxCache

section Calls

variable {raw : List UInt8} {calls : List Call} {b : Block}

theorem right_newBlock (msg : MsgBlock) (raw : List UInt8) :
    Right raw [] (newBlockFromBlockAndBytes msg raw) :=
  ⟨by simp [keptBytes, newBlockFromBlockAndBytes], ⟨.inl rfl, nofun, nofun⟩,
    ⟨.inl rfl, nofun, nofun⟩⟩

omit [Blake256] in
theorem bytes_spec (b : Block) :
    b.bytes.1 = (if b.serializedBlock = [] then b.msgBlock.bytes else some b.serializedBlock) ∧
      b.bytes.2 = { b with serializedBlock := b.bytes.1.getD [] } := by
  unfold Block.bytes
  by_cases hnil : b.serializedBlock = []
  · rw [if_neg (by simp [hnil]), if_pos hnil]
    cases b.msgBlock.bytes with
    | none => exact ⟨rfl, by rw [Option.getD_none, ← hnil]⟩
    | some serializedBlock => exact ⟨rfl, rfl⟩
  · rw [if_pos (by simpa using hnil), if_neg hnil]
    exact ⟨rfl, rfl⟩

theorem Right.bytes_call (h : Right raw calls b) {c : Call} (hc : c.serializes = true) :
    Right raw (c :: calls) b.bytes.2 := by
  obtain ⟨hfst, hsnd⟩ := bytes_spec b
  rw [hsnd]
  refine ⟨?_, h.tx, h.sTx⟩
  have hkept := h.bytes
  simp only [keptBytes, any_cons, hc, Bool.true_or, and_true, hfst] at hkept ⊢
  -- Bytes that came with the block stay; the others are those of the message.
  split_ifs at hkept ⊢ <;> simp_all

/-- **One call** keeps the block right. -/
theorem Right.call (h : Right raw calls b) (c : Call) : Right raw (c :: calls) (b.call c).2 := by
  cases c with
  | bytes | txLoc => exact h.bytes_call rfl
  | blockHeaderBytes => exact ⟨h.bytes, h.tx, h.sTx⟩
  | tx txNum | txHash txNum => exact ⟨h.bytes, (getTx_spec h.tx txNum).1, h.sTx⟩
  | sTx txNum | sTxHash txNum => exact ⟨h.bytes, h.tx, (getTx_spec h.sTx txNum).1⟩
  | transactions => exact ⟨h.bytes, (getTxs_spec h.tx).1, h.sTx⟩
  | sTransactions => exact ⟨h.bytes, h.tx, (getTxs_spec h.sTx).1⟩

theorem Reachable.right (h : Reachable raw calls b) : Right raw calls b := by
  induction h with
  | newBlock msg | deepCopy msg => exact right_newBlock msg []
  | fromBlockAndBytes msg raw => exact right_newBlock msg raw
  | deepCopyCoinbase h =>
    unfold newBlockDeepCopyCoinbase at h
    split_ifs at h
    cases h
    exact right_newBlock _ []
  | fromReader h =>
    obtain ⟨⟨msg, _⟩, -, rfl⟩ := Option.map_eq_some_iff.1 h
    exact right_newBlock msg []
  | fromBytes h =>
    obtain ⟨_, hread, rfl⟩ := Option.map_eq_some_iff.1 h
    obtain ⟨⟨msg, _⟩, -, rfl⟩ := Option.map_eq_some_iff.1 hread
    exact right_newBlock msg _
  | call c _ ih => exact ih.call c

/-- An index is transparent unless it is the number of transactions. -/
theorem tx_iff {tree : Int} {msgs : List Wire.MsgTx} {c : TxCache} (h : Kept tree msgs c)
    (txNum : Int) : ((getTx tree msgs c txNum).1 = directTx tree msgs txNum ↔ txNum ≠ msgs.length) ∧
      ((getTx tree msgs c txNum).1.txHash = (directTx tree msgs txNum).txHash ↔
        txNum ≠ msgs.length) := by
  rw [(getTx_spec h txNum).2]
  split_ifs with hlen
  · have hnone : msgs[txNum.toNat]? = none := getElem?_eq_none (by omega)
    simp [directTx, hlen, Result.txHash]
  · simp [hlen]

/-- **Accessors are transparent** where `Transparent` says so of the bytes that are kept by then,
and nowhere else. -/
theorem accessor_iff (h : Reachable raw calls b) (c : Call) :
    b.serializedBlock = keptBytes b.msgBlock raw calls ∧ ((b.call c).1 = direct b.msgBlock c ↔
      Transparent b.msgBlock (keptBytes b.msgBlock raw calls) c) := by
  have hright := h.right
  have hbytes (f : List UInt8 → Result) :
      b.bytes.1.elim .error f = b.msgBlock.bytes.elim .error f ↔
        b.serializedBlock = [] ∨ f b.serializedBlock = b.msgBlock.bytes.elim .error f := by
    rw [(bytes_spec b).1]
    split_ifs with hnil <;> simp [hnil]
  refine ⟨hright.bytes, ?_⟩
  rw [← hright.bytes]
  cases c with
  | bytes =>
    refine (hbytes .bytes).trans (or_congr_right ?_)
    cases b.msgBlock.bytes <;> simp [eq_comm]
  | txLoc => exact hbytes locate
  | blockHeaderBytes =>
    change Result.bytes b.blockHeaderBytes = .bytes _ ↔ _
    unfold Block.blockHeaderBytes Transparent
    by_cases hnil : b.serializedBlock = [] <;> simp [hnil]
  | tx txNum => exact (tx_iff hright.tx txNum).1
  | txHash txNum => exact (tx_iff hright.tx txNum).2
  | sTx txNum => exact (tx_iff hright.sTx txNum).1
  | sTxHash txNum => exact (tx_iff hright.sTx txNum).2
  | transactions => exact iff_of_true (getTxs_spec hright.tx).2 trivial
  | sTransactions => exact iff_of_true (getTxs_spec hright.sTx).2 trivial

end Calls

omit [Blake256] in
/-- What `Tx` kept is what `Transactions` returns. -/
theorem accessor_iff_sample : ∃ _ : Blake256,
    (((newBlock MsgBlock.sample).call (.tx 0)).2.call .transactions).1 =
      direct MsgBlock.sample .transactions := by
  let _ : Blake256 := ⟨fun _ => default⟩
  exact ⟨_, (accessor_iff (.call (.tx 0) (.newBlock _)) .transactions).2.2 trivial⟩

omit [Blake256] in
/-- In a block without transactions the index `0` panics, and once the bytes of the block are kept
they are returned for its header. -/
theorem empty_block_panics : ∃ _ : Blake256, ∃ b, Reachable [] [.bytes] b ∧
    (b.call (.tx 0)).1 = .panics ∧ direct b.msgBlock (.tx 0) = .outOfRangeError ∧
    b.blockHeaderBytes.length = 182 ∧ (writeBlockHeader b.msgBlock.header).length = 180 := by
  let hash : Blake256 := ⟨fun _ => default⟩
  refine ⟨hash, _, .call .bytes (.newBlock default), rfl, rfl, ?_, ?_⟩
  · decide +kernel
  · decide +kernel

end Fnod.Fnoutil
