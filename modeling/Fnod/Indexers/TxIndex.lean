import Fnod.Lib.OrdMap
import Fnod.Wire.BlockCodec

/-!
# Package `indexers`: the transaction index

The index tells for the hash of a transaction where its bytes lie: in which block, which has a
number of its own here, and where in the bytes of the block. There is one entry for a hash. A block
that is connected writes its entries over those that are there, and when it is disconnected its
entries are removed; what they replaced is not put back.

The genesis block is not indexed. Errors of the database are left out.
-/

namespace Fnod

open Codec

/-- The transactions of a block, those of the stake tree last. -/
def Wire.MsgBlock.txs (block : Wire.MsgBlock) : List Wire.MsgTx :=
  block.transactions ++ block.sTransactions

/-- The three buckets of the index and the number of the last block, and the tip that the index
manager keeps for the index. -/
structure TxIndex where
  /-- `txIndexKey`: transaction hash to block number, offset, length and place in its tree. -/
  txByHash : OrdMap Hash (List UInt8)
  /-- `idByHashIndexBucketName`. -/
  idByHash : OrdMap Hash (List UInt8)
  /-- `hashByIDIndexBucketName`. -/
  hashByID : OrdMap (List UInt8) (List UInt8)
  curBlockID : UInt32
  tipHash : Hash
  tipHeight : Int32
deriving DecidableEq

/-- `TxIndexEntry`, with the fields of its `BlockRegion`. -/
structure TxIndexEntry where
  hash : Hash
  offset : UInt32
  len : UInt32
  blockIndex : UInt32
deriving DecidableEq

def txEntrySize : Nat := 4 + 4 + 4 + 4

def putTxIndexEntry (blockID : UInt32) (txLoc : Wire.TxLoc) (blockIndex : UInt32) : List UInt8 :=
  putUint32 blockID ++ (putUint32 (UInt32.ofNat txLoc.txStart) ++
    (putUint32 (UInt32.ofNat txLoc.txLen) ++ putUint32 blockIndex))

/-- `Block.TxLoc`: the block is encoded and read again. -/
def Wire.MsgBlock.txLoc (block : Wire.MsgBlock) : Option (List Wire.TxLoc × List Wire.TxLoc) := do
  let raw ← block.bytes
  let ((_, txLocs, sTxLocs), _) ← (default : Wire.MsgBlock).deserializeTxLoc raw
  some (txLocs, sTxLocs)

/-- What `copy` makes of a hash of zeros. -/
def copyHash (b : List UInt8) : Hash :=
  ⟨(b ++ List.replicate hashSize 0).take hashSize, by simp⟩

theorem copyHash_bytes (h : Hash) : copyHash h.bytes = h :=
  Hash.ext_bytes (by simp [copyHash, ← h.size])

namespace TxIndex

/-- The index as the manager creates it. -/
def create (genesisHash : Hash) : TxIndex where
  txByHash := .empty
  idByHash := .empty
  hashByID := .empty
  curBlockID := 0
  tipHash := genesisHash
  tipHeight := 0

variable [Blake256]

/-- The loop of `dbAddTxIndexEntries`. There is a location for each transaction. -/
def addEntries (blockID : UInt32) :
    Nat → List Wire.MsgTx → List Wire.TxLoc → OrdMap Hash (List UInt8) →
      Option (OrdMap Hash (List UInt8))
  | _, [], _, m => some m
  | _, _ :: _, [], _ => none
  | i, tx :: txns, loc :: txLocs, m =>
    addEntries blockID (i + 1) txns txLocs
      (m.insert tx.txHash (putTxIndexEntry blockID loc (UInt32.ofNat i)))

variable (idx : TxIndex) (block : Wire.MsgBlock)

def dbAddTxIndexEntries (blockID : UInt32) : Option TxIndex := do
  let (txLocs, stakeTxLocs) ← block.txLoc
  let m ← addEntries blockID 0 block.transactions txLocs idx.txByHash
  let m ← addEntries blockID 0 block.sTransactions stakeTxLocs m
  some { idx with txByHash := m }

/-- `dbRemoveTxIndexEntry`: there must be an entry. -/
def dbRemoveTxIndexEntry (m : OrdMap Hash (List UInt8)) (txHash : Hash) :
    Option (OrdMap Hash (List UInt8)) :=
  if ((m.get? txHash).getD []).length = 0 then none else some (m.erase txHash)

def dbRemoveTxIndexEntries : Option TxIndex := do
  let m ← block.transactions.foldlM (fun m tx => dbRemoveTxIndexEntry m tx.txHash) idx.txByHash
  let m ← block.sTransactions.foldlM (fun m tx => dbRemoveTxIndexEntry m tx.txHash) m
  some { idx with txByHash := m }

def dbPutBlockIDIndexEntry (hash : Hash) (id : UInt32) : TxIndex :=
  { idx with
    idByHash := idx.idByHash.insert hash (putUint32 id)
    hashByID := idx.hashByID.insert (putUint32 id) hash.bytes }

def dbRemoveBlockIDIndexEntry (hash : Hash) : TxIndex :=
  match idx.idByHash.get? hash with
  | none => idx
  | some serializedID =>
    { idx with
      idByHash := idx.idByHash.erase hash
      hashByID := idx.hashByID.erase serializedID }

def connectBlock : Option TxIndex := do
  let newBlockID := idx.curBlockID + 1
  let idx ← idx.dbAddTxIndexEntries block newBlockID
  let idx := idx.dbPutBlockIDIndexEntry block.header.blockHash newBlockID
  some { idx with curBlockID := newBlockID }

def disconnectBlock : Option TxIndex := do
  let idx ← idx.dbRemoveTxIndexEntries block
  let idx := idx.dbRemoveBlockIDIndexEntry block.header.blockHash
  some { idx with curBlockID := idx.curBlockID - 1 }

/-- `dbIndexConnectBlock`: the block must extend the tip. -/
def dbIndexConnectBlock : Option TxIndex := do
  guard (idx.tipHash = block.header.prevBlock)
  let idx ← idx.connectBlock block
  some { idx with
    tipHash := block.header.blockHash
    tipHeight := Int32.ofNat block.header.height.toNat }

/-- `dbIndexDisconnectBlock`: the block must be the tip. -/
def dbIndexDisconnectBlock : Option TxIndex := do
  guard (idx.tipHash = block.header.blockHash)
  let idx ← idx.disconnectBlock block
  some { idx with
    tipHash := block.header.prevBlock
    tipHeight := Int32.ofInt (block.header.height.toNat - 1) }

def dbFetchBlockHashBySerializedID (serializedID : List UInt8) : Option Hash :=
  (idx.hashByID.get? serializedID).map copyHash

/-- `dbFetchTxIndexEntry`. The outer `none` is a corrupt entry, the inner one no entry. -/
def dbFetchTxIndexEntry (txHash : Hash) : Option (Option TxIndexEntry) :=
  let serializedData := (idx.txByHash.get? txHash).getD []
  if serializedData.length = 0 then some none
  else if serializedData.length < txEntrySize then none
  else do
    let hash ← idx.dbFetchBlockHashBySerializedID (serializedData.take 4)
    let word (i : Nat) : UInt32 := UInt32.ofNat (Bytes.getLE ((serializedData.drop i).take 4))
    some (some ⟨hash, word 4, word 8, word 12⟩)

end TxIndex

end Fnod
