import Fnod.Indexers.TxIndex

/-!
# The transaction index along a chain

What the index holds is a function of the main chain, as long as no block is disconnected that
shares a transaction with a block below it (`Indexes`): each hash has the entry of the latest block
that contains it, and the blocks are numbered from one on.

**Theorem (`txIndex_run`).** Along every sequence of connections and disconnections whose
disconnected blocks share no transaction with the blocks below them, the index finds each
transaction of the main chain in the latest block that contains it. Disconnecting the tip restores
what was there before it if and only if the tip shares no transaction with the blocks below it and
has none twice.
-/

namespace Fnod

open Codec List OrdMap Wire.MsgBlock

namespace Wire

/-! ## Locations in the bytes of a block -/

variable {block : MsgBlock} {tx recv : MsgTx} {raw : List UInt8} {txs : List MsgTx}
  {locs : List TxLoc}

/-- What a form does not carry is not written either. -/
theorem MsgTx.btcEncode_carried (hfits : tx.Fits) (recv : MsgTx) :
    (tx.carried recv).btcEncode = tx.btcEncode := by
  obtain ⟨x, hx, hread⟩ := MsgTx.reads_btcDecode hfits recv
  rw [((MsgTx.accepts_btcDecode recv).all hread.all).1, hx]

theorem MsgTx.serializeSize_carried (hfits : tx.Fits) (recv : MsgTx) :
    (tx.carried recv).serializeSize = tx.serializeSize := by
  obtain ⟨x, hx, -⟩ := MsgTx.reads_btcDecode hfits recv
  rw [MsgTx.length_btcEncode ((MsgTx.btcEncode_carried hfits recv).trans hx),
    MsgTx.length_btcEncode hx]

theorem MsgTx.serializeSize_pos {x : List UInt8} (h : tx.btcEncode = some x) :
    0 < tx.serializeSize := by
  obtain ⟨parts, -, hx⟩ := Option.bind_eq_some_iff.1 h
  rw [MsgTx.length_btcEncode h, ← Option.some.inj hx, length_append, putUint32, Bytes.length_putLE]
  omega

theorem MsgBlock.Delimits.of_carried
    (hfits : ∀ tx ∈ txs, tx.Fits) (h : Delimits raw (txs.map (·.carried default)) locs) :
    Delimits raw txs locs where
  slices := by
    rw [h.slices, map_map]
    exact map_congr_left fun tx htx => MsgTx.btcEncode_carried (hfits tx htx) default
  sizes := by
    rw [h.sizes, map_map]
    exact map_congr_left fun tx htx => MsgTx.serializeSize_carried (hfits tx htx) default
  next := h.next

theorem MsgBlock.txLoc_spec (hfits : block.Fits protocolVersion) :
    ∃ raw locs sLocs, block.btcEncode = some raw ∧ block.txLoc = some (locs, sLocs) ∧
      Delimits raw block.transactions locs ∧ Delimits raw block.sTransactions sLocs := by
  obtain ⟨raw, hraw, hread⟩ := MsgBlock.reads_btcDecode hfits default
  obtain ⟨locs, sLocs, hlocs⟩ := deserializeTxLoc_of_btcDecode hread.all
  obtain ⟨hdel, hdel', -⟩ := deserializeTxLoc_spec hlocs
  refine ⟨raw, locs, sLocs, hraw, ?_, .of_carried hfits.txns hdel, .of_carried hfits.stxns hdel'⟩
  rw [txLoc, MsgBlock.bytes, hraw]
  simp only [Option.bind_eq_bind, Option.bind_some, hlocs]

theorem MsgBlock.Delimits.length (h : Delimits raw txs locs) : locs.length = txs.length := by
  have hlen := congrArg List.length h.sizes
  rwa [length_map, length_map] at hlen

end Wire

namespace TxIndex

variable [Blake256] {n : Nat} {newer older : List Wire.MsgBlock} {loc : Wire.TxLoc} {k : Hash}

/-! ## The entries of a block -/

/-- The entries of one tree. -/
def treeEntries (blockID : UInt32) (txns : List Wire.MsgTx) (locs : List Wire.TxLoc) :
    List (Hash × List UInt8) :=
  (txns.zip locs).zipIdx.map fun a =>
    (a.1.1.txHash, putTxIndexEntry blockID a.1.2 (UInt32.ofNat a.2))

/-- The entries of a block, in the order in which they are written. -/
def blockEntries (blockID : UInt32) (block : Wire.MsgBlock) : List (Hash × List UInt8) :=
  match block.txLoc with
  | none => []
  | some (locs, sLocs) =>
    treeEntries blockID block.transactions locs ++ treeEntries blockID block.sTransactions sLocs

def txHashes (block : Wire.MsgBlock) : List Hash := block.txs.map Wire.MsgTx.txHash

variable {blockID : UInt32} {txns : List Wire.MsgTx} {locs : List Wire.TxLoc} {h : Hash}
  {data : List UInt8}

theorem addEntries_eq (hlen : locs.length = txns.length) (m : OrdMap Hash (List UInt8)) :
    addEntries blockID 0 txns locs m =
      some ((treeEntries blockID txns locs).foldl (fun m a => m.insert a.1 a.2) m) := by
  unfold treeEntries
  generalize 0 = i
  induction txns generalizing locs m i with
  | nil => rfl
  | cons tx txns ih =>
    obtain ⟨loc, locs, rfl⟩ := exists_cons_of_length_eq_add_one hlen
    rw [addEntries, ih (Nat.succ.inj hlen)]
    rfl

theorem keys_treeEntries (hlen : locs.length = txns.length) :
    (treeEntries blockID txns locs).map Prod.fst = txns.map Wire.MsgTx.txHash := by
  have hzip : (txns.zip locs).map Prod.fst = txns := map_fst_zip (le_of_eq hlen.symm)
  rw [treeEntries, map_map]
  calc ((txns.zip locs).zipIdx.map fun a => a.1.1.txHash)
      = (((txns.zip locs).zipIdx.map Prod.fst).map Prod.fst).map Wire.MsgTx.txHash := by
        rw [map_map, map_map]; rfl
    _ = txns.map Wire.MsgTx.txHash := by rw [zipIdx_map_fst, hzip]

variable {block : Wire.MsgBlock}

theorem keys_blockEntries (hfits : block.Fits Wire.protocolVersion) (blockID : UInt32) :
    (blockEntries blockID block).map Prod.fst = txHashes block := by
  obtain ⟨raw, locs, sLocs, -, hlocs, hdel, hdel'⟩ := txLoc_spec hfits
  rw [blockEntries, hlocs]
  simp only [map_append, keys_treeEntries hdel.length, keys_treeEntries hdel'.length, txHashes,
    txs]

theorem dbAddTxIndexEntries_eq (hfits : block.Fits Wire.protocolVersion) (idx : TxIndex)
    (blockID : UInt32) : idx.dbAddTxIndexEntries block blockID =
      some { idx with
        txByHash :=
          (blockEntries blockID block).foldl (fun m a => m.insert a.1 a.2) idx.txByHash } := by
  obtain ⟨raw, locs, sLocs, -, hlocs, hdel, hdel'⟩ := txLoc_spec hfits
  simp only [dbAddTxIndexEntries, hlocs, blockEntries, addEntries_eq hdel.length,
    addEntries_eq hdel'.length, foldl_append, Option.bind_eq_bind, Option.bind_some]

omit [Blake256] in
/-- The entries are removed one by one: each must be there when its turn comes. -/
theorem foldlM_remove {hashes : List Hash} {m m' : OrdMap Hash (List UInt8)} :
    hashes.foldlM dbRemoveTxIndexEntry m = some m' ↔
      hashes.Nodup ∧ (∀ h ∈ hashes, ((m.get? h).getD []).length ≠ 0) ∧
        hashes.foldl OrdMap.erase m = m' := by
  induction hashes generalizing m with
  | nil => simp [foldlM_nil]
  | cons h hashes ih =>
    rw [foldlM_cons, dbRemoveTxIndexEntry]
    by_cases hlen : ((m.get? h).getD []).length = 0
    · rw [if_pos hlen]
      constructor
      · intro hnone
        cases hnone
      · rintro ⟨-, hall, -⟩
        exact absurd hlen (hall h mem_cons_self)
    · have hget : ∀ h', ((m.erase h).get? h').getD [] =
          if h' = h then [] else (m.get? h').getD [] := by
        intro h'
        rw [get?_erase]
        split_ifs <;> rfl
      rw [if_neg hlen, Option.bind_eq_bind, Option.bind_some, ih, nodup_cons, foldl_cons,
        forall_mem_cons]
      simp only [hget]
      constructor
      · rintro ⟨hnodup, hall, heq⟩
        have hnot : h ∉ hashes := fun hmem => hall h hmem (by rw [if_pos rfl]; rfl)
        refine ⟨⟨hnot, hnodup⟩, ⟨hlen, fun h' hh' => ?_⟩, heq⟩
        have := hall h' hh'
        rwa [if_neg (ne_of_mem_of_not_mem hh' hnot)] at this
      · rintro ⟨⟨hnot, hnodup⟩, ⟨-, hall⟩, heq⟩
        refine ⟨hnodup, fun h' hh' => ?_, heq⟩
        rw [if_neg (ne_of_mem_of_not_mem hh' hnot)]
        exact hall h' hh'

theorem dbRemoveTxIndexEntries_eq (idx : TxIndex) (block : Wire.MsgBlock) :
    idx.dbRemoveTxIndexEntries block =
      ((txHashes block).foldlM dbRemoveTxIndexEntry idx.txByHash).bind
        (fun m => some { idx with txByHash := m }) := by
  simp only [dbRemoveTxIndexEntries, txHashes, txs, map_append, foldlM_append,
    foldlM_map, Option.bind_eq_bind, Option.bind_assoc]

/-! ## What the index holds for a chain

A chain is the list of its blocks above the genesis block, the latest one first. -/

/-- The entry of the latest block that contains the transaction. -/
def entryOf : List Wire.MsgBlock → Hash → Option (List UInt8)
  | [], _ => none
  | block :: chain, h =>
    (lookupList h (blockEntries (UInt32.ofNat (chain.length + 1)) block).reverse).or
    (entryOf chain h)

def idOf : List Wire.MsgBlock → Hash → Option (List UInt8)
  | [], _ => none
  | block :: chain, h =>
    if h = block.header.blockHash then some (putUint32 (UInt32.ofNat (chain.length + 1)))
    else idOf chain h

/-- The block with a number. -/
def hashOf : List Wire.MsgBlock → List UInt8 → Option (List UInt8)
  | [], _ => none
  | block :: chain, key =>
    if key = putUint32 (UInt32.ofNat (chain.length + 1)) then some block.header.blockHash.bytes
    else hashOf chain key

def tipOf (genesisHash : Hash) : List Wire.MsgBlock → Hash
  | [] => genesisHash
  | block :: _ => block.header.blockHash

/-- The index is the one of the chain. -/
structure Indexes (genesisHash : Hash) (chain : List Wire.MsgBlock) (idx : TxIndex) : Prop where
  entries : ∀ h, idx.txByHash.get? h = entryOf chain h
  ids : ∀ h, idx.idByHash.get? h = idOf chain h
  hashes : ∀ key, idx.hashByID.get? key = hashOf chain key
  curBlockID : idx.curBlockID = UInt32.ofNat chain.length
  tipHash : idx.tipHash = tipOf genesisHash chain
  tipHeight : idx.tipHeight = Int32.ofNat chain.length

/-- What a block must be to be accepted on top of a chain, as far as the index depends on it: it
extends the tip and is not in the chain, and its size and numbers are within the limits. -/
structure Extends (genesisHash : Hash) (chain : List Wire.MsgBlock) (block : Wire.MsgBlock) :
    Prop where
  prevBlock : block.header.prevBlock = tipOf genesisHash chain
  height : block.header.height.toNat = chain.length + 1
  new : ∀ b ∈ chain, b.header.blockHash ≠ block.header.blockHash
  fits : block.Fits Wire.protocolVersion
  size : block.serializeSize ≤ Wire.maxBlockPayload.toNat

/-- Each block was accepted on top of those below it. -/
def ChainOf (genesisHash : Hash) : List Wire.MsgBlock → Prop
  | [] => True
  | block :: chain => Extends genesisHash chain block ∧ ChainOf genesisHash chain

/-- The block has no transaction twice, and none that a block of the chain has. -/
def Fresh (chain : List Wire.MsgBlock) (block : Wire.MsgBlock) : Prop :=
  (txHashes block).Nodup ∧ ∀ b ∈ chain, ∀ h ∈ txHashes block, h ∉ txHashes b

variable {genesisHash : Hash} {chain : List Wire.MsgBlock} {idx idx' : TxIndex}

theorem Indexes.unique (h : Indexes genesisHash chain idx) (h' : Indexes genesisHash chain idx') :
    idx = idx' := by
  have htx : idx.txByHash = idx'.txByHash := ext_get? fun k =>
    (h.entries k).trans (h'.entries k).symm
  have hid : idx.idByHash = idx'.idByHash := ext_get? fun k => (h.ids k).trans (h'.ids k).symm
  have hhash : idx.hashByID = idx'.hashByID := ext_get? fun k =>
    (h.hashes k).trans (h'.hashes k).symm
  have hcur := h.curBlockID.trans h'.curBlockID.symm
  have htip := h.tipHash.trans h'.tipHash.symm
  have hheight := h.tipHeight.trans h'.tipHeight.symm
  cases idx
  cases idx'
  simp only [TxIndex.mk.injEq]
  exact ⟨htx, hid, hhash, hcur, htip, hheight⟩

theorem indexes_create (genesisHash : Hash) : Indexes genesisHash [] (create genesisHash) :=
  ⟨fun _ => rfl, fun _ => rfl, fun _ => rfl, rfl, rfl, rfl⟩

/-- **A block is connected**: the index of the longer chain is there. -/
theorem Indexes.connect (h : Indexes genesisHash chain idx)
    (hext : Extends genesisHash chain block) :
    ∃ idx', idx.dbIndexConnectBlock block = some idx' ∧
      Indexes genesisHash (block :: chain) idx' := by
  have hid : idx.curBlockID + 1 = UInt32.ofNat (chain.length + 1) := by
    rw [h.curBlockID, UInt32.ofNat_add]
    rfl
  have hconnect : idx.dbIndexConnectBlock block = some
      { txByHash := (blockEntries (idx.curBlockID + 1) block).foldl
          (fun m a => m.insert a.1 a.2) idx.txByHash
        idByHash := idx.idByHash.insert block.header.blockHash (putUint32 (idx.curBlockID + 1))
        hashByID := idx.hashByID.insert (putUint32 (idx.curBlockID + 1))
          block.header.blockHash.bytes
        curBlockID := idx.curBlockID + 1
        tipHash := block.header.blockHash
        tipHeight := Int32.ofNat block.header.height.toNat } := by
    have htip : idx.tipHash = block.header.prevBlock := h.tipHash.trans hext.prevBlock.symm
    simp [dbIndexConnectBlock, connectBlock, htip, dbAddTxIndexEntries_eq hext.fits,
      dbPutBlockIDIndexEntry]
  refine ⟨_, hconnect, fun k => ?_, fun k => ?_, fun key => ?_, hid, rfl, ?_⟩
  · simp only [get?_foldl_insert_last, h.entries, hid, entryOf]
  · simp only [get?_insert, h.ids, hid, idOf]
  · simp only [get?_insert, h.hashes, hid, hashOf]
  · simp only [hext.height, length_cons]

/-! ### Disconnecting -/

theorem mem_txHashes_iff (hfits : block.Fits Wire.protocolVersion) (blockID : UInt32) (h : Hash) :
    h ∈ txHashes block ↔ lookupList h (blockEntries blockID block).reverse ≠ none := by
  rw [← keys_blockEntries hfits blockID, Ne, lookupList_eq_none, not_forall]
  simp [mem_map]

omit [Blake256] in
theorem length_putTxIndexEntry (blockID : UInt32) (loc : Wire.TxLoc) (i : UInt32) :
    (putTxIndexEntry blockID loc i).length = txEntrySize := by
  simp [putTxIndexEntry, putUint32, txEntrySize]

/-- Every entry of a block is one that `putTxIndexEntry` made for a transaction at its location. -/
theorem mem_treeEntries (hmem : (h, data) ∈ treeEntries blockID txns locs) :
    ∃ (i : Nat) (tx : Wire.MsgTx) (loc : Wire.TxLoc), txns[i]? = some tx ∧ locs[i]? = some loc ∧
      tx.txHash = h ∧ data = putTxIndexEntry blockID loc (UInt32.ofNat i) := by
  obtain ⟨⟨⟨tx, loc⟩, i⟩, hi, heq⟩ := mem_map.1 hmem
  cases heq
  have hzip := mem_zipIdx_iff_getElem?.1 hi
  obtain ⟨htx, hloc⟩ := List.getElem?_zip_eq_some.1 hzip
  exact ⟨i, tx, loc, htx, hloc, rfl, rfl⟩

theorem length_of_mem_blockEntries (hmem : (h, data) ∈ blockEntries blockID block) :
    data.length = txEntrySize := by
  unfold blockEntries at hmem
  split at hmem
  · cases hmem
  · rcases mem_append.1 hmem with hmem | hmem <;>
    · obtain ⟨i, tx, loc, -, -, -, rfl⟩ := mem_treeEntries hmem
      exact length_putTxIndexEntry _ _ _

theorem entryOf_eq_none (hchain : ChainOf genesisHash chain) (h : Hash) :
    entryOf chain h = none ↔ ∀ b ∈ chain, h ∉ txHashes b := by
  induction chain with
  | nil => simp [entryOf]
  | cons b chain ih =>
    obtain ⟨hext, hchain⟩ := hchain
    rw [entryOf, Option.or_eq_none_iff, ih hchain, forall_mem_cons, mem_txHashes_iff hext.fits,
      not_not]

omit [Blake256] in
theorem putUint32_injective {m : Nat} (hn : n < 2 ^ 32) (hm : m < 2 ^ 32)
    (h : putUint32 (UInt32.ofNat n) = putUint32 (UInt32.ofNat m)) : n = m := by
  have heq := (Reads.uint32 (UInt32.ofNat n)).unique (h ▸ Reads.uint32 (UInt32.ofNat m))
  have htoNat := congrArg UInt32.toNat heq
  rwa [UInt32.toNat_ofNat_of_lt' hn, UInt32.toNat_ofNat_of_lt' hm] at htoNat

theorem hashOf_eq_none (hn : chain.length < n) (hlt : n < 2 ^ 32) :
    hashOf chain (putUint32 (UInt32.ofNat n)) = none := by
  induction chain with
  | nil => rfl
  | cons b chain ih =>
    rw [length_cons] at hn
    rw [hashOf, if_neg fun heq => absurd (putUint32_injective hlt (by omega) heq) (by omega)]
    exact ih (by omega)

theorem idOf_eq_none (hnew : ∀ b ∈ chain, b.header.blockHash ≠ h) : idOf chain h = none := by
  induction chain with
  | nil => rfl
  | cons b chain ih =>
    obtain ⟨hb, hnew⟩ := forall_mem_cons.1 hnew
    rw [idOf, if_neg hb.symm, ih hnew]

theorem Extends.length_lt (hext : Extends genesisHash chain block) : chain.length + 1 < 2 ^ 32 :=
  hext.height ▸ block.header.height.toNat_lt

/-- What is left when the tip has been disconnected. -/
def without (idx : TxIndex) (block : Wire.MsgBlock) (blockID : UInt32) : TxIndex where
  txByHash := (txHashes block).foldl OrdMap.erase idx.txByHash
  idByHash := idx.idByHash.erase block.header.blockHash
  hashByID := idx.hashByID.erase (putUint32 blockID)
  curBlockID := idx.curBlockID - 1
  tipHash := block.header.prevBlock
  tipHeight := Int32.ofInt (block.header.height.toNat - 1)

/-- The tip is disconnected if it has no transaction twice. -/
theorem Indexes.disconnect (h : Indexes genesisHash (block :: chain) idx)
    (hext : Extends genesisHash chain block) : idx.dbIndexDisconnectBlock block =
      if (txHashes block).Nodup then some (idx.without block (UInt32.ofNat (chain.length + 1)))
      else none := by
  have hid : idx.idByHash.get? block.header.blockHash =
      some (putUint32 (UInt32.ofNat (chain.length + 1))) := by
    rw [h.ids, idOf, if_pos rfl]
  have hthere : ∀ k ∈ txHashes block, ((idx.txByHash.get? k).getD []).length ≠ 0 := by
    intro k hk
    obtain ⟨data, hdata⟩ := Option.ne_none_iff_exists'.1
      ((mem_txHashes_iff hext.fits (UInt32.ofNat (chain.length + 1)) k).1 hk)
    have hmem := mem_reverse.1 (lookupList_eq_some_mem hdata)
    rw [h.entries, entryOf, hdata, Option.some_or, Option.getD_some,
      length_of_mem_blockEntries hmem]
    decide
  have hrun : ∀ m, (txHashes block).foldlM dbRemoveTxIndexEntry idx.txByHash = some m ↔
      (txHashes block).Nodup ∧ (txHashes block).foldl OrdMap.erase idx.txByHash = m := by
    intro m
    rw [foldlM_remove, and_iff_right hthere]
  unfold dbIndexDisconnectBlock disconnectBlock
  rw [h.tipHash, dbRemoveTxIndexEntries_eq]
  by_cases hnodup : (txHashes block).Nodup
  · rw [if_pos hnodup, (hrun _).2 ⟨hnodup, rfl⟩]
    simp [tipOf, dbRemoveBlockIDIndexEntry, hid, without]
  · have hnone : (txHashes block).foldlM dbRemoveTxIndexEntry idx.txByHash = none :=
      Option.eq_none_iff_forall_ne_some.2 fun m hm => hnodup ((hrun m).1 hm).1
    rw [if_neg hnodup, hnone]
    simp [tipOf]

/-- The index of the shorter chain is left if no transaction of the tip is in it. -/
theorem Indexes.without (h : Indexes genesisHash (block :: chain) idx)
    (hext : Extends genesisHash chain block) (hchain : ChainOf genesisHash chain)
    (hfresh : ∀ b ∈ chain, ∀ k ∈ txHashes block, k ∉ txHashes b) :
    Indexes genesisHash chain (idx.without block (UInt32.ofNat (chain.length + 1))) := by
  refine ⟨fun k => ?_, fun k => ?_, fun key => ?_, ?_, hext.prevBlock, ?_⟩
  · have hkey := mem_txHashes_iff hext.fits (UInt32.ofNat (chain.length + 1)) k
    simp only [TxIndex.without, get?_foldl_erase, h.entries, entryOf]
    split_ifs with hk
    · exact ((entryOf_eq_none hchain k).2 fun b hb => hfresh b hb k hk).symm
    · rw [not_not.1 (mt hkey.2 hk), Option.none_or]
  · simp only [TxIndex.without, get?_erase, h.ids, idOf]
    split_ifs with hk
    · subst hk
      exact (idOf_eq_none hext.new).symm
    · rfl
  · simp only [TxIndex.without, get?_erase, h.hashes, hashOf]
    split_ifs with hk
    · subst hk
      exact (hashOf_eq_none (Nat.lt_succ_self _) hext.length_lt).symm
    · rfl
  · rw [TxIndex.without, h.curBlockID, length_cons, UInt32.ofNat_add]
    exact UInt32.add_sub_cancel _ _
  · have hheight : ((block.header.height.toNat : Int) - 1) = (chain.length : Int) := by
      rw [hext.height]
      omega
    rw [TxIndex.without, hheight]
    exact Int32.ofInt_eq_ofNat

/-- **Disconnecting restores exactly if no transaction is repeated.** -/
theorem Indexes.restores_iff (h : Indexes genesisHash (block :: chain) idx)
    (hext : Extends genesisHash chain block) (hchain : ChainOf genesisHash chain)
    (hbefore : Indexes genesisHash chain idx') :
    idx.dbIndexDisconnectBlock block = some idx' ↔ Fresh chain block := by
  rw [h.disconnect hext]
  constructor
  · intro heq
    split_ifs at heq with hnodup
    cases heq
    refine ⟨hnodup, fun b hb k hk => ?_⟩
    have hnone : entryOf chain k = none := by
      rw [← hbefore.entries, TxIndex.without, get?_foldl_erase, if_pos hk]
    exact (entryOf_eq_none hchain k).1 hnone b hb
  · rintro ⟨hnodup, hfresh⟩
    rw [if_pos hnodup, (h.without hext hchain hfresh).unique hbefore]

/-! ## Finding transactions -/

/-- The index finds the hash in the latest block that contains it, at the bytes of a transaction
with that hash. -/
def Finds (chain : List Wire.MsgBlock) (idx : TxIndex) (h : Hash) : Prop :=
  ∃ (block : Wire.MsgBlock) (raw : List UInt8) (entry : TxIndexEntry) (tx : Wire.MsgTx),
    chain.find? (fun b => decide (h ∈ txHashes b)) = some block ∧ block.btcEncode = some raw ∧
    idx.dbFetchTxIndexEntry h = some (some entry) ∧ entry.hash = block.header.blockHash ∧
    tx.txHash = h ∧
    (block.transactions[entry.blockIndex.toNat]? = some tx ∨
      block.sTransactions[entry.blockIndex.toNat]? = some tx) ∧
    tx.btcEncode = some ((raw.drop entry.offset.toNat).take entry.len.toNat)

theorem entryOf_spec (hchain : ChainOf genesisHash chain) (hentry : entryOf chain h = some data) :
    ∃ newer block older, chain = newer ++ block :: older ∧ (∀ b ∈ newer, h ∉ txHashes b) ∧
      Extends genesisHash older block ∧
      (h, data) ∈ blockEntries (UInt32.ofNat (older.length + 1)) block := by
  induction chain with
  | nil => cases hentry
  | cons b chain ih =>
    obtain ⟨hext, hchain⟩ := hchain
    rw [entryOf] at hentry
    cases hlook : lookupList h (blockEntries (UInt32.ofNat (chain.length + 1)) b).reverse with
    | some data' =>
      rw [hlook, Option.some_or] at hentry
      cases hentry
      exact ⟨[], b, chain, rfl, by simp, hext, mem_reverse.1 (lookupList_eq_some_mem hlook)⟩
    | none =>
      rw [hlook, Option.none_or] at hentry
      obtain ⟨newer, block, older, rfl, hnewer, hold, hmem⟩ := ih hchain hentry
      have hb : h ∉ txHashes b := fun hmem => (mem_txHashes_iff hext.fits _ h).1 hmem hlook
      exact ⟨b :: newer, block, older, rfl, forall_mem_cons.2 ⟨hb, hnewer⟩, hold, hmem⟩

theorem hashOf_append (hlt : (newer ++ block :: older).length < 2 ^ 32) :
    hashOf (newer ++ block :: older) (putUint32 (UInt32.ofNat (older.length + 1))) =
      some block.header.blockHash.bytes := by
  induction newer with
  | nil => rw [nil_append, hashOf, if_pos rfl]
  | cons b newer ih =>
    simp only [cons_append, length_cons, length_append] at hlt
    rw [cons_append, hashOf, if_neg, ih]
    · simp only [length_append, length_cons]
      omega
    · intro heq
      have := putUint32_injective (by omega) (by simp only [length_append, length_cons]; omega) heq
      simp only [length_append, length_cons] at this
      omega

theorem ChainOf.length_lt (hchain : ChainOf genesisHash chain) : chain.length < 2 ^ 32 := by
  cases chain with
  | nil => decide
  | cons b chain => exact hchain.1.length_lt

omit [Blake256] in
theorem fields_putTxIndexEntry (blockID : UInt32) (loc : Wire.TxLoc) (i : UInt32) :
    (putTxIndexEntry blockID loc i).take 4 = putUint32 blockID ∧
      Bytes.getLE (((putTxIndexEntry blockID loc i).drop 4).take 4) =
        (UInt32.ofNat loc.txStart).toNat ∧
      Bytes.getLE (((putTxIndexEntry blockID loc i).drop 8).take 4) =
        (UInt32.ofNat loc.txLen).toNat ∧
      Bytes.getLE (((putTxIndexEntry blockID loc i).drop 12).take 4) = i.toNat := by
  have hlen : ∀ x : UInt32, (putUint32 x).length = 4 := fun x => Bytes.length_putLE 4 _
  have hget : ∀ x : UInt32, Bytes.getLE (putUint32 x) = x.toNat := fun x =>
    Bytes.getLE_putLE_of_lt x.toNat_lt
  unfold putTxIndexEntry
  refine ⟨take_left' (hlen _), ?_, ?_, ?_⟩
  · rw [← append_assoc, Bytes.take_drop_append (hlen _) (hlen _), hget]
  · rw [← append_assoc, ← append_assoc, Bytes.take_drop_append (by simp [hlen]) (hlen _), hget]
  · rw [← append_assoc, ← append_assoc, drop_left' (by simp [hlen]),
      take_of_length_le (by rw [hlen]), hget]

omit [Blake256] in
/-- A location lies within the bytes of the block, which are not many. -/
theorem location_lt {raw : List UInt8} {tx : Wire.MsgTx} {i : Nat}
    (hdel : Wire.MsgBlock.Delimits raw txns locs) (hsize : raw.length ≤ Wire.maxBlockPayload.toNat)
    (htx : txns[i]? = some tx) (hloc : locs[i]? = some loc) :
    tx.btcEncode = some (loc.slice raw) ∧ loc.txStart < 2 ^ 32 ∧ loc.txLen < 2 ^ 32 := by
  have hslice : some (loc.slice raw) = tx.btcEncode := by
    have := congrArg (·[i]?) hdel.slices
    simpa [htx, hloc] using this
  have hlen : loc.txLen = tx.serializeSize := by
    have := congrArg (·[i]?) hdel.sizes
    simpa [htx, hloc] using this
  have hlength := Wire.MsgTx.length_btcEncode hslice.symm
  have hpos := Wire.MsgTx.serializeSize_pos hslice.symm
  rw [← hlen, Wire.TxLoc.slice, length_take, length_drop] at hlength
  have hmax : Wire.maxBlockPayload.toNat < 2 ^ 32 := by decide
  refine ⟨hslice.symm, ?_, ?_⟩ <;> omega

omit [Blake256] in
theorem dbFetchTxIndexEntry_eq {hash : Hash} {i : UInt32}
    (hentry : idx.txByHash.get? k = some (putTxIndexEntry blockID loc i))
    (hhash : idx.hashByID.get? (putUint32 blockID) = some hash.bytes) : idx.dbFetchTxIndexEntry k =
      some (some ⟨hash, UInt32.ofNat loc.txStart, UInt32.ofNat loc.txLen, i⟩) := by
  obtain ⟨hid, hstart, hlen, hi⟩ := fields_putTxIndexEntry blockID loc i
  have hsize := length_putTxIndexEntry blockID loc i
  simp only [dbFetchTxIndexEntry, hentry, Option.getD_some, dbFetchBlockHashBySerializedID,
    hid, hhash, hstart, hlen, hi, hsize, UInt32.ofNat_toNat, Option.map_some, copyHash_bytes]
  simp [txEntrySize]

/-- **A transaction of the chain is found.** -/
theorem Indexes.finds (h : Indexes genesisHash chain idx) (hchain : ChainOf genesisHash chain)
    {b : Wire.MsgBlock} (hb : b ∈ chain) (hk : k ∈ txHashes b) : Finds chain idx k := by
  have hsome : entryOf chain k ≠ none := fun hnone => (entryOf_eq_none hchain k).1 hnone b hb hk
  obtain ⟨data, hdata⟩ := Option.ne_none_iff_exists'.1 hsome
  obtain ⟨newer, block, older, rfl, hnewer, hext, hmem⟩ := entryOf_spec hchain hdata
  have hkey : k ∈ txHashes block := by
    rw [← keys_blockEntries hext.fits (UInt32.ofNat (older.length + 1))]
    exact mem_map_of_mem hmem
  have hfind : (newer ++ block :: older).find? (fun b => decide (k ∈ txHashes b)) = some block :=
    List.find?_eq_some_iff_append.2 ⟨by simpa using hkey, newer, older, rfl, by simpa using hnewer⟩
  have hhash := h.hashes (putUint32 (UInt32.ofNat (older.length + 1)))
  rw [hashOf_append hchain.length_lt] at hhash
  obtain ⟨raw, locs, sLocs, hraw, hlocs, hdel, hdel'⟩ := txLoc_spec hext.fits
  have hsize : raw.length ≤ Wire.maxBlockPayload.toNat :=
    length_btcEncode hraw ▸ hext.size
  have hmax : (Wire.maxTxPerTxTree Wire.protocolVersion).toNat < 2 ^ 32 := by decide
  -- the entry is one of the regular or one of the stake tree
  have hfinds : ∀ (txns : List Wire.MsgTx) (locs : List Wire.TxLoc), Wire.MsgBlock.Delimits raw
      txns locs → txns.length ≤ (Wire.maxTxPerTxTree Wire.protocolVersion).toNat →
      (∀ (i : Nat) (tx : Wire.MsgTx), txns[i]? = some tx →
        block.transactions[i]? = some tx ∨ block.sTransactions[i]? = some tx) →
      (k, data) ∈ treeEntries (UInt32.ofNat (older.length + 1)) txns locs →
      Finds (newer ++ block :: older) idx k := by
    intro txns locs hdel hnum htree hmem
    obtain ⟨i, tx, loc, htx, hloc, hhash', rfl⟩ := mem_treeEntries hmem
    obtain ⟨hencode, hstart, hlen⟩ := location_lt hdel hsize htx hloc
    have hi : i < 2 ^ 32 := by
      have := (List.getElem?_eq_some_iff.1 htx).1
      omega
    refine ⟨block, raw, _, tx, hfind, hraw,
      dbFetchTxIndexEntry_eq ((h.entries k).trans hdata) hhash, rfl, hhash', ?_, ?_⟩
    · rw [UInt32.toNat_ofNat_of_lt' hi]
      exact htree i tx htx
    · rw [UInt32.toNat_ofNat_of_lt' hstart, UInt32.toNat_ofNat_of_lt' hlen]
      exact hencode
  rw [blockEntries, hlocs] at hmem
  rcases mem_append.1 hmem with hmem | hmem
  · exact hfinds _ _ hdel hext.fits.numTxns (fun _ _ => .inl) hmem
  · exact hfinds _ _ hdel' hext.fits.numSTxns (fun _ _ => .inr) hmem

/-! ## Runs -/

/-- The index is reached by connecting and disconnecting blocks at the tip; the chain is the one
that is then indexed. No block is disconnected that has a transaction of a block below it. -/
inductive IndexRun (genesisHash : Hash) : List Wire.MsgBlock → TxIndex → Prop
  | create : IndexRun genesisHash [] (create genesisHash)
  | connect {chain : List Wire.MsgBlock} {idx idx' : TxIndex} {block : Wire.MsgBlock} :
      IndexRun genesisHash chain idx → Extends genesisHash chain block →
      idx.dbIndexConnectBlock block = some idx' → IndexRun genesisHash (block :: chain) idx'
  | disconnect {chain : List Wire.MsgBlock} {idx idx' : TxIndex} {block : Wire.MsgBlock} :
      IndexRun genesisHash (block :: chain) idx → Fresh chain block →
      idx.dbIndexDisconnectBlock block = some idx' → IndexRun genesisHash chain idx'

theorem IndexRun.indexes (h : IndexRun genesisHash chain idx) :
    ChainOf genesisHash chain ∧ Indexes genesisHash chain idx := by
  induction h with
  | create => exact ⟨trivial, indexes_create genesisHash⟩
  | connect _ hext hconnect ih =>
    obtain ⟨hchain, hidx⟩ := ih
    obtain ⟨idx', hconnect', hidx'⟩ := hidx.connect hext
    cases hconnect'.symm.trans hconnect
    exact ⟨⟨hext, hchain⟩, hidx'⟩
  | disconnect _ hfresh hdisconnect ih =>
    obtain ⟨⟨hext, hchain⟩, hidx⟩ := ih
    rw [hidx.disconnect hext, if_pos hfresh.1] at hdisconnect
    cases hdisconnect
    exact ⟨hchain, hidx.without hext hchain hfresh.2⟩

/-- Every lower chain was indexed before. -/
theorem IndexRun.lower (newer : List Wire.MsgBlock)
    (h : IndexRun genesisHash (newer ++ chain) idx) : ∃ idx₀, IndexRun genesisHash chain idx₀ := by
  generalize hall : newer ++ chain = all at h
  induction h generalizing newer with
  | create =>
    obtain ⟨rfl, rfl⟩ := append_eq_nil_iff.1 hall
    exact ⟨_, .create⟩
  | @connect below idx idx' block hrun hext hconnect ih =>
    cases newer with
    | nil =>
      rw [nil_append] at hall
      exact ⟨idx', hall ▸ hrun.connect hext hconnect⟩
    | cons b newer =>
      obtain ⟨rfl, hbelow⟩ := List.cons.inj hall
      exact ih newer hbelow
  | @disconnect below idx idx' block _ _ _ ih => exact ih (block :: newer) (by rw [← hall]; rfl)

/-- The tip was connected to the index of the chain below it. -/
theorem IndexRun.before (h : IndexRun genesisHash (block :: chain) idx) :
    ∃ idx₀, IndexRun genesisHash chain idx₀ ∧ idx₀.dbIndexConnectBlock block = some idx := by
  obtain ⟨⟨hext, -⟩, hidx⟩ := h.indexes
  obtain ⟨idx₀, hrun⟩ := IndexRun.lower [block] h
  obtain ⟨idx', hconnect, hidx'⟩ := hrun.indexes.2.connect hext
  exact ⟨idx₀, hrun, hidx'.unique hidx ▸ hconnect⟩

/-- The blocks are numbered from one on, in both directions, and no other number is used. -/
structure Numbered (chain : List Wire.MsgBlock) (idx : TxIndex) : Prop where
  curBlockID : idx.curBlockID.toNat = chain.length
  ids : ∀ newer block older, chain = newer ++ block :: older →
    idx.idByHash.get? block.header.blockHash = some (putUint32 (UInt32.ofNat (older.length + 1))) ∧
      idx.hashByID.get? (putUint32 (UInt32.ofNat (older.length + 1))) =
        some block.header.blockHash.bytes
  only : ∀ key, idx.hashByID.get? key ≠ none →
    ∃ n, 1 ≤ n ∧ n ≤ chain.length ∧ key = putUint32 (UInt32.ofNat n)

theorem idOf_append (hchain : ChainOf genesisHash (newer ++ block :: older)) :
    idOf (newer ++ block :: older) block.header.blockHash =
      some (putUint32 (UInt32.ofNat (older.length + 1))) := by
  induction newer with
  | nil => rw [nil_append, idOf, if_pos rfl]
  | cons b newer ih =>
    have hne := hchain.1.new block (by simp)
    rw [cons_append, idOf, if_neg hne, ih hchain.2]

theorem Indexes.numbered (h : Indexes genesisHash chain idx) (hchain : ChainOf genesisHash chain) :
    Numbered chain idx where
  curBlockID := by rw [h.curBlockID, UInt32.toNat_ofNat_of_lt' hchain.length_lt]
  ids := by
    rintro newer block older rfl
    exact ⟨(h.ids _).trans (idOf_append hchain),
      (h.hashes _).trans (hashOf_append hchain.length_lt)⟩
  only := by
    intro key hkey
    rw [h.hashes] at hkey
    clear h hchain
    induction chain with
    | nil => exact absurd rfl hkey
    | cons b chain ih =>
      rw [hashOf] at hkey
      split_ifs at hkey with hk
      · exact ⟨chain.length + 1, by omega, le_rfl, hk⟩
      · obtain ⟨n, hpos, hle, rfl⟩ := ih hkey
        exact ⟨n, hpos, Nat.le_succ_of_le hle, rfl⟩

/-- **The index follows the main chain**, as long as no block is disconnected that has a transaction
of a block below it. Disconnecting the tip restores the index from before it was connected if and
only if the tip has no transaction twice and none of a block below it. -/
theorem txIndex_run (hrun : IndexRun genesisHash chain idx) :
    (∀ b ∈ chain, ∀ tx ∈ b.txs, Finds chain idx tx.txHash) ∧ Numbered chain idx ∧
      ∀ block below, chain = block :: below → ∃ before, IndexRun genesisHash below before ∧
        before.dbIndexConnectBlock block = some idx ∧
        (idx.dbIndexDisconnectBlock block = some before ↔ Fresh below block) := by
  obtain ⟨hchain, hidx⟩ := hrun.indexes
  refine ⟨fun b hb tx htx => hidx.finds hchain hb (mem_map_of_mem htx), hidx.numbered hchain, ?_⟩
  rintro block below rfl
  obtain ⟨before, hbefore, hconnect⟩ := hrun.before
  exact ⟨before, hbefore, hconnect, hidx.restores_iff hchain.1 hchain.2 hbefore.indexes.2⟩

end TxIndex

/-! ## A transaction that is mined twice -/

namespace TxIndex.Remined

/-- A hash function for the example. -/
@[reducible] def polyHash : Blake256 :=
  ⟨fun b => Hash.ofNat (b.foldl (fun n x => 257 * n + x.toNat + 1) 0)⟩

attribute [local instance] polyHash

/-- A transaction, told by its lock time. -/
def tx (lockTime : UInt32) : Wire.MsgTx where
  serType := Wire.txSerializeFull
  version := 1
  txIn := []
  txOut := []
  lockTime := lockTime
  expiry := 0

def genesisHash : Hash := Hash.ofNat 1

/-- A block with a coinbase and another transaction. -/
def block (prevBlock : Hash) (voteBits : UInt16) (height lockTime lockTime' : UInt32) :
    Wire.MsgBlock where
  header.toBlockHeader :=
    { (default : BlockHeader) with prevBlock := prevBlock, voteBits := voteBits, height := height }
  header.codechainHead := default
  transactions := [tx lockTime, tx lockTime']
  sTransactions := []

def first : Wire.MsgBlock := block genesisHash 1 1 1 2

/-- The second block disapproves the first one, and has its other transaction again. -/
def second : Wire.MsgBlock := block first.header.blockHash 0 2 3 2

/-- A second block with transactions of its own. -/
def fresh : Wire.MsgBlock := block first.header.blockHash 1 2 3 4

theorem extends_first : Extends genesisHash [] first :=
  ⟨rfl, rfl, by simp, ⟨by decide, by decide, by decide, by decide⟩, by decide +kernel⟩

theorem extends_second : Extends genesisHash [first] second :=
  ⟨rfl, rfl, by decide +kernel, ⟨by decide, by decide, by decide, by decide⟩, by decide +kernel⟩

theorem extends_fresh : Extends genesisHash [first] fresh :=
  ⟨rfl, rfl, by decide +kernel, ⟨by decide, by decide, by decide, by decide⟩, by decide +kernel⟩

/-- Two blocks are connected, and the second one is disconnected again. -/
theorem txIndex_run_fresh : ∃ idx₁ idx₂, IndexRun genesisHash [first] idx₁ ∧
    IndexRun genesisHash [fresh, first] idx₂ ∧ Numbered [fresh, first] idx₂ ∧
    Finds [fresh, first] idx₂ (tx 2).txHash ∧ idx₂.dbIndexDisconnectBlock fresh = some idx₁ := by
  obtain ⟨idx₁, hconnect₁, hidx₁⟩ := (indexes_create genesisHash).connect extends_first
  have hrun₁ := IndexRun.create.connect extends_first hconnect₁
  obtain ⟨idx₂, hconnect₂, -⟩ := hidx₁.connect extends_fresh
  have hrun₂ := hrun₁.connect extends_fresh hconnect₂
  obtain ⟨hfinds, hnumbered, hrestores⟩ := txIndex_run hrun₂
  obtain ⟨before, hbefore, -, hiff⟩ := hrestores fresh [first] rfl
  cases hbefore.indexes.2.unique hidx₁
  exact ⟨_, idx₂, hrun₁, hrun₂, hnumbered,
    hfinds first (by simp) (tx 2) (by simp [Wire.MsgBlock.txs, first, block]),
    hiff.2 ⟨by decide +kernel, by decide +kernel⟩⟩

/-- The two blocks are connected and the second one is disconnected again. The transaction that
both have is not found any more, though the first block is still in the chain, and the first block
cannot be disconnected. -/
theorem txIndex_remined :
    ∃ idx₁ idx₂ idx, IndexRun genesisHash [first] idx₁ ∧ Extends genesisHash [first] second ∧
      idx₁.dbIndexConnectBlock second = some idx₂ ∧ idx₂.dbIndexDisconnectBlock second = some idx ∧
      idx.txByHash ≠ idx₁.txByHash ∧ idx.dbFetchTxIndexEntry (tx 2).txHash = some none ∧
      idx.dbIndexDisconnectBlock first = none := by
  have hcalls : ((do
      let idx₁ ← (create genesisHash).dbIndexConnectBlock first
      let idx₂ ← idx₁.dbIndexConnectBlock second
      let idx ← idx₂.dbIndexDisconnectBlock second
      some (decide (idx.txByHash ≠ idx₁.txByHash ∧
        idx.dbFetchTxIndexEntry (tx 2).txHash = some none ∧
        idx.dbIndexDisconnectBlock first = none))) : Option Bool) = some true := by
    decide +kernel
  obtain ⟨idx₁, h₁, hcalls⟩ := Option.bind_eq_some_iff.1 hcalls
  obtain ⟨idx₂, h₂, hcalls⟩ := Option.bind_eq_some_iff.1 hcalls
  obtain ⟨idx, h, hcalls⟩ := Option.bind_eq_some_iff.1 hcalls
  have hlost := of_decide_eq_true (Option.some.inj hcalls)
  exact ⟨idx₁, idx₂, idx, IndexRun.create.connect extends_first h₁, extends_second, h₂, h, hlost⟩

end TxIndex.Remined

end Fnod
