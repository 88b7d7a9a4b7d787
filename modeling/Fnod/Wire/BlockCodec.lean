import Fnod.Wire.TxCodec

/-!
# Package `wire`: the encoding of blocks

A block is its header and two lists of transactions. `DeserializeTxLoc` reads a block like
`BtcDecode` and notes where each transaction lies in the bytes.

The header of the Go structure has one more field than the format, `CodechainHead`. It is not
written, and the receiver keeps the one that it has.

**Theorem (`MsgBlock.accepts_btcDecode`, `MsgBlock.reads_btcDecode`).** As for transactions; the
header comes back with the `CodechainHead` of the receiver.

**Theorem (`MsgBlock.deserializeTxLoc_spec`).** The locations are those of the encoded
transactions: each one starts where the one before it ends.
-/

namespace Fnod.Wire

open Codec

deriving instance Inhabited for Fnod.BlockHeader

/-- `BlockHeader`, with the field that is not part of the format. -/
structure BlockHeader extends Fnod.BlockHeader where
  codechainHead : Vector UInt8 32
deriving DecidableEq, Inhabited

def readBlockHeader (recv : BlockHeader) : Reader BlockHeader := do
  let fields ← Fnod.readBlockHeader
  pure { recv with toBlockHeader := fields }

def writeBlockHeader (h : BlockHeader) : List UInt8 := h.serialize

structure MsgBlock where
  header : BlockHeader
  transactions : List MsgTx
  sTransactions : List MsgTx
deriving DecidableEq, Inhabited

structure TxLoc where
  txStart : Nat
  txLen : Nat
deriving DecidableEq

/-- The bytes at the location. -/
def TxLoc.slice (loc : TxLoc) (raw : List UInt8) : List UInt8 :=
  (raw.drop loc.txStart).take loc.txLen

def maxBlockPayloadV3 : UInt64 := 1000000

def maxBlockPayload : UInt64 := 1310720

def minTxPayload : UInt64 := 4 + 1 + 1 + 1 + 4 + 4

def protocolVersion : UInt32 := 6

def maxTxPerTxTree (pver : UInt32) : UInt64 :=
  if pver ≤ 3 then maxBlockPayloadV3 / minTxPayload / 2 + 1
  else maxBlockPayload / minTxPayload / 2 + 1

namespace MsgBlock

/-- `BtcDecode`. Each transaction is read to a new one. -/
def btcDecode (recv : MsgBlock) (pver : UInt32) : Reader MsgBlock := do
  let header ← readBlockHeader recv.header
  let transactions ← readList (maxTxPerTxTree pver) (default : MsgTx).btcDecode
  let sTransactions ← readList (maxTxPerTxTree pver) (default : MsgTx).btcDecode
  pure ⟨header, transactions, sTransactions⟩

def deserialize (recv : MsgBlock) : Reader MsgBlock := recv.btcDecode 0

/-- One transaction list is encoded. -/
def encodeTxs (txs : List MsgTx) : Option (List UInt8) := do
  let encoded ← txs.mapM MsgTx.btcEncode
  some (writeVarInt (UInt64.ofNat txs.length) ++ encoded.flatten)

def btcEncode (msg : MsgBlock) : Option (List UInt8) := do
  let transactions ← encodeTxs msg.transactions
  let sTransactions ← encodeTxs msg.sTransactions
  some (writeBlockHeader msg.header ++ (transactions ++ sTransactions))

def bytes (msg : MsgBlock) : Option (List UInt8) := msg.btcEncode

def serializeSize (msg : MsgBlock) : Nat :=
  blockHeaderLen + varIntSerializeSize (UInt64.ofNat msg.transactions.length) +
    varIntSerializeSize (UInt64.ofNat msg.sTransactions.length) +
    (msg.transactions.map MsgTx.serializeSize).sum + (msg.sTransactions.map MsgTx.serializeSize).sum

/-- A transaction and where it lies: the reader knows how many bytes are left of `fullLen`. -/
def deserializeAt (fullLen : Nat) : Reader (MsgTx × TxLoc) := do
  let start := fullLen - (← get).length
  let tx ← (default : MsgTx).deserialize
  pure (tx, ⟨start, fullLen - (← get).length - start⟩)

def deserializeTxLoc (recv : MsgBlock) : Reader (MsgBlock × List TxLoc × List TxLoc) := do
  let fullLen := (← get).length
  let header ← readBlockHeader recv.header
  let transactions ← readList (maxTxPerTxTree protocolVersion) (deserializeAt fullLen)
  let sTransactions ← readList (maxTxPerTxTree protocolVersion) (deserializeAt fullLen)
  pure (⟨header, transactions.map Prod.fst, sTransactions.map Prod.fst⟩,
    transactions.map Prod.snd, sTransactions.map Prod.snd)

/-! ## What is written is read back -/

variable {msg : MsgBlock} {pver : UInt32} {txs : List MsgTx} {tx : MsgTx} {limit : UInt64}
  {loc : TxLoc} {l : List (MsgTx × TxLoc)} {raw : List UInt8}

/-- The bytes of a transaction that can be encoded. -/
def encoded (tx : MsgTx) : List UInt8 := tx.btcEncode.getD []

variable {x start b rest : List UInt8} {xs : List (List UInt8)} {recv : MsgBlock}

theorem encoded_eq (h : tx.btcEncode = some x) : encoded tx = x := by
  rw [encoded, h, Option.getD_some]

theorem encodeTxs_eq (h : ∀ tx ∈ txs, tx.btcEncode = some (encoded tx)) :
    encodeTxs txs = some (writeList encoded txs) := by
  have hmap : txs.mapM MsgTx.btcEncode = some (txs.map encoded) := by
    induction txs with
    | nil => rfl
    | cons tx txs ih =>
      obtain ⟨htx, htxs⟩ := List.forall_mem_cons.1 h
      simp [List.mapM_cons, htx, ih htxs]
  rw [encodeTxs, hmap, writeList, List.flatMap_def]
  rfl

/-- The numbers of transactions are within the limit of the protocol version, and so are the
transactions. -/
structure Fits (msg : MsgBlock) (pver : UInt32) : Prop where
  numTxns : msg.transactions.length ≤ (maxTxPerTxTree pver).toNat
  numSTxns : msg.sTransactions.length ≤ (maxTxPerTxTree pver).toNat
  txns : ∀ tx ∈ msg.transactions, tx.Fits
  stxns : ∀ tx ∈ msg.sTransactions, tx.Fits

/-- What the encoding carries; the rest is what the receiver had. -/
def carried (msg recv : MsgBlock) : MsgBlock where
  header := { msg.header with codechainHead := recv.header.codechainHead }
  transactions := msg.transactions.map (·.carried default)
  sTransactions := msg.sTransactions.map (·.carried default)

theorem reads_txs (hlen : txs.length ≤ (maxTxPerTxTree pver).toNat) (hfits : ∀ tx ∈ txs, tx.Fits) :
    ∃ x, encodeTxs txs = some x ∧
      Reads (readList (maxTxPerTxTree pver) (default : MsgTx).btcDecode) x
        (txs.map (·.carried default)) := by
  have hread : ∀ tx ∈ txs, tx.btcEncode = some (encoded tx) ∧
      Reads (default : MsgTx).btcDecode (encoded tx) (tx.carried default) := by
    intro tx htx
    obtain ⟨x, hx, hreads⟩ := MsgTx.reads_btcDecode (hfits tx htx) default
    rw [encoded_eq hx]
    exact ⟨hx, hreads⟩
  exact ⟨_, encodeTxs_eq fun tx htx => (hread tx htx).1,
    reads_list_map hlen fun tx htx => (hread tx htx).2⟩

theorem reads_blockHeader (h recv : BlockHeader) :
    Reads (readBlockHeader recv) (writeBlockHeader h)
      { h with codechainHead := recv.codechainHead } :=
  (reads_header h.toBlockHeader).map _

/-- **A block within the limits is read back**, as far as the encoding carries it. -/
theorem reads_btcDecode (hfits : msg.Fits pver) (recv : MsgBlock) :
    ∃ x, msg.btcEncode = some x ∧ Reads (recv.btcDecode pver) x (msg.carried recv) := by
  obtain ⟨x, hx, hread⟩ := reads_txs hfits.numTxns hfits.txns
  obtain ⟨y, hy, hread'⟩ := reads_txs hfits.numSTxns hfits.stxns
  refine ⟨writeBlockHeader msg.header ++ (x ++ y), ?_, ?_⟩
  · rw [btcEncode, hx, hy]
    rfl
  · exact (reads_blockHeader msg.header recv.header).bind (hread.bind (hread'.map _))

/-! ## Only what is written is accepted -/

theorem accepts_tx : Accepts (default : MsgTx).btcDecode fun x tx =>
    x = encoded tx ∧ (tx.btcEncode = some x ∧ tx.Fits) :=
  (MsgTx.accepts_btcDecode default).mono fun _ _ ⟨hx, hfits⟩ => ⟨(encoded_eq hx).symm, hx, hfits⟩

theorem accepts_txs : Accepts (readList limit (default : MsgTx).btcDecode) fun x txs =>
      encodeTxs txs = some x ∧ txs.length ≤ limit.toNat ∧ ∀ tx ∈ txs, tx.Fits := by
  refine (accepts_list accepts_tx).mono fun x txs ⟨hx, hlen, htxs⟩ => ?_
  subst hx
  exact ⟨encodeTxs_eq fun tx htx => (htxs tx htx).1, hlen, fun tx htx => (htxs tx htx).2⟩

theorem accepts_blockHeader (recv : BlockHeader) : Accepts (readBlockHeader recv) fun x h =>
      x = writeBlockHeader h ∧ h.codechainHead = recv.codechainHead :=
  .map (accepts_header.mono fun _ _ hx => ⟨hx, rfl⟩)

/-- **Only the bytes that are written for a block are accepted as that block.** -/
theorem accepts_btcDecode (recv : MsgBlock) (pver : UInt32) :
    Accepts (recv.btcDecode pver) fun x msg => msg.btcEncode = some x ∧ msg.Fits pver := by
  refine (accepts_blockHeader _).bind fun x header ⟨hx, _⟩ =>
    accepts_txs.bind fun y txs ⟨hy, hlen, hfits⟩ =>
    .map (accepts_txs.mono fun z stxs ⟨hz, hlen', hfits'⟩ => ?_)
  subst hx
  refine ⟨?_, hlen, hlen', hfits, hfits'⟩
  rw [btcEncode, hy, hz]
  rfl

theorem length_encodeTxs (h : encodeTxs txs = some x) :
    x.length = varIntSerializeSize (UInt64.ofNat txs.length) +
      (txs.map MsgTx.serializeSize).sum := by
  obtain ⟨xs, hxs, hx⟩ := Option.bind_eq_some_iff.1 h
  obtain rfl := Option.some.inj hx
  have hsum : xs.flatten.length = (txs.map MsgTx.serializeSize).sum := by
    clear h hx
    induction txs generalizing xs with
    | nil =>
      obtain rfl := Option.some.inj hxs
      rfl
    | cons tx txs ih =>
      rw [List.mapM_cons] at hxs
      obtain ⟨y, hy, hxs⟩ := Option.bind_eq_some_iff.1 hxs
      obtain ⟨ys, hys, hxs⟩ := Option.bind_eq_some_iff.1 hxs
      obtain rfl := Option.some.inj hxs
      rw [List.flatten_cons, List.length_append, List.map_cons, List.sum_cons, ih ys hys,
        MsgTx.length_btcEncode hy]
  rw [List.length_append, length_writeVarInt, hsum]

/-- **`SerializeSize` is the number of bytes.** -/
theorem length_btcEncode (h : msg.btcEncode = some x) : msg.serializeSize = x.length := by
  obtain ⟨y, hy, h⟩ := Option.bind_eq_some_iff.1 h
  obtain ⟨z, hz, h⟩ := Option.bind_eq_some_iff.1 h
  cases h
  rw [List.length_append, List.length_append, length_encodeTxs hy, length_encodeTxs hz,
    writeBlockHeader, BlockHeader.length_serialize, serializeSize]
  omega

/-! ## Locations -/

/-- The locations of pieces that lie one after the other. -/
def locate (start : Nat) : List (List UInt8) → List TxLoc
  | [] => []
  | x :: xs => ⟨start, x.length⟩ :: locate (start + x.length) xs

theorem fst_deserializeAt (fullLen : Nat) :
    Prod.fst <$> deserializeAt fullLen = (default : MsgTx).btcDecode := by
  simp only [deserializeAt, map_bind, map_pure]
  funext b
  show ((default : MsgTx).btcDecode b).bind (fun p => some (p.1, p.2)) =
    (default : MsgTx).btcDecode b
  cases (default : MsgTx).btcDecode b <;> rfl

/-- Without the locations, a block is read as `BtcDecode` reads it. -/
theorem fst_deserializeTxLoc (recv : MsgBlock) :
    Prod.fst <$> recv.deserializeTxLoc = recv.btcDecode protocolVersion := by
  have hlists : ∀ fullLen header,
      (do
        let transactions ← readList (maxTxPerTxTree protocolVersion) (deserializeAt fullLen)
        let sTransactions ← readList (maxTxPerTxTree protocolVersion) (deserializeAt fullLen)
        pure (⟨header, transactions.map Prod.fst, sTransactions.map Prod.fst⟩ : MsgBlock)) =
      (do
        let transactions ← readList (maxTxPerTxTree protocolVersion) (default : MsgTx).btcDecode
        let sTransactions ← readList (maxTxPerTxTree protocolVersion) (default : MsgTx).btcDecode
        pure (⟨header, transactions, sTransactions⟩ : MsgBlock)) := by
    intro fullLen header
    rw [← map_readList (fst_deserializeAt fullLen)]
    simp only [bind_map_left]
  simp only [deserializeTxLoc, btcDecode, map_bind, map_pure, hlists]
  rfl

/-- The reader knows where it is from the number of bytes that are left. -/
theorem deserializeAt_spec (h : deserializeAt (start ++ b).length b = some ((tx, loc), rest)) :
    ∃ x, b = x ++ rest ∧ tx.btcEncode = some x ∧ loc = ⟨start.length, x.length⟩ := by
  obtain ⟨⟨tx', rest'⟩, htx, h⟩ := Option.bind_eq_some_iff.1 h
  obtain ⟨x, rfl, hx, -⟩ := MsgTx.accepts_btcDecode default htx
  obtain ⟨hres, rfl⟩ := Prod.mk.inj (Option.some.inj h)
  cases hres
  refine ⟨x, rfl, hx, ?_⟩
  simp only [List.length_append, TxLoc.mk.injEq]
  omega

/-- The transactions and their locations, one after the other. -/
theorem many_deserializeAt_spec {n : Nat}
    (h : many (deserializeAt (start ++ b).length) n b = some (l, rest)) :
    ∃ xs, b = xs.flatten ++ rest ∧ l.map (fun p => p.1.btcEncode) = xs.map some ∧ l.length = n ∧
      l.map Prod.snd = locate start.length xs := by
  induction n generalizing start b l with
  | zero =>
    cases h
    exact ⟨[], rfl, rfl, rfl, rfl⟩
  | succ n ih =>
    obtain ⟨⟨⟨tx, loc⟩, b'⟩, htx, h⟩ := Option.bind_eq_some_iff.1 h
    obtain ⟨⟨l', rest'⟩, hl, h⟩ := Option.bind_eq_some_iff.1 h
    cases h
    obtain ⟨x, rfl, hx, rfl⟩ := deserializeAt_spec htx
    rw [← List.append_assoc] at hl
    obtain ⟨xs, rfl, hxs, hlen, hlocs⟩ := ih hl
    refine ⟨x :: xs, ?_, ?_, ?_, ?_⟩
    · rw [List.flatten_cons, List.append_assoc]
    · rw [List.map_cons, List.map_cons, hxs, hx]
    · rw [List.length_cons, hlen]
    · rw [List.map_cons, hlocs, List.length_append, locate]

theorem readList_deserializeAt_spec
    (h : readList limit (deserializeAt (start ++ b).length) b = some (l, rest)) :
    ∃ count xs, b = count ++ xs.flatten ++ rest ∧ l.map (fun p => p.1.btcEncode) = xs.map some ∧
      l.map Prod.snd = locate (start ++ count).length xs := by
  obtain ⟨⟨count, b'⟩, hcount, h⟩ := Option.bind_eq_some_iff.1 h
  obtain ⟨w, rfl, hw⟩ := accepts_varInt hcount
  obtain ⟨⟨_, b''⟩, hguard, h⟩ := Option.bind_eq_some_iff.1 h
  obtain ⟨y, hb', hy, -⟩ := Accepts.check hguard
  subst hy hb'
  rw [← List.append_assoc] at h
  obtain ⟨xs, rfl, hxs, -, hlocs⟩ := many_deserializeAt_spec h
  exact ⟨w, xs, (List.append_assoc w _ rest).symm, hxs, hlocs⟩

/-- The locations are those of the encoded transactions in the raw bytes, one after the other. -/
structure Delimits (raw : List UInt8) (txs : List MsgTx) (locs : List TxLoc) : Prop where
  slices : locs.map (fun loc => some (loc.slice raw)) = txs.map MsgTx.btcEncode
  sizes : locs.map TxLoc.txLen = txs.map MsgTx.serializeSize
  next : locs.IsChain fun loc loc' => loc.txStart + loc.txLen = loc'.txStart

theorem locate_slices {start rest : List UInt8} {xs : List (List UInt8)} :
    (locate start.length xs).map (·.slice (start ++ xs.flatten ++ rest)) = xs := by
  induction xs generalizing start with
  | nil => rfl
  | cons x xs ih =>
    have hfirst : (⟨start.length, x.length⟩ : TxLoc).slice
      (start ++ (x :: xs).flatten ++ rest) = x := by
      rw [List.flatten_cons, TxLoc.slice, ← List.append_assoc, List.append_assoc]
      exact Bytes.take_drop_append rfl rfl
    have hrest := @ih (start ++ x)
    rw [List.length_append, List.append_assoc start, ← List.flatten_cons] at hrest
    rw [locate, List.map_cons, hfirst, hrest]

theorem locate_next (start : Nat) (xs : List (List UInt8)) :
    (locate start xs).IsChain fun loc loc' => loc.txStart + loc.txLen = loc'.txStart := by
  induction xs generalizing start with
  | nil => exact .nil
  | cons x xs ih =>
    cases xs with
    | nil => exact .singleton _
    | cons y xs => exact .cons_cons rfl (ih _)

theorem locate_le {start : Nat} (h : loc ∈ locate start xs) :
    start ≤ loc.txStart ∧ loc.txStart + loc.txLen ≤ start + xs.flatten.length := by
  induction xs generalizing start with
  | nil => cases h
  | cons x xs ih =>
    rw [List.flatten_cons, List.length_append]
    rcases List.mem_cons.1 h with rfl | h
    · exact ⟨le_rfl, by simp only; omega⟩
    · obtain ⟨hge, hle⟩ := ih h
      omega

theorem locate_sizes (start : Nat) (xs : List (List UInt8)) :
    (locate start xs).map TxLoc.txLen = xs.map List.length := by
  induction xs generalizing start with
  | nil => rfl
  | cons x xs ih => rw [locate, List.map_cons, ih, List.map_cons]

theorem sizes_eq (hxs : txs.map MsgTx.btcEncode = xs.map some) :
    xs.map List.length = txs.map MsgTx.serializeSize := by
  induction txs generalizing xs with
  | nil =>
    obtain rfl := List.map_eq_nil_iff.1 hxs.symm
    rfl
  | cons tx txs ih =>
    obtain ⟨x, xs, rfl, hx, hrest⟩ := List.map_eq_cons_iff.1 hxs.symm
    rw [List.map_cons, List.map_cons, ih hrest.symm, MsgTx.length_btcEncode hx.symm]

theorem delimits_locate (hxs : txs.map MsgTx.btcEncode = xs.map some) :
    Delimits (start ++ xs.flatten ++ rest) txs (locate start.length xs) where
  slices := by
    have hslices := congrArg (List.map some) (@locate_slices start rest xs)
    rw [List.map_map] at hslices
    rw [hxs]
    exact hslices
  sizes := by rw [locate_sizes, sizes_eq hxs]
  next := locate_next _ _

/-- **The locations delimit the transactions**, those of the stake tree after the others. -/
theorem deserializeTxLoc_spec {locs sLocs : List TxLoc}
    (h : recv.deserializeTxLoc raw = some ((msg, locs, sLocs), rest)) :
    Delimits raw msg.transactions locs ∧ Delimits raw msg.sTransactions sLocs ∧
      ∀ loc ∈ locs, ∀ loc' ∈ sLocs, loc.txStart + loc.txLen ≤ loc'.txStart := by
  obtain ⟨⟨header, b⟩, hheader, h⟩ := Option.bind_eq_some_iff.1 h
  obtain ⟨head, rfl, -⟩ := accepts_blockHeader _ hheader
  obtain ⟨⟨l, b'⟩, hl, h⟩ := Option.bind_eq_some_iff.1 h
  obtain ⟨⟨l', b''⟩, hl', h⟩ := Option.bind_eq_some_iff.1 h
  obtain ⟨hres, rfl⟩ := Prod.mk.inj (Option.some.inj h)
  obtain ⟨rfl, hlocs⟩ := Prod.mk.inj hres
  cases hlocs
  obtain ⟨count, xs, rfl, hxs, hlocs⟩ := readList_deserializeAt_spec hl
  have hraw : head ++ (count ++ xs.flatten ++ b') = head ++ count ++ xs.flatten ++ b' := by
    simp only [List.append_assoc]
  rw [hraw] at hl' ⊢
  obtain ⟨count', ys, rfl, hys, hlocs'⟩ := readList_deserializeAt_spec hl'
  have hraw' : head ++ count ++ xs.flatten ++ (count' ++ ys.flatten ++ b'') =
      head ++ count ++ xs.flatten ++ count' ++ ys.flatten ++ b'' := by
    simp only [List.append_assoc]
  refine ⟨?_, ?_, ?_⟩
  · rw [hlocs]
    exact delimits_locate (by rw [List.map_map]; exact hxs)
  · rw [hlocs', hraw']
    exact delimits_locate (by rw [List.map_map]; exact hys)
  · intro loc hloc loc' hloc'
    rw [hlocs] at hloc
    rw [hlocs'] at hloc'
    have hle := (locate_le hloc).2
    have hge := (locate_le hloc').1
    simp only [List.length_append] at hle hge
    omega

/-- What is read with the locations is what is read without them. -/
theorem deserializeTxLoc_of_btcDecode (h : recv.btcDecode protocolVersion raw = some (msg, rest)) :
    ∃ locs sLocs, recv.deserializeTxLoc raw = some ((msg, locs, sLocs), rest) := by
  rw [← fst_deserializeTxLoc] at h
  obtain ⟨⟨⟨msg', locs, sLocs⟩, rest'⟩, hloc, hres⟩ := Option.bind_eq_some_iff.1 h
  cases hres
  exact ⟨locs, sLocs, hloc⟩

/-! ## The format as a whole -/

/-- The block, with the parts of its transactions that their forms carry. -/
def parts (msg : MsgBlock) : MsgBlock :=
  { msg with
    transactions := msg.transactions.map (·.carried default)
    sTransactions := msg.sTransactions.map (·.carried default) }

/-- The header is all that can be lost. -/
theorem carried_eq_parts :
    msg.carried recv = msg.parts ↔ msg.header.codechainHead = recv.header.codechainHead := by
  constructor
  · intro h
    exact (congrArg (fun m : MsgBlock => m.header.codechainHead) h).symm
  · intro h
    rw [carried, ← h]
    rfl

/-- **The encoding is canonical.** Only the bytes that are written for a transaction or a block are
accepted, and their number is `SerializeSize`; transactions and blocks within the limits are read
back, and the locations of transactions are right. But a block comes back as it was only if its
`CodechainHead` is zero: the header of the format has no place for it. -/
theorem wire_canonical (txRecv tx : MsgTx) (recv msg : MsgBlock) (pver : UInt32)
    (raw rest : List UInt8) (locs sLocs : List TxLoc) : (txRecv.btcDecode raw = some (tx, []) →
      tx.btcEncode = some raw ∧ tx.serializeSize = raw.length) ∧
    (recv.btcDecode pver raw = some (msg, []) →
      msg.btcEncode = some raw ∧ msg.serializeSize = raw.length) ∧
    (tx.Fits → ∃ enc, tx.btcEncode = some enc ∧
      txRecv.btcDecode enc = some (tx.carried txRecv, [])) ∧
    (msg.Fits pver → ∃ enc, msg.btcEncode = some enc ∧
      ((default : MsgBlock).btcDecode pver enc = some (msg.parts, []) ↔
        msg.header.codechainHead = Vector.replicate 32 0)) ∧
    (recv.deserializeTxLoc raw = some ((msg, locs, sLocs), rest) →
      Delimits raw msg.transactions locs ∧ Delimits raw msg.sTransactions sLocs ∧
        ∀ loc ∈ locs, ∀ loc' ∈ sLocs, loc.txStart + loc.txLen ≤ loc'.txStart) ∧
    (msg.Fits protocolVersion → ∃ enc locs sLocs, msg.btcEncode = some enc ∧
      recv.deserializeTxLoc enc = some ((msg.carried recv, locs, sLocs), [])) := by
  refine ⟨?_, ?_, ?_, ?_, deserializeTxLoc_spec, ?_⟩
  · intro h
    have htx := ((MsgTx.accepts_btcDecode txRecv).all h).1
    exact ⟨htx, MsgTx.length_btcEncode htx⟩
  · intro h
    have hmsg := ((accepts_btcDecode recv pver).all h).1
    exact ⟨hmsg, length_btcEncode hmsg⟩
  · intro hfits
    obtain ⟨enc, henc, hread⟩ := MsgTx.reads_btcDecode hfits txRecv
    exact ⟨enc, henc, hread.all⟩
  · intro hfits
    obtain ⟨enc, henc, hread⟩ := reads_btcDecode hfits default
    refine ⟨enc, henc, ?_⟩
    rw [hread.all, Option.some_inj, Prod.mk.injEq, and_iff_left rfl]
    exact carried_eq_parts
  · intro hfits
    obtain ⟨enc, henc, hread⟩ := reads_btcDecode hfits recv
    obtain ⟨locs, sLocs, hlocs⟩ := deserializeTxLoc_of_btcDecode hread.all
    exact ⟨enc, locs, sLocs, henc, hlocs⟩

/-- A transaction with one input and one output. -/
def sampleTx : MsgTx where
  serType := txSerializeFull
  version := 1
  txIn := [⟨⟨default, 0xffffffff, 0⟩, 0xffffffff, 7, 0, 0xffffffff, [0x51]⟩]
  txOut := [⟨7, 0, [0x76, 0xa9]⟩]
  lockTime := 0
  expiry := 0

/-- A block with the transaction, and in the stake tree the witness of it. -/
def sample : MsgBlock where
  header := default
  transactions := [sampleTx]
  sTransactions := [{ sampleTx with serType := txSerializeOnlyWitness }]

theorem wire_canonical_sample : sample.Fits protocolVersion ∧ ∃ raw, sample.btcEncode = some raw ∧
      (default : MsgBlock).btcDecode protocolVersion raw = some (sample.parts, []) := by
  have hfits : sample.Fits protocolVersion := ⟨by decide, by decide, by decide, by decide⟩
  obtain ⟨-, -, -, hblock, -⟩ := wire_canonical default default default sample protocolVersion [] []
    [] []
  obtain ⟨raw, hraw, hread⟩ := hblock hfits
  exact ⟨hfits, raw, hraw, hread.2 (by decide)⟩

/-- A block that names a state of the code in its header comes back without it. -/
theorem codechainHead_lost :
    ∃ (msg : MsgBlock) (raw : List UInt8), msg.Fits protocolVersion ∧ msg.btcEncode = some raw ∧
      (default : MsgBlock).btcDecode protocolVersion raw = some (sample.parts, []) ∧
      msg.parts ≠ sample.parts := by
  let msg : MsgBlock := { sample with header.codechainHead := Vector.replicate 32 1 }
  have hraw : sample.btcEncode.isSome = true := by decide +kernel
  obtain ⟨raw, hraw⟩ := Option.isSome_iff_exists.1 hraw
  refine ⟨msg, raw, ⟨by decide, by decide, by decide, by decide⟩, hraw, ?_, by decide⟩
  have hread : sample.btcEncode.bind ((default : MsgBlock).btcDecode protocolVersion) =
      some (sample.parts, []) := by decide +kernel
  rwa [hraw] at hread

end MsgBlock

end Fnod.Wire
