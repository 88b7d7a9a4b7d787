import Fnod.Stake.Tickets

/-!
# Package `ticketdb` and the functions of `stake` that use it

The stake database keeps the tickets of the best node in three buckets, the undo data and the new
tickets of every block of the main chain in two more, and a record of the best state. Keys and
values are byte strings; numbers are little-endian.

`writeConnectedBestNode` and `writeDisconnectedBestNode` do not write the tickets of a node: they
change the buckets by the records of the block that was connected or disconnected.
`loadBestNode` builds a node from the buckets alone.

A bucket of the underlying database is an ordered map, whose order `ForEach` follows. Every
`Db…` function runs in one transaction, so a function that fails leaves no new state.
-/

namespace Fnod

open Bytes List OrdMap

/-- A bucket: byte strings to byte strings. -/
abbrev Bucket := OrdMap (List UInt8) (List UInt8)

/-- The buckets of the stake database. -/
structure TicketDB where
  /-- The value in `StakeDbInfoBucketName`. -/
  databaseInfo : Option (List UInt8)
  /-- The value at `StakeChainStateKeyName`. -/
  chainState : Option (List UInt8)
  liveTickets : Bucket
  missedTickets : Bucket
  revokedTickets : Bucket
  blockUndoData : Bucket
  ticketsInBlock : Bucket

namespace TicketDB

/-- The bucket of one of the three sets. -/
def bucket (db : TicketDB) : TicketSet → Bucket
  | .live => db.liveTickets
  | .missed => db.missedTickets
  | .revoked => db.revokedTickets

def setBucket (db : TicketDB) (set : TicketSet) (b : Bucket) : TicketDB :=
  match set with
  | .live => { db with liveTickets := b }
  | .missed => { db with missedTickets := b }
  | .revoked => { db with revokedTickets := b }

end TicketDB

/-! ## Database information -/

/-- `DatabaseInfo`; the date is in seconds. -/
structure DatabaseInfo where
  date : Nat
  version : Nat
  upgradeStarted : Bool

def upgradeStartedBit : Nat := 0x80000000

def currentDatabaseVersion : Nat := 1

def databaseInfoSize : Nat := 8

def serializeDatabaseInfo (dbi : DatabaseInfo) : List UInt8 :=
  let version := if dbi.upgradeStarted then dbi.version ||| upgradeStartedBit else dbi.version
  putLE 4 version ++ putLE 4 dbi.date

variable (b : List UInt8) (db : TicketDB) (set : TicketSet) (height : Nat)

def deserializeDatabaseInfo : Except StakeError DatabaseInfo :=
  if b.length < databaseInfoSize then .error .databaseInfoShortRead
  else
    let rawVersion := getLE (b.take 4)
    .ok
      { version := rawVersion % upgradeStartedBit
        date := getLE ((b.drop 4).take 4)
        upgradeStarted := rawVersion &&& upgradeStartedBit > 0 }

theorem deserializeDatabaseInfo_serialize (dbi : DatabaseInfo) :
    ∃ i, deserializeDatabaseInfo (serializeDatabaseInfo dbi) = .ok i :=
  ⟨_, if_neg (by simp [serializeDatabaseInfo, databaseInfoSize])⟩

def dbFetchDatabaseInfo : Except StakeError DatabaseInfo :=
  match db.databaseInfo with
  | none => .error .missingKey
  | some v => deserializeDatabaseInfo v

/-! ## The best state -/

structure BestChainState where
  hash : Hash
  height : Nat
  live : Nat
  missed : Nat
  revoked : Nat
  perBlock : Nat
  nextWinners : List Hash
deriving DecidableEq

def minimumBestChainStateSize : Nat := hashSize + 4 + 4 + 8 + 8 + 2

/-- `serializeBestChainState`: more winners than tickets per block are a panic. -/
def serializeBestChainState (state : BestChainState) : Except StakeError (List UInt8) :=
  if state.nextWinners.length ≤ state.perBlock then
    .ok (state.hash.bytes ++ putLE 4 state.height ++ putLE 4 state.live ++ putLE 8 state.missed ++
      putLE 8 state.revoked ++ putLE 2 state.perBlock ++
      (state.nextWinners.flatMap Hash.bytes ++
        List.replicate (hashSize * (state.perBlock - state.nextWinners.length)) 0))
  else .error .panicked

/-- Pieces of a byte string as hashes. -/
def readHashes (n : Nat) (b : List UInt8) : Option (List Hash) := (chunks hashSize n b).mapM newHash

/-- `deserializeBestChainState`: reading past the end is a panic. -/
def deserializeBestChainState : Except StakeError BestChainState :=
  if b.length < minimumBestChainStateSize then .error .chainStateShortRead
  else
    let perBlock := getLE ((b.drop (hashSize + 24)).take 2)
    match newHash (b.take hashSize), readHashes perBlock (b.drop minimumBestChainStateSize) with
    | some hash, some nextWinners =>
        .ok
          { hash := hash
            height := getLE ((b.drop hashSize).take 4)
            live := getLE ((b.drop (hashSize + 4)).take 4)
            missed := getLE ((b.drop (hashSize + 8)).take 8)
            revoked := getLE ((b.drop (hashSize + 16)).take 8)
            perBlock := perBlock
            nextWinners := nextWinners }
    | _, _ => .error .panicked

def dbFetchBestState : Except StakeError BestChainState :=
  match db.chainState with
  | none => .error .missingKey
  | some v => deserializeBestChainState v

def dbPutBestState (state : BestChainState) : Except StakeError TicketDB := do
  let v ← serializeBestChainState state
  .ok { db with chainState := some v }

theorem mapM_newHash (l : List Hash) : (l.map Hash.bytes).mapM newHash = some l := by
  induction l with
  | nil => rfl
  | cons a l ih => rw [map_cons, mapM_cons, newHash_bytes, ih]; rfl

theorem readHashes_flatMap (l : List Hash) :
    readHashes l.length (l.flatMap Hash.bytes) = some l := by
  have h := chunks_flatMap Hash.size l []
  rw [append_nil] at h
  rw [readHashes, h, mapM_newHash]

/-- **The best state is read back**, if its numbers fit and there are as many winners as tickets
per block. -/
theorem deserializeBestChainState_serialize {state : BestChainState} {b : List UInt8}
    (hh : state.height < 2 ^ 32) (hl : state.live < 2 ^ 32) (hm : state.missed < 2 ^ 64)
    (hr : state.revoked < 2 ^ 64) (hp : state.perBlock < 2 ^ 16)
    (hw : state.nextWinners.length = state.perBlock) (h : serializeBestChainState state = .ok b) :
    deserializeBestChainState b = .ok state := by
  have e1 : getLE (putLE 4 state.height) = state.height := getLE_putLE_of_lt (by omega)
  have e2 : getLE (putLE 4 state.live) = state.live := getLE_putLE_of_lt (by omega)
  have e3 : getLE (putLE 8 state.missed) = state.missed := getLE_putLE_of_lt (by omega)
  have e4 : getLE (putLE 8 state.revoked) = state.revoked := getLE_putLE_of_lt (by omega)
  have e5 : getLE (putLE 2 state.perBlock) = state.perBlock := getLE_putLE_of_lt (by omega)
  have hsize := state.hash.size
  unfold serializeBestChainState at h
  rw [if_pos hw.le, hw, Nat.sub_self, mul_zero, replicate_zero, append_nil] at h
  have hlen : (state.hash.bytes ++ putLE 4 state.height ++ putLE 4 state.live ++
      putLE 8 state.missed ++ putLE 8 state.revoked ++ putLE 2 state.perBlock).length =
      minimumBestChainStateSize := by simp [hsize, minimumBestChainStateSize]
  have hrest : readHashes state.perBlock (b.drop minimumBestChainStateSize) =
      some state.nextWinners := by
    rw [← Except.ok.inj h, ← hlen, drop_left, ← hw, readHashes_flatMap]
  have hlong : ¬ b.length < minimumBestChainStateSize := by
    rw [← Except.ok.inj h, length_append, hlen]
    omega
  -- Each field between the ones before it and the ones after it.
  have f0 : b.take hashSize = state.hash.bytes := by
    simp only [← Except.ok.inj h, append_assoc]
    rw [← hsize, take_left]
  have f1 : (b.drop hashSize).take 4 = putLE 4 state.height := by
    rw [← Except.ok.inj h]
    simpa only [append_assoc] using
      take_drop_append (a := state.hash.bytes) hsize (length_putLE 4 _)
  have f2 : (b.drop (hashSize + 4)).take 4 = putLE 4 state.live := by
    rw [← Except.ok.inj h]
    simpa only [append_assoc] using
      take_drop_append (a := state.hash.bytes ++ putLE 4 state.height) (i := hashSize + 4)
        (by simp [hsize]) (length_putLE 4 _)
  have f3 : (b.drop (hashSize + 8)).take 8 = putLE 8 state.missed := by
    rw [← Except.ok.inj h]
    simpa only [append_assoc] using
      take_drop_append (a := state.hash.bytes ++ putLE 4 state.height ++ putLE 4 state.live)
        (i := hashSize + 8) (by simp [hsize]) (length_putLE 8 _)
  have f4 : (b.drop (hashSize + 16)).take 8 = putLE 8 state.revoked := by
    rw [← Except.ok.inj h]
    simpa only [append_assoc] using
      take_drop_append (a := state.hash.bytes ++ putLE 4 state.height ++ putLE 4 state.live ++
        putLE 8 state.missed) (i := hashSize + 16) (by simp [hsize]) (length_putLE 8 _)
  have f5 : (b.drop (hashSize + 24)).take 2 = putLE 2 state.perBlock := by
    rw [← Except.ok.inj h]
    exact take_drop_append (by simp [hsize]) (length_putLE 2 _)
  unfold deserializeBestChainState
  rw [if_neg hlong]
  simp only [f0, f1, f2, f3, f4, f5, e1, e2, e3, e4, e5, hrest, newHash_bytes]

/-! ## Undo data and new tickets -/

def undoTicketDataSize : Nat := 37

def undoBitFlagsToByte (missed revoked spent expired : Bool) : UInt8 :=
  (if missed then 1 else 0) ||| (if revoked then 2 else 0) ||| (if spent then 4 else 0) |||
    if expired then 8 else 0

/-- The flags of a byte, put on a ticket of the given height: `undoBitFlagsFromByte`. -/
def undoBitFlagsFromByte (b : UInt8) : TicketValue where
  height := height
  missed := b &&& 1 > 0
  revoked := b &&& 2 > 0
  spent := b &&& 4 > 0
  expired := b &&& 8 > 0

theorem flags_toByte : ∀ m r s e : Bool,
    decide (undoBitFlagsToByte m r s e &&& 1 > 0) = m ∧
      decide (undoBitFlagsToByte m r s e &&& 2 > 0) = r ∧
      decide (undoBitFlagsToByte m r s e &&& 4 > 0) = s ∧
      decide (undoBitFlagsToByte m r s e &&& 8 > 0) = e := by
  decide

theorem undoBitFlagsFromByte_toByte (v : TicketValue) :
    undoBitFlagsFromByte v.height (undoBitFlagsToByte v.missed v.revoked v.spent v.expired) =
      v := by
  obtain ⟨h1, h2, h3, h4⟩ := flags_toByte v.missed v.revoked v.spent v.expired
  simp only [undoBitFlagsFromByte, h1, h2, h3, h4]

/-- One record of `serializeBlockUndoData`. -/
def serializeUndoTicketData (utd : UndoTicketData) : List UInt8 :=
  utd.ticketHash.bytes ++ putLE 4 utd.ticketHeight ++
    [undoBitFlagsToByte utd.missed utd.revoked utd.spent utd.expired]

def serializeBlockUndoData (utds : List UndoTicketData) : List UInt8 :=
  utds.flatMap serializeUndoTicketData

/-- One record of `deserializeBlockUndoData`. -/
def deserializeUndoTicketData : Except StakeError UndoTicketData :=
  match newHash (b.take hashSize) with
  | none => .error .undoDataCorrupt
  | some hash =>
      .ok (undoOf hash (undoBitFlagsFromByte (getLE ((b.drop hashSize).take 4))
        ((b.drop (hashSize + 4)).headD 0)))

def deserializeBlockUndoData : Except StakeError (List UndoTicketData) :=
  if b.length = 0 then .ok []
  else if b.length < undoTicketDataSize then .error .undoDataShortRead
  else if b.length % undoTicketDataSize ≠ 0 then .error .undoDataCorrupt
  else (chunks undoTicketDataSize (b.length / undoTicketDataSize) b).mapM deserializeUndoTicketData

theorem length_serializeUndoTicketData (u : UndoTicketData) :
    (serializeUndoTicketData u).length = undoTicketDataSize := by
  simp [serializeUndoTicketData, u.ticketHash.size, hashSize, undoTicketDataSize]

theorem deserializeUndoTicketData_serialize {u : UndoTicketData} (hu : u.ticketHeight < 2 ^ 32) :
    deserializeUndoTicketData (serializeUndoTicketData u) = .ok u := by
  have hh : getLE (putLE 4 u.ticketHeight) = u.ticketHeight := getLE_putLE_of_lt (by omega)
  have hsize := u.ticketHash.size
  have hlen : (u.ticketHash.bytes ++ putLE 4 u.ticketHeight).length = hashSize + 4 := by
    simp [hsize]
  unfold deserializeUndoTicketData serializeUndoTicketData
  rw [take_drop_append hsize (length_putLE 4 _), ← hlen, drop_left, hh, append_assoc, ← hsize,
    take_left, newHash_bytes]
  exact congrArg (fun v => Except.ok (undoOf u.ticketHash v)) (undoBitFlagsFromByte_toByte u.value)

/-- **Undo data is read back.** -/
theorem deserializeBlockUndoData_serialize {us : List UndoTicketData}
    (hus : ∀ u ∈ us, u.ticketHeight < 2 ^ 32) :
    deserializeBlockUndoData (serializeBlockUndoData us) = .ok us := by
  have hlen := length_flatMap_const length_serializeUndoTicketData us
  have hchunks := chunks_flatMap length_serializeUndoTicketData us []
  have hpos : 0 < undoTicketDataSize := by decide
  rw [append_nil] at hchunks
  unfold deserializeBlockUndoData serializeBlockUndoData
  rw [hlen, Nat.mul_div_cancel _ hpos, hchunks]
  have hall : (us.map serializeUndoTicketData).mapM deserializeUndoTicketData = .ok us :=
    Except.mapM_eq_ok.2 (forall₂_map_left_iff.2 (forall₂_same.2 fun u hu =>
      deserializeUndoTicketData_serialize (hus u hu)))
  rcases Nat.eq_zero_or_pos us.length with h0 | h0
  · rw [length_eq_zero_iff.1 h0]
    rfl
  · have hge : undoTicketDataSize ≤ us.length * undoTicketDataSize := Nat.le_mul_of_pos_left _ h0
    rw [if_neg (by omega), if_neg (by omega), if_neg (by simp), hall]

def heightKey : List UInt8 := putLE 4 height

def dbFetchBlockUndoData : Except StakeError (List UndoTicketData) :=
  match db.blockUndoData.get? (heightKey height) with
  | none => .error .missingKey
  | some v => deserializeBlockUndoData v

def dbPutBlockUndoData (utds : List UndoTicketData) : TicketDB :=
  { db with
    blockUndoData := db.blockUndoData.insert (heightKey height) (serializeBlockUndoData utds) }

def dbDropBlockUndoData : TicketDB :=
  { db with blockUndoData := db.blockUndoData.erase (heightKey height) }

def serializeTicketHashes (ths : List Hash) : List UInt8 := ths.flatMap Hash.bytes

def deserializeTicketHashes : Except StakeError (List Hash) :=
  if b.length = 0 then .ok []
  else if b.length < hashSize then .error .ticketHashesShortRead
  else if b.length % hashSize ≠ 0 then .error .ticketHashesCorrupt
  else
    match readHashes (b.length / hashSize) b with
    | none => .error .undoDataCorrupt
    | some ths => .ok ths

/-- **Ticket hashes are read back.** -/
theorem deserializeTicketHashes_serialize (ths : List Hash) :
    deserializeTicketHashes (serializeTicketHashes ths) = .ok ths := by
  have hlen := length_flatMap_const Hash.size ths
  have hpos : 0 < hashSize := by decide
  unfold deserializeTicketHashes serializeTicketHashes
  rw [hlen, Nat.mul_div_cancel _ hpos, readHashes_flatMap]
  rcases Nat.eq_zero_or_pos ths.length with h0 | h0
  · rw [length_eq_zero_iff.1 h0]
    rfl
  · have hge : hashSize ≤ ths.length * hashSize := Nat.le_mul_of_pos_left _ h0
    rw [if_neg (by omega), if_neg (by omega), if_neg (by simp)]

def dbFetchNewTickets : Except StakeError (List Hash) :=
  match db.ticketsInBlock.get? (heightKey height) with
  | none => .error .missingKey
  | some v => deserializeTicketHashes v

def dbPutNewTickets (ths : List Hash) : TicketDB :=
  { db with
    ticketsInBlock := db.ticketsInBlock.insert (heightKey height) (serializeTicketHashes ths) }

def dbDropNewTickets : TicketDB :=
  { db with ticketsInBlock := db.ticketsInBlock.erase (heightKey height) }

/-- What `disconnectNode` looks up when it is not passed the data of the parent. -/
def dbFetchParentData : Except StakeError (List UndoTicketData × List Hash) := do
  let utds ← dbFetchBlockUndoData db height
  let tickets ← dbFetchNewTickets db height
  .ok (utds, tickets)

/-! ## Tickets -/

/-- The value of a ticket in its bucket. -/
def serializeTicketValue (v : TicketValue) : List UInt8 :=
  putLE 4 v.height ++ [undoBitFlagsToByte v.missed v.revoked v.spent v.expired]

/-- `DbDeleteTicket`: fails if the ticket is not there. -/
def dbDeleteTicket (hash : Hash) : Except StakeError TicketDB :=
  match (db.bucket set).get? hash.bytes with
  | none => .error .missingKey
  | some _ => .ok (db.setBucket set ((db.bucket set).erase hash.bytes))

def dbPutTicket (hash : Hash) (v : TicketValue) : TicketDB :=
  db.setBucket set ((db.bucket set).insert hash.bytes (serializeTicketValue v))

/-- One round of `DbLoadAllTickets`. -/
def loadTicket (treap : Immutable) (entry : List UInt8 × List UInt8) :
    Except StakeError Immutable :=
  if entry.2.length < 5 then .error .loadAllTickets
  else
    match newHash entry.1 with
    | none => .error .loadAllTickets
    | some h =>
        .ok (treap.put h (undoBitFlagsFromByte (getLE (entry.2.take 4))
          ((entry.2.drop 4).headD 0)))

def dbLoadAllTickets : Except StakeError Immutable :=
  (db.bucket set).toList.foldlM loadTicket Immutable.new

/-! ## Nodes and the database -/

/-- The winners as they are stored: none are stored before they are drawn, and fewer than
`TicketsPerBlock` afterwards are a panic. -/
def storedWinners {M : Type} (params : Params) (node : StakeNode M) :
    Except StakeError (List Hash) :=
  if node.height ≥ params.stakeValidationHeight - 1 then
    if node.nextWinners.length < params.ticketsPerBlock then .error .panicked
    else .ok (node.nextWinners.take params.ticketsPerBlock)
  else .ok (List.replicate params.ticketsPerBlock default)

section

variable {M : Type} [TicketMap M]

variable (params : Params) (db : TicketDB) (node : StakeNode M) (hash : Hash)

/-- The end of both `Write…BestNode`: undo data, new tickets and best state. -/
def writeBestNode : Except StakeError TicketDB := do
  let db := dbPutBlockUndoData db node.height node.databaseUndoUpdate
  let db := dbPutNewTickets db node.height node.databaseBlockTickets
  let winners ← storedWinners params node
  dbPutBestState db
    { hash := hash
      height := node.height
      live := TicketMap.len node.liveTickets
      missed := TicketMap.len node.missedTickets
      revoked := TicketMap.len node.revokedTickets
      perBlock := params.ticketsPerBlock
      nextWinners := winners }

/-- One record of `WriteConnectedBestNode`. -/
def writeConnectedTicket (undo : UndoTicketData) : Except StakeError TicketDB :=
  let k := undo.ticketHash
  let v := undo.value
  if !undo.missed && !undo.revoked && !undo.spent then .ok (dbPutTicket db .live k v)
  else if undo.missed && undo.revoked then do
    let db ← dbDeleteTicket db .missed k
    .ok (dbPutTicket db .revoked k v)
  else if undo.missed && !undo.revoked then do
    let db ← dbDeleteTicket db .live k
    .ok (dbPutTicket db .missed k { v with missed := true })
  else if undo.spent then dbDeleteTicket db .live k
  else .error .memoryCorruption

def writeConnectedBestNode : Except StakeError TicketDB := do
  let db ← node.databaseUndoUpdate.foldlM writeConnectedTicket db
  writeBestNode params db node hash

/-- One record of `WriteDisconnectedBestNode`. -/
def writeDisconnectedTicket (undo : UndoTicketData) : Except StakeError TicketDB :=
  let k := undo.ticketHash
  let v := undo.value
  if !undo.missed && !undo.revoked && !undo.spent then dbDeleteTicket db .live k
  else if undo.missed && undo.revoked then do
    let db ← dbDeleteTicket db .revoked k
    .ok (dbPutTicket db .missed k { v with revoked := false })
  else if undo.missed && !undo.revoked then do
    let db ← dbDeleteTicket db .missed k
    .ok (dbPutTicket db .live k { v with missed := false, expired := false })
  else if undo.spent then .ok (dbPutTicket db .live k { v with spent := false })
  else .error .memoryCorruption

/-- Drop the undo data and the new tickets of the `n` heights above `height`, from the top. -/
def dropAbove (db : TicketDB) (height : Nat) : Nat → TicketDB
  | 0 => db
  | n + 1 =>
      let db := dbDropBlockUndoData db (height + n + 1)
      let db := dbDropNewTickets db (height + n + 1)
      dropAbove db height n

def writeDisconnectedBestNode
    (childUndoData : List UndoTicketData) : Except StakeError TicketDB := do
  let formerBest ← dbFetchBestState db
  let db := dropAbove db node.height (formerBest.height - node.height)
  let db ← childUndoData.foldlM writeDisconnectedTicket db
  writeBestNode params db node hash

end

/-- `InitDatabaseState`: the buckets of the genesis node. -/
def initDatabaseState (params : Params) (genesisHash : Hash) (now : Nat) :
    Except StakeError (StakeNode Immutable × TicketDB) := do
  let info : DatabaseInfo :=
    { date := now, version := currentDatabaseVersion, upgradeStarted := false }
  let db : TicketDB :=
    { databaseInfo := some (serializeDatabaseInfo info)
      chainState := none
      liveTickets := empty
      missedTickets := empty
      revokedTickets := empty
      blockUndoData := empty
      ticketsInBlock := empty }
  -- The genesis block is too low for winners, so empty ones are stored.
  let db ← writeBestNode params db (genesisNode : StakeNode Immutable) genesisHash
  .ok (genesisNode, db)

/-- A loaded set must be as large as the best state says. -/
def checkLen (treap : Immutable) (len : Nat) : Except StakeError Unit :=
  if treap.len = len then .ok () else .error .databaseCorrupt

/-- The end of `LoadBestNode`: winners and checksum. -/
def loadWinners [Blake256] (fuel : Nat) (params : Params) (state : BestChainState)
    (header : List UInt8) (node : StakeNode Immutable) : Except StakeError (StakeNode Immutable) :=
  if node.height ≥ params.stakeValidationHeight - 1 then do
    let (_, prng) ← findTicketIdxs fuel node.liveTickets.len params.ticketsPerBlock
      (newHash256PRNG header)
    .ok { node with
      nextWinners := state.nextWinners
      finalState := lotteryState state.nextWinners prng }
  else .ok node

def loadBestNode [Blake256] (fuel : Nat) (params : Params) (db : TicketDB) (height : Nat)
    (blockHash : Hash) (header : List UInt8) : Except StakeError (StakeNode Immutable) := do
  let _ ← dbFetchDatabaseInfo db
  let state ← dbFetchBestState db
  if state.hash ≠ blockHash ∨ state.height ≠ height then .error .databaseCorrupt
  else
    let live ← dbLoadAllTickets db .live
    checkLen live state.live
    let missed ← dbLoadAllTickets db .missed
    checkLen missed state.missed
    let revoked ← dbLoadAllTickets db .revoked
    checkLen revoked state.revoked
    let utds ← dbFetchBlockUndoData db height
    let tickets ← dbFetchNewTickets db height
    loadWinners fuel params state header
      { height := height
        liveTickets := live
        missedTickets := missed
        revokedTickets := revoked
        databaseUndoUpdate := utds
        databaseBlockTickets := tickets
        nextWinners := []
        finalState := zeroFinalState }

end Fnod
