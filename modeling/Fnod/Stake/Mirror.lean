import Fnod.Stake.TicketDB
import Fnod.Stake.Undo

/-!
# The stake database mirrors the node

The buckets of the database hold the tickets of the best node in serialized form. Connecting a
block changes them by the block's records, which is the move each record tells of; disconnecting a
block undoes the records on the buckets as `disconnectNode` does on the node. So the two stay
together; `Fnod.Stake.StakeRun` follows them along a run.

* `Mirrors.connect`, `Mirrors.disconnect` — neither write fails, and both keep the mirror.
* `Mirrors.load` — the node is loaded back.
-/

namespace Fnod

open Bytes Except List OrdMap

/-! ## Tickets in a bucket -/

/-- The bucket that holds the given tickets. -/
def encodeTickets (t : Tickets) : Bucket :=
  t.mapEntries Hash.bytes serializeTicketValue fun _ _ h => h

variable (set : TicketSet) (t : Tickets) (k : Hash) {db : TicketDB} {v : TicketValue}
  {n : StakeNode Immutable} {m c c' : StakeNode Tickets}

theorem get?_encodeTickets : (encodeTickets t).get? k.bytes = (t.get? k).map serializeTicketValue :=
  get?_mapEntries _ t k

theorem encodeTickets_insert (v : TicketValue) :
    encodeTickets (t.insert k v) = (encodeTickets t).insert k.bytes (serializeTicketValue v) :=
  mapEntries_insert _ t k v

theorem encodeTickets_erase : encodeTickets (t.erase k) = (encodeTickets t).erase k.bytes :=
  mapEntries_erase _ t k

theorem loadTicket_encode (hv : v.height < 2 ^ 32) (treap : Immutable)
    (k : Hash) : loadTicket treap (k.bytes, serializeTicketValue v) = .ok (treap.put k v) := by
  have hh : getLE (putLE 4 v.height) = v.height := getLE_putLE_of_lt (by omega)
  unfold loadTicket serializeTicketValue
  rw [if_neg (by simp), newHash_bytes]
  simp only
  rw [show (putLE 4 v.height ++ [undoBitFlagsToByte v.missed v.revoked v.spent v.expired]).take 4 =
      putLE 4 v.height from take_left' (length_putLE 4 _),
    show (putLE 4 v.height ++ [undoBitFlagsToByte v.missed v.revoked v.spent v.expired]).drop 4 =
      [undoBitFlagsToByte v.missed v.revoked v.spent v.expired] from
        drop_left' (length_putLE 4 _), hh]
  exact congrArg (fun v => Except.ok (treap.put k v)) (undoBitFlagsFromByte_toByte v)

/-- The loop of `dbLoadAllTickets`, over entries whose keys are new to the treap. -/
theorem loadTickets_encode {l : List (Hash × TicketValue)} {treap : Immutable} {m : Tickets}
    (hl : (l.map Prod.fst).Nodup) (hheight : ∀ a ∈ l, a.2.height < 2 ^ 32)
    (hm : ∀ a ∈ l, m.get? a.1 = none) (h : TreapSim treap m) :
    ∃ treap', (l.map fun a => (a.1.bytes, serializeTicketValue a.2)).foldlM loadTicket treap =
      .ok treap' ∧ TreapSim treap' (l.foldl (fun m a => m.insert a.1 a.2) m) := by
  induction l generalizing treap m with
  | nil => exact ⟨treap, rfl, h⟩
  | cons a l ih =>
    obtain ⟨hnot, hl⟩ := nodup_cons.1 hl
    have hnone : TicketMap.has m a.1 = false := by
      show (m.get? a.1).isSome = false
      rw [hm a mem_cons_self]
      rfl
    obtain ⟨treap', h', hsim⟩ := ih hl (forall_mem_cons.1 hheight).2
      (m := m.insert a.1 a.2)
      (fun b hb => by
        have hne : b.1 ≠ a.1 := fun he => hnot (he ▸ mem_map_of_mem hb)
        rw [get?_insert, if_neg hne]
        exact hm b (mem_cons_of_mem _ hb))
      (h.put hnone a.2)
    refine ⟨treap', foldlM_cons_eq_ok.2 ⟨_, ?_, h'⟩, hsim⟩
    exact loadTicket_encode (hheight a mem_cons_self) treap a.1

variable {t : Tickets} {s s' : Pool} {u : UndoTicketData} {us : List UndoTicketData} {fuel : Nat}
  {params : Params} {bs : List StakeBlock}

theorem dbLoadAllTickets_encode {db : TicketDB}
    (h : db.bucket set = encodeTickets t) (hheight : ∀ k v, t.get? k = some v → v.height < 2 ^ 32) :
    ∃ treap, dbLoadAllTickets db set = .ok treap ∧ TreapSim treap t := by
  obtain ⟨treap, h', hsim⟩ := loadTickets_encode t.keys_nodup
    (fun a ha => hheight a.1 a.2 (mem_toList.1 ha)) (fun a _ => get?_empty a.1) TreapSim.new
  rw [foldl_insert_toList] at hsim
  refine ⟨treap, ?_, hsim⟩
  unfold dbLoadAllTickets
  rw [h]
  exact h'

/-! ## Records written to the buckets -/

/-- The buckets hold the tickets of the pool. -/
structure DbSim (db : TicketDB) (s : Pool) : Prop where
  live : db.liveTickets = encodeTickets s.live
  missed : db.missedTickets = encodeTickets s.missed
  revoked : db.revokedTickets = encodeTickets s.revoked

/-- The two databases differ in the tickets only. -/
structure SameRecords (db db' : TicketDB) : Prop where
  info : db'.databaseInfo = db.databaseInfo
  state : db'.chainState = db.chainState
  undo : db'.blockUndoData = db.blockUndoData
  tickets : db'.ticketsInBlock = db.ticketsInBlock

namespace SameRecords

variable {db db' db'' : TicketDB}

theorem refl (db : TicketDB) : SameRecords db db := ⟨rfl, rfl, rfl, rfl⟩

theorem trans (h : SameRecords db db') (h' : SameRecords db' db'') : SameRecords db db'' :=
  ⟨h'.info.trans h.info, h'.state.trans h.state, h'.undo.trans h.undo,
    h'.tickets.trans h.tickets⟩

theorem setBucket (db : TicketDB) (set : TicketSet) (b : Bucket) :
    SameRecords db (db.setBucket set b) := by
  cases set <;> exact ⟨rfl, rfl, rfl, rfl⟩

end SameRecords

/-- A ticket that is in the set is in its bucket. -/
theorem dbDeleteTicket_encode {k : Hash}
    (h : db.bucket set = encodeTickets t) (hk : t.get? k = some v) :
    dbDeleteTicket db set k = .ok (db.setBucket set (encodeTickets (t.erase k))) := by
  unfold dbDeleteTicket
  rw [h, get?_encodeTickets, hk, encodeTickets_erase]
  rfl

theorem dbPutTicket_encode (h : db.bucket set = encodeTickets t) (k : Hash) (v : TicketValue) :
    dbPutTicket db set k v = db.setBucket set (encodeTickets (t.insert k v)) := by
  unfold dbPutTicket
  rw [h, encodeTickets_insert]

theorem dbMoveTicket_encode (src dst : TicketSet) (hne : dst ≠ src)
    {t' : Tickets} {k : Hash} (h : db.bucket src = encodeTickets t)
    (h' : db.bucket dst = encodeTickets t') (hk : t.get? k = some v) (v' : TicketValue) : (do
      let db ← dbDeleteTicket db src k
      Except.ok (dbPutTicket db dst k v')) =
      .ok ((db.setBucket src (encodeTickets (t.erase k))).setBucket dst
        (encodeTickets (t'.insert k v'))) := by
  have hkeep : (db.setBucket src (encodeTickets (t.erase k))).bucket dst = encodeTickets t' := by
    rw [← h']
    cases src <;> cases dst <;> first | rfl | exact absurd rfl hne
  rw [dbDeleteTicket_encode src h hk, ok_bind, dbPutTicket_encode dst hkeep]

section Shapes

variable (db : TicketDB) {k : Hash} {v : TicketValue}

/-! The branch that each kind of record takes. -/

theorem writeConnectedTicket_new (n : Nat) :
    writeConnectedTicket db (undoOf k ⟨n, false, false, false, false⟩) =
      .ok (dbPutTicket db .live k ⟨n, false, false, false, false⟩) := rfl

theorem writeConnectedTicket_spent (hv : v.IsLive) :
    writeConnectedTicket db (undoOf k { v with spent := true }) = dbDeleteTicket db .live k := by
  simp [writeConnectedTicket, undoOf, hv.1]

theorem writeConnectedTicket_missed (hv : v.IsLive) (e : Bool) :
    writeConnectedTicket db (undoOf k { v with missed := true, expired := e }) =
      (do
        let db ← dbDeleteTicket db .live k
        .ok (dbPutTicket db .missed k { v with missed := true, expired := e })) := by
  simp [writeConnectedTicket, undoOf, UndoTicketData.value, hv.2.1]

theorem writeConnectedTicket_revoked (hv : v.IsMissed) :
    writeConnectedTicket db (undoOf k { v with revoked := true }) =
      (do
        let db ← dbDeleteTicket db .missed k
        .ok (dbPutTicket db .revoked k { v with revoked := true })) := by
  simp [writeConnectedTicket, undoOf, UndoTicketData.value, hv.1]

end Shapes

/-- One record of a connected block makes its move on the buckets. -/
theorem writeConnectedTicket_sim (h : DbSim db s) (hu : Fits s u) :
    ∃ db', writeConnectedTicket db u = .ok db' ∧ DbSim db' (redo s u) ∧ SameRecords db db' := by
  cases hu with
  | new hk =>
    rw [redo_new, writeConnectedTicket_new, dbPutTicket_encode .live h.live]
    exact ⟨_, rfl, ⟨rfl, h.missed, h.revoked⟩, SameRecords.setBucket db .live _⟩
  | spent hk hv =>
    rw [redo_spent hv, writeConnectedTicket_spent db hv, dbDeleteTicket_encode .live h.live hk]
    exact ⟨_, rfl, ⟨rfl, h.missed, h.revoked⟩, SameRecords.setBucket db .live _⟩
  | missed e hk hv hm =>
    rw [redo_missed hv, writeConnectedTicket_missed db hv,
      dbMoveTicket_encode .live .missed nofun h.live h.missed hk]
    exact ⟨_, rfl, ⟨rfl, rfl, h.revoked⟩,
      (SameRecords.setBucket db .live _).trans (SameRecords.setBucket _ .missed _)⟩
  | revoked hk hv hm =>
    rw [redo_revoked hv, writeConnectedTicket_revoked db hv,
      dbMoveTicket_encode .missed .revoked nofun h.missed h.revoked hk]
    exact ⟨_, rfl, ⟨h.live, rfl, rfl⟩,
      (SameRecords.setBucket db .missed _).trans (SameRecords.setBucket _ .revoked _)⟩

theorem writeConnected_sim (h : DbSim db s) (hst : Steps s us s') :
    ∃ db', us.foldlM writeConnectedTicket db = .ok db' ∧ DbSim db' s' ∧ SameRecords db db' := by
  induction hst with
  | nil => exact ⟨db, rfl, h, .refl db⟩
  | @snoc us s' u _ hu ih =>
    obtain ⟨db₁, h₁, hsim₁, hrest₁⟩ := ih
    obtain ⟨db₂, h₂, hsim₂, hrest₂⟩ := writeConnectedTicket_sim hsim₁ hu
    refine ⟨db₂, ?_, hsim₂, hrest₁.trans hrest₂⟩
    rw [foldlM_append, h₁, ok_bind, foldlM_cons, h₂]
    rfl

/-- One record of a disconnected block is undone on the buckets as on the node. -/
theorem writeDisconnectedTicket_sim (h : DbSim db c.pool) (hc : undoTicket c u = .ok c') :
    ∃ db', writeDisconnectedTicket db u = .ok db' ∧ DbSim db' c'.pool ∧ SameRecords db db' := by
  unfold undoTicket at hc
  unfold writeDisconnectedTicket
  simp only at hc ⊢
  generalize
    (if u.expired = true then c.nextWinners else c.nextWinners ++ [u.ticketHash]) = ws at hc
  split_ifs at hc ⊢
  · obtain ⟨⟨v, hv⟩, hc⟩ := of_bind_eq_ok hc safeDelete_eq_ok.1
    cases hc
    rw [dbDeleteTicket_encode .live h.live hv]
    exact ⟨_, rfl, ⟨rfl, h.missed, h.revoked⟩, SameRecords.setBucket db .live _⟩
  · obtain ⟨⟨v, hv⟩, hc⟩ := of_bind_eq_ok hc safeDelete_eq_ok.1
    obtain ⟨-, hc⟩ := of_bind_eq_ok hc safePut_eq_ok.1
    cases hc
    rw [dbMoveTicket_encode .revoked .missed nofun h.revoked h.missed hv]
    exact ⟨_, rfl, ⟨h.live, rfl, rfl⟩,
      (SameRecords.setBucket db .revoked _).trans (SameRecords.setBucket _ .missed _)⟩
  · obtain ⟨⟨v, hv⟩, hc⟩ := of_bind_eq_ok hc safeDelete_eq_ok.1
    obtain ⟨-, hc⟩ := of_bind_eq_ok hc safePut_eq_ok.1
    cases hc
    rw [dbMoveTicket_encode .missed .live nofun h.missed h.live hv]
    exact ⟨_, rfl, ⟨rfl, rfl, h.revoked⟩,
      (SameRecords.setBucket db .missed _).trans (SameRecords.setBucket _ .live _)⟩
  · obtain ⟨-, hc⟩ := of_bind_eq_ok hc safePut_eq_ok.1
    cases hc
    rw [dbPutTicket_encode .live h.live]
    exact ⟨_, rfl, ⟨rfl, h.missed, h.revoked⟩, SameRecords.setBucket db .live _⟩

theorem writeDisconnected_sim (h : DbSim db c.pool) (hc : us.foldlM undoTicket c = .ok c') :
    ∃ db', us.foldlM writeDisconnectedTicket db = .ok db' ∧ DbSim db' c'.pool ∧
      SameRecords db db' := by
  induction us generalizing db c with
  | nil => cases hc; exact ⟨db, rfl, h, .refl db⟩
  | cons u us ih =>
    obtain ⟨c₁, h₁, hc⟩ := foldlM_cons_eq_ok.1 hc
    obtain ⟨db₁, hdb₁, hsim₁, hrest₁⟩ := writeDisconnectedTicket_sim h h₁
    obtain ⟨db₂, hdb₂, hsim₂, hrest₂⟩ := ih hsim₁ hc
    exact ⟨db₂, foldlM_cons_eq_ok.2 ⟨db₁, hdb₁, hdb₂⟩, hsim₂, hrest₁.trans hrest₂⟩

/-! ## The numbers fit -/

/-- No ticket is from above the given height. -/
def Pool.Below (s : Pool) (h : Nat) : Prop := ∀ p v, s.slot p = some v → v.height ≤ h

/-- How many tickets there are in the three sets. -/
def Pool.total (s : Pool) : Nat := s.live.size + s.missed.size + s.revoked.size

theorem Pool.Below.live {h : Nat} (hs : s.Below h) {k : Hash} {v : TicketValue}
    (hk : s.live.get? k = some v) : v.height ≤ h := hs (.live, k) v hk

theorem Pool.Below.missed {s : Pool} {h : Nat} (hs : s.Below h) {k : Hash} {v : TicketValue}
    (hk : s.missed.get? k = some v) : v.height ≤ h := hs (.missed, k) v hk

/-- A record is of a ticket in the pool, or of a new one. -/
theorem Fits.height_le {h : Nat} (hu : Fits s u) (hs : s.Below h)
    (hnew : u.isNew = true → u.ticketHeight ≤ h) : u.ticketHeight ≤ h := by
  cases hu with
  | new _ => exact hnew rfl
  | spent hk _ => exact hs.live hk
  | missed e hk _ _ => exact hs.live hk
  | revoked hk _ _ => exact hs.missed hk

theorem slot_redo_value {p : Slot}
    (h : (redo s u).slot p = some v) : s.slot p = some v ∨ v = u.value := by
  obtain ⟨i, k⟩ := p
  unfold redo at h
  simp only at h
  by_cases hk : k = u.ticketHash
  · split_ifs at h <;> cases i <;> simp_all [Pool.slot]
  · split_ifs at h <;> cases i <;> simp_all [Pool.slot, get?_insert, get?_erase]

theorem Steps.heights {h : Nat} (hst : Steps s us s') (hs : s.Below h)
    (hnew : ∀ u ∈ us, u.isNew = true → u.ticketHeight ≤ h) :
    s'.Below h ∧ ∀ u ∈ us, u.ticketHeight ≤ h := by
  induction hst with
  | nil => exact ⟨hs, nofun⟩
  | @snoc us s' u _ hu ih =>
    obtain ⟨hs', hus⟩ := ih fun w hw => hnew w (mem_append_left _ hw)
    have hle := hu.height_le hs' (hnew u (by simp))
    refine ⟨fun p v hp => ?_, forall_mem_append.2 ⟨hus, forall_mem_singleton.2 hle⟩⟩
    rcases slot_redo_value hp with hp | rfl
    · exact hs' p v hp
    · exact hle

theorem Fits.total_redo (hu : Fits s u) :
    (redo s u).total ≤ s.total + if u.isNew then 1 else 0 := by
  cases hu with
  | new hk =>
    have h2 := fun v : TicketValue => size_insert v hk
    rw [redo_new]
    simp only [Pool.total, h2, UndoTicketData.isNew, undoOf, Bool.not_false, Bool.and_self, if_true]
    omega
  | spent hk hv =>
    have := size_erase hk
    rw [redo_spent hv]
    simp only [Pool.total]
    omega
  | missed e hk hv hm =>
    have h1 := size_erase hk
    have h2 := fun v : TicketValue => size_insert v hm
    rw [redo_missed hv]
    simp only [Pool.total, h2]
    omega
  | revoked hk hv hm =>
    have h1 := size_erase hk
    have h2 := fun v : TicketValue => size_insert v hm
    rw [redo_revoked hv]
    simp only [Pool.total, h2]
    omega

theorem Steps.total (hst : Steps s us s') : s'.total ≤ s.total + us.countP (·.isNew) := by
  induction hst with
  | nil => simp
  | @snoc us s' u _ hu ih =>
    have h := hu.total_redo
    rw [countP_append, countP_singleton]
    omega

section Bounds

variable [Blake256] {n : StakeNode Tickets}

/-- The numbers of a node, if no block of its chain adds more than 255 tickets: tickets and records
are from at most its height, and the sets are small. -/
structure Bounded (bs : List StakeBlock) (n : StakeNode Tickets) : Prop where
  pool : n.pool.Below n.height
  records : ∀ u ∈ n.databaseUndoUpdate, u.ticketHeight ≤ n.height
  total : n.pool.total ≤ 255 * bs.length

section

variable (h : replay fuel params bs = .ok n) (hfew : ∀ b ∈ bs, b.newTickets.length ≤ 255)

include h hfew

theorem replay_bounded : Bounded bs n := by
  induction bs generalizing n with
  | nil =>
    cases h
    refine ⟨fun p v hp => ?_, nofun, le_rfl⟩
    obtain ⟨i, k⟩ := p
    cases i <;> cases hp
  | cons b bs ih =>
    obtain ⟨n₀, h₀, h⟩ := bind_eq_ok.1 h
    obtain ⟨hbelow, -, htotal⟩ := ih h₀ (forall_mem_cons.1 hfew).2
    obtain ⟨c, ⟨tr⟩, hh, hpool, hundo, -⟩ := connectNode_spec (replay_base h₀).flagged h
    have hbelow' : n₀.pool.Below n.height := fun p v hp => (hbelow p v hp).trans (by omega)
    obtain ⟨hpool', hrecords⟩ := tr.steps.heights hbelow' fun u hu hnew => by
      rw [tr.undo_eq] at hu
      rcases mem_append.1 hu with hu | hu
      · rw [tr.old_old u hu] at hnew
        cases hnew
      · obtain ⟨t, -, rfl⟩ := tr.added.exists_left hu
        exact hh.ge
    refine ⟨hpool ▸ hpool', hundo ▸ hrecords, ?_⟩
    have hcount : c.databaseUndoUpdate.countP (·.isNew) = b.newTickets.length := by
      rw [tr.undo_eq, countP_append, countP_eq_zero.2 fun u hu => by
          simp [tr.old_old u hu], countP_eq_length.2 tr.ns_new, ← tr.added.length_eq,
        zero_add]
    have hsteps := tr.steps.total
    have hb := hfew b mem_cons_self
    rw [hpool, length_cons]
    omega

/-- The number of live tickets fits in 32 bits: the lottery checks it once it runs, and before that
the chain is short. -/
theorem live_lt : n.liveTickets.size < 2 ^ 32 := by
  have hinv := replay_base h
  by_cases hd : params.stakeValidationHeight - 1 ≤ n.height
  · obtain ⟨-, -, -, idxs, prng, hidx, -⟩ := hinv.lottery.drawn hd
    exact findTicketIdxs_size hidx
  · have htotal := (replay_bounded h hfew).total
    have hval := params.validation_lt
    have hlen := hinv.height
    simp only [Pool.total, StakeNode.pool] at htotal
    omega

end

end Bounds

/-! ## The record of the best state -/

/-- The record says what the node is. -/
structure StateOf (params : Params) (m : StakeNode Tickets) (hash : Hash) (state : BestChainState) :
    Prop where
  hash : state.hash = hash
  height : state.height = m.height
  live : state.live = m.liveTickets.size
  missed : state.missed = m.missedTickets.size
  revoked : state.revoked = m.revokedTickets.size
  winners : params.stakeValidationHeight - 1 ≤ m.height → state.nextWinners = m.nextWinners

/-- The database after the end of a write. -/
def TicketDB.withBest (db : TicketDB) (m : StakeNode Tickets) (state : List UInt8) : TicketDB :=
  { db with
    chainState := some state
    blockUndoData := db.blockUndoData.insert (heightKey m.height)
      (serializeBlockUndoData m.databaseUndoUpdate)
    ticketsInBlock := db.ticketsInBlock.insert (heightKey m.height)
      (serializeTicketHashes m.databaseBlockTickets) }

theorem writeBestNode_sim (h : NodeSim n m) (params : Params) (db : TicketDB) (hash : Hash) :
    writeBestNode params db n hash = writeBestNode params db m hash := by
  unfold writeBestNode storedWinners
  rw [h.height, h.undo, h.tickets, h.winners, h.live.len, h.missed.len, h.revoked.len]

theorem writeConnectedBestNode_sim
    (h : NodeSim n m) (params : Params) (db : TicketDB) (hash : Hash) :
    writeConnectedBestNode params db n hash = writeConnectedBestNode params db m hash := by
  unfold writeConnectedBestNode
  simp only [h.undo, writeBestNode_sim h]

theorem writeDisconnectedBestNode_sim
    (h : NodeSim n m) (params : Params) (db : TicketDB) (hash : Hash) (us : List UndoTicketData) :
    writeDisconnectedBestNode params db n hash us =
      writeDisconnectedBestNode params db m hash us := by
  unfold writeDisconnectedBestNode
  simp only [h.height, writeBestNode_sim h]

section Best

variable [Blake256] {m : StakeNode Tickets}

theorem storedWinners_ok {iv : Hash} (h : LotteryOk fuel params m iv) :
    ∃ ws, storedWinners params m = .ok ws ∧ ws.length = params.ticketsPerBlock ∧
      (params.stakeValidationHeight - 1 ≤ m.height → ws = m.nextWinners) := by
  unfold storedWinners
  split_ifs with hh hlt
  · exact absurd (h.drawn hh).1 hlt.ne
  · have hlen := (h.drawn hh).1
    refine ⟨_, rfl, ?_, fun _ => ?_⟩
    · rw [length_take, hlen, Nat.min_self]
    · rw [← hlen, take_length]
  · exact ⟨_, rfl, length_replicate, fun hle => absurd hle hh⟩

theorem writeBestNode_spec (h : replay fuel params bs = .ok m)
    (hfew : ∀ b ∈ bs, b.newTickets.length ≤ 255) (hlen : bs.length < 2 ^ 32) (db : TicketDB)
    (hash : Hash) : ∃ v state, writeBestNode params db m hash = .ok (db.withBest m v) ∧
      deserializeBestChainState v = .ok state ∧ StateOf params m hash state := by
  have hinv := replay_base h
  have htotal := (replay_bounded h hfew).total
  simp only [Pool.total, StakeNode.pool] at htotal
  obtain ⟨ws, hws, hwlen, hweq⟩ := storedWinners_ok hinv.lottery
  let state : BestChainState :=
    { hash := hash
      height := m.height
      live := m.liveTickets.size
      missed := m.missedTickets.size
      revoked := m.revokedTickets.size
      perBlock := params.ticketsPerBlock
      nextWinners := ws }
  obtain ⟨v, hv⟩ : ∃ v, serializeBestChainState state = .ok v :=
    ⟨_, if_pos (show ws.length ≤ params.ticketsPerBlock from hwlen.le)⟩
  refine ⟨v, state, ?_, ?_, ⟨rfl, rfl, rfl, rfl, rfl, hweq⟩⟩
  · unfold writeBestNode
    simp only
    rw [hws]
    show (serializeBestChainState state >>= _) = _
    rw [hv]
    rfl
  · refine deserializeBestChainState_serialize ?_ (live_lt h hfew) ?_ ?_
      params.ticketsPerBlock_lt hwlen hv
    · show m.height < 2 ^ 32
      rw [hinv.height]
      exact hlen
    · show m.missedTickets.size < 2 ^ 64
      omega
    · show m.revokedTickets.size < 2 ^ 64
      omega

end Best

/-! ## The mirror -/

/-- The bucket holds a value for each height of the chain and nothing else; `value` is what the node
of a height has there. -/
structure PerHeight [Blake256] (fuel : Nat) (params : Params) (bs : List StakeBlock)
    (value : StakeNode Tickets → List UInt8) (b : Bucket) : Prop where
  get : ∀ bs' m', bs' <:+ bs → replay fuel params bs' = .ok m' →
    b.get? (heightKey bs'.length) = some (value m')
  keys : ∀ k v, b.get? k = some v → ∃ h ≤ bs.length, k = heightKey h

/-- The database holds the node and the records of its chain. -/
structure Mirrors [Blake256] (fuel : Nat) (params : Params) (hash : Hash) (bs : List StakeBlock)
    (m : StakeNode Tickets) (db : TicketDB) : Prop where
  info : ∃ i, dbFetchDatabaseInfo db = .ok i
  tickets : DbSim db m.pool
  state : ∃ state, dbFetchBestState db = .ok state ∧ StateOf params m hash state
  undo : PerHeight fuel params bs (fun m => serializeBlockUndoData m.databaseUndoUpdate)
    db.blockUndoData
  newTickets : PerHeight fuel params bs (fun m => serializeTicketHashes m.databaseBlockTickets)
    db.ticketsInBlock

theorem heightKey_inj {a b : Nat} (ha : a < 2 ^ 32) (hb : b < 2 ^ 32)
    (h : heightKey a = heightKey b) : a = b :=
  putLE_injective (n := 4) (by omega) (by omega) h

section Mirror

variable [Blake256] {b : StakeBlock} {m m' : StakeNode Tickets} {db : TicketDB} {hash hash' : Hash}

namespace PerHeight

variable {value : StakeNode Tickets → List UInt8} {bk : Bucket}

/-- The value of the tip is written, over an old one or at a new height. -/
theorem insert (h : PerHeight fuel params bs value bk) (hb : replay fuel params (b :: bs) = .ok m')
    (hlen : (b :: bs).length < 2 ^ 32) :
    PerHeight fuel params (b :: bs) value (bk.insert (heightKey (b :: bs).length) (value m')) := by
  constructor
  · intro bs' m'' hsuf hbs'
    rcases suffix_cons_iff.1 hsuf with rfl | hsuf
    · rw [hb] at hbs'
      cases hbs'
      exact get?_insert_self _ _ _
    · have hle := hsuf.length_le
      rw [length_cons] at hlen
      rw [get?_insert, if_neg, h.get bs' m'' hsuf hbs']
      intro he
      have := heightKey_inj (by omega) hlen he
      omega
  · intro k v hk
    rw [get?_insert] at hk
    split_ifs at hk with he
    · exact ⟨_, le_rfl, he⟩
    · obtain ⟨h', hle, rfl⟩ := h.keys k v hk
      exact ⟨h', hle.trans (Nat.le_succ _), rfl⟩

/-- The value of the tip is dropped. -/
theorem erase (h : PerHeight fuel params (b :: bs) value bk) (hlen : (b :: bs).length < 2 ^ 32) :
    PerHeight fuel params bs value (bk.erase (heightKey (b :: bs).length)) := by
  rw [length_cons] at hlen
  constructor
  · intro bs' m'' hsuf hbs'
    have hle := hsuf.length_le
    rw [get?_erase, if_neg, h.get bs' m'' (hsuf.trans (suffix_cons b bs)) hbs']
    intro he
    have := heightKey_inj (by omega) hlen he
    omega
  · intro k v hk
    rw [get?_erase] at hk
    split_ifs at hk with he
    obtain ⟨h', hle, rfl⟩ := h.keys k v hk
    rcases lt_or_eq_of_le hle with hlt | rfl
    · exact ⟨h', Nat.le_of_lt_succ hlt, rfl⟩
    · exact absurd rfl he

theorem insert_self (h : PerHeight fuel params bs value bk) (hb : replay fuel params bs = .ok m) :
    PerHeight fuel params bs value (bk.insert (heightKey bs.length) (value m)) := by
  have hsame : bk.insert (heightKey bs.length) (value m) = bk := by
    apply ext_get?
    intro k
    rw [get?_insert]
    split_ifs with he
    · rw [he, h.get bs m (suffix_refl bs) hb]
    · rfl
  rwa [hsame]

end PerHeight

/-- **Connecting a block** keeps the mirror. -/
theorem Mirrors.connect (h : Mirrors fuel params hash bs m db) (hm : replay fuel params bs = .ok m)
    (hm' : replay fuel params (b :: bs) = .ok m')
    (hfew : ∀ b' ∈ b :: bs, b'.newTickets.length ≤ 255) (hlen : (b :: bs).length < 2 ^ 32)
    (hash' : Hash) : ∃ db', writeConnectedBestNode params db m' hash' = .ok db' ∧
      Mirrors fuel params hash' (b :: bs) m' db' := by
  obtain ⟨m₀, hm₀, hc⟩ := bind_eq_ok.1 hm'
  rw [hm] at hm₀
  cases hm₀
  obtain ⟨c, ⟨tr⟩, -, hpool, hundo, -⟩ := connectNode_spec (replay_base hm).flagged hc
  obtain ⟨db₁, hdb₁, hsim, hsame⟩ := writeConnected_sim h.tickets tr.steps
  obtain ⟨v, state, hbest, hstate, hof⟩ := writeBestNode_spec hm' hfew hlen db₁ hash'
  have hheight : m'.height = (b :: bs).length := (replay_base hm').height
  refine ⟨db₁.withBest m' v, ?_, ?_⟩
  · unfold writeConnectedBestNode
    rw [hundo, hdb₁]
    exact hbest
  · obtain ⟨i, hi⟩ := h.info
    refine ⟨⟨i, ?_⟩, ?_, ⟨state, hstate, hof⟩, ?_, ?_⟩
    · unfold dbFetchDatabaseInfo at hi ⊢
      rw [show (db₁.withBest m' v).databaseInfo = db.databaseInfo from hsame.info]
      exact hi
    · rw [hpool]
      exact ⟨hsim.live, hsim.missed, hsim.revoked⟩
    · simp only [TicketDB.withBest, hsame.undo, hheight]
      exact h.undo.insert hm' hlen
    · simp only [TicketDB.withBest, hsame.tickets, hheight]
      exact h.newTickets.insert hm' hlen

/-- **Disconnecting a block** keeps the mirror. -/
theorem Mirrors.disconnect {iv : Hash} {r : StakeNode Tickets}
    {utds : Option (List UndoTicketData)} {tickets : Option (List Hash)}
    {dbFetch : Option (Nat → Except StakeError (List UndoTicketData × List Hash))}
    (h : Mirrors fuel params hash (b :: bs) m' db) (hm : replay fuel params bs = .ok m)
    (hm' : replay fuel params (b :: bs) = .ok m')
    (hr : disconnectNode fuel params m' iv utds tickets dbFetch = .ok r)
    (hfew : ∀ b' ∈ b :: bs, b'.newTickets.length ≤ 255) (hlen : (b :: bs).length < 2 ^ 32)
    (hash' : Hash) :
    ∃ db', writeDisconnectedBestNode params db m hash' m'.databaseUndoUpdate = .ok db' ∧
      Mirrors fuel params hash' bs m db' := by
  obtain ⟨m₀, hm₀, hc⟩ := bind_eq_ok.1 hm'
  rw [hm] at hm₀
  cases hm₀
  have hinv := replay_base hm
  obtain ⟨c, ⟨tr⟩, hchild⟩ := connectNode_spec hinv.flagged hc
  have hundo := hinv.undoable (fun hbs => by subst hbs; cases hm; rfl) tr hchild hr
  have hheight : m.height = bs.length := hinv.height
  have hheight' : m'.height = bs.length + 1 := (replay_base hm').height
  -- The records above the parent are dropped, then the block's records are undone.
  let db₀ : TicketDB :=
    { db with
      blockUndoData := db.blockUndoData.erase (heightKey (bs.length + 1))
      ticketsInBlock := db.ticketsInBlock.erase (heightKey (bs.length + 1)) }
  have hsim₀ : DbSim db₀ m'.pool := ⟨h.tickets.live, h.tickets.missed, h.tickets.revoked⟩
  obtain ⟨db₁, hdb₁, hsim, hsame⟩ := writeDisconnected_sim hsim₀ (hundo.undoAll hchild.pool)
  obtain ⟨v, state', hbest, hstate', hof'⟩ := writeBestNode_spec hm
    (forall_mem_cons.1 hfew).2
    (by rw [length_cons] at hlen; omega) db₁ hash'
  obtain ⟨state, hstate, hof⟩ := h.state
  have hdrop : dropAbove db m.height (state.height - m.height) = db₀ := by
    rw [hof.height, hheight', hheight, Nat.add_sub_cancel_left]
    rfl
  refine ⟨db₁.withBest m v, ?_, ?_⟩
  · unfold writeDisconnectedBestNode
    rw [hstate, ok_bind]
    simp only [hdrop]
    rw [hchild.undo, hdb₁]
    exact hbest
  · obtain ⟨i, hi⟩ := h.info
    refine ⟨⟨i, ?_⟩, ⟨hsim.live, hsim.missed, hsim.revoked⟩, ⟨state', hstate', hof'⟩, ?_, ?_⟩
    · unfold dbFetchDatabaseInfo at hi ⊢
      rw [show (db₁.withBest m v).databaseInfo = db.databaseInfo from hsame.info]
      exact hi
    · simp only [TicketDB.withBest, hsame.undo, hheight]
      exact (h.undo.erase hlen).insert_self hm
    · simp only [TicketDB.withBest, hsame.tickets, hheight]
      exact (h.newTickets.erase hlen).insert_self hm

/-- The records of a height of the chain are read back. -/
theorem Mirrors.fetch (h : Mirrors fuel params hash bs m db)
    (hfew : ∀ b' ∈ bs, b'.newTickets.length ≤ 255) (hlen : bs.length < 2 ^ 32)
    {bs' : List StakeBlock} (hsuf : bs' <:+ bs) (hm' : replay fuel params bs' = .ok m') :
    dbFetchBlockUndoData db bs'.length = .ok m'.databaseUndoUpdate ∧
      dbFetchNewTickets db bs'.length = .ok m'.databaseBlockTickets := by
  have hle := hsuf.length_le
  have hbound := replay_bounded hm' fun b' hb' => hfew b' (hsuf.subset hb')
  have hheight := (replay_base hm').height
  unfold dbFetchBlockUndoData dbFetchNewTickets
  rw [h.undo.get bs' m' hsuf hm', h.newTickets.get bs' m' hsuf hm']
  exact ⟨deserializeBlockUndoData_serialize fun u hu =>
    (hbound.records u hu).trans_lt (by omega), deserializeTicketHashes_serialize _⟩

/-- **Loading** gives the node back. -/
theorem Mirrors.load (h : Mirrors fuel params hash bs m db) (hm : replay fuel params bs = .ok m)
    (hfew : ∀ b' ∈ bs, b'.newTickets.length ≤ 255) (hlen : bs.length < 2 ^ 32)
    (header : List UInt8) (hheader : bs ≠ [] → lastIV bs = calcHash256PRNGIV header) :
    ∃ r, loadBestNode fuel params db bs.length hash header = .ok r ∧ NodeSim r m := by
  obtain ⟨i, hi⟩ := h.info
  obtain ⟨state, hstate, hof⟩ := h.state
  have hinv := replay_base hm
  have hbelow := (replay_bounded hm hfew).pool
  have hheight : m.height = bs.length := hinv.height
  have hsmall : ∀ p v, m.pool.slot p = some v → v.height < 2 ^ 32 := fun p v hp =>
    (hbelow p v hp).trans_lt (by omega)
  obtain ⟨live, hlive, hsl⟩ := dbLoadAllTickets_encode .live h.tickets.live
    fun k v hk => hsmall (.live, k) v hk
  obtain ⟨missed, hmissed, hsm⟩ := dbLoadAllTickets_encode .missed h.tickets.missed
    fun k v hk => hsmall (.missed, k) v hk
  obtain ⟨revoked, hrevoked, hsr⟩ := dbLoadAllTickets_encode .revoked h.tickets.revoked
    fun k v hk => hsmall (.revoked, k) v hk
  change TreapSim live m.liveTickets at hsl
  change TreapSim missed m.missedTickets at hsm
  change TreapSim revoked m.revokedTickets at hsr
  obtain ⟨hutds, htickets⟩ := h.fetch hfew hlen (suffix_refl bs) hm
  have hcheck : ∀ {t : Immutable} {t' : Tickets}, TreapSim t t' → checkLen t t'.size = .ok () :=
    fun hs => if_pos hs.len
  unfold loadBestNode
  rw [hi, ok_bind, hstate, ok_bind, if_neg (by simp [hof.hash, hof.height, hheight]), hlive,
    ok_bind, hof.live, hcheck hsl, ok_bind, hmissed, ok_bind, hof.missed,
    hcheck hsm, ok_bind, hrevoked, ok_bind, hof.revoked, hcheck hsr, ok_bind,
    hutds, ok_bind, htickets, ok_bind]
  unfold loadWinners
  simp only
  split_ifs with hval
  · obtain ⟨hwlen, -, -, idxs, prng, hidx, hfinal⟩ := hinv.lottery.drawn (hheight ▸ hval)
    have hne : bs ≠ [] := by
      rintro rfl
      have := params.one_lt_validation
      simp at hval
      omega
    rw [hheader hne] at hidx
    rw [show live.len = m.liveTickets.size from hsl.len, newHash256PRNG, hidx]
    refine ⟨_, rfl, hheight.symm, hsl, hsm, hsr, rfl, rfl, hof.winners (hheight ▸ hval), ?_⟩
    rw [hof.winners (hheight ▸ hval), hfinal]
  · obtain ⟨hw, hf⟩ := hinv.lottery.idle (by omega)
    exact ⟨_, rfl, hheight.symm, hsl, hsm, hsr, rfl, rfl, hw.symm, hf.symm⟩

end Mirror

end Fnod
