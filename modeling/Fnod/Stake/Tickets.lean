import Fnod.Chaincfg.Params
import Fnod.Stake.Lottery

/-!
# Package `stake`: stake nodes

A stake node holds the tickets as they are after a block: live, missed and revoked. `connectNode`
computes the node of a child block from its parent's, and `disconnectNode` goes back, using the
records that `connectNode` left in `databaseUndoUpdate`.

The nodes are generic in the container of the tickets (`TicketMap`), and all nodes of a chain share
the network parameters, which are an argument here. A lookup of undo data in the ticket database
is an argument of `disconnectNode`; the database itself is in `Fnod.Stake.TicketDB`. Heights are
`uint32` in the source and do not overflow: the height of a block is a field of its header, which
is of that type.

* `connectNode_sim`, `disconnectNode_sim` — on treaps the functions compute what they compute on
  the maps the treaps stand for, and fail alike.
-/

namespace Fnod

open Blake256 TicketMap

/-- `UndoTicketData`: how one ticket was changed by a block. -/
structure UndoTicketData where
  ticketHash : Hash
  ticketHeight : Nat
  missed : Bool
  revoked : Bool
  spent : Bool
  expired : Bool
deriving DecidableEq

/-- The record of a ticket that is now in state `v`. -/
def undoOf (ticket : Hash) (v : TicketValue) : UndoTicketData :=
  { ticketHash := ticket, ticketHeight := v.height, missed := v.missed, revoked := v.revoked
    spent := v.spent, expired := v.expired }

/-- The state a record holds. -/
def UndoTicketData.value (u : UndoTicketData) : TicketValue :=
  { height := u.ticketHeight, missed := u.missed, revoked := u.revoked, spent := u.spent
    expired := u.expired }

/-- The three sets a ticket can be in. -/
inductive TicketSet where
  | live
  | missed
  | revoked
deriving DecidableEq

/-- The stake data of a block. -/
structure StakeNode (M : Type) where
  height : Nat
  liveTickets : M
  missedTickets : M
  revokedTickets : M
  /-- What the block did to each ticket it touched. -/
  databaseUndoUpdate : List UndoTicketData
  /-- The tickets that became live with the block. -/
  databaseBlockTickets : List Hash
  /-- The tickets that may vote on the block. -/
  nextWinners : List Hash
  /-- The six-byte checksum of the lottery. -/
  finalState : List UInt8
deriving DecidableEq

/-- The initial value of a `[6]byte`. -/
def zeroFinalState : List UInt8 := [0, 0, 0, 0, 0, 0]

section

variable {M : Type} [TicketMap M]

def genesisNode : StakeNode M where
  height := 0
  liveTickets := TicketMap.new
  missedTickets := TicketMap.new
  revokedTickets := TicketMap.new
  databaseUndoUpdate := []
  databaseBlockTickets := []
  nextWinners := []
  finalState := zeroFinalState

variable (params : Params) (ticketsVoted : List Hash) (t : M) (k : Hash) (c : StakeNode M)
  (ticket : Hash)

def safeGet : Except StakeError TicketValue :=
  match TicketMap.get t k with
  | none => .error (.missingTicket k)
  | some v => .ok v

/-- `safePut`: a key that is already there is an error. -/
def safePut (v : TicketValue) : Except StakeError M :=
  if TicketMap.has t k then .error (.duplicateTicket k) else .ok (TicketMap.put t k v)

/-- `safeDelete`: a key that is not there is an error. -/
def safeDelete : Except StakeError M :=
  if TicketMap.has t k then .ok (TicketMap.delete t k) else .error (.missingTicket k)

/-! ## Connecting a block -/

/-- A winner of the parent: spent if the block votes with it, missed if not. -/
def connectWinner : Except StakeError (StakeNode M) := do
  let v ← safeGet c.liveTickets ticket
  if ticket ∈ ticketsVoted then
    let v := { v with spent := true, missed := false }
    let live ← safeDelete c.liveTickets ticket
    .ok { c with
      liveTickets := live
      databaseUndoUpdate := c.databaseUndoUpdate ++ [undoOf ticket v] }
  else
    let v := { v with spent := false, missed := true }
    let live ← safeDelete c.liveTickets ticket
    let missed ← safePut c.missedTickets ticket v
    .ok { c with
      liveTickets := live
      missedTickets := missed
      databaseUndoUpdate := c.databaseUndoUpdate ++ [undoOf ticket v] }

/-- A live ticket that is too old. -/
def connectExpired (entry : Hash × TicketValue) : Except StakeError (StakeNode M) := do
  let v := { entry.2 with missed := true, expired := true }
  let live ← safeDelete c.liveTickets entry.1
  let missed ← safePut c.missedTickets entry.1 v
  .ok { c with
    liveTickets := live
    missedTickets := missed
    databaseUndoUpdate := c.databaseUndoUpdate ++ [undoOf entry.1 v] }

/-- A missed ticket that the block revokes. -/
def connectRevoked : Except StakeError (StakeNode M) := do
  let v ← safeGet c.missedTickets ticket
  let v := { v with revoked := true }
  let missed ← safeDelete c.missedTickets ticket
  let revoked ← safePut c.revokedTickets ticket v
  .ok { c with
    missedTickets := missed
    revokedTickets := revoked
    databaseUndoUpdate := c.databaseUndoUpdate ++ [undoOf ticket v] }

/-- A ticket that becomes live with the block. -/
def connectNew : Except StakeError (StakeNode M) := do
  let v : TicketValue :=
    { height := c.height, missed := false, revoked := false, spent := false, expired := false }
  let live ← safePut c.liveTickets ticket v
  .ok { c with
    liveTickets := live
    databaseUndoUpdate := c.databaseUndoUpdate ++ [undoOf ticket v] }

/-- Tickets of at most this height expire with a block of the given height. -/
def toExpireHeight (height : Nat) : Nat :=
  if height > params.ticketExpiry then height - params.ticketExpiry else 0

/-- The sanity check of `connectNode`: a block votes with winners of its parent only. -/
def checkVoted (winners ticketsVoted : List Hash) : Except StakeError Unit :=
  match ticketsVoted.find? (· ∉ winners) with
  | some ticket => .error (.unknownTicketSpent ticket)
  | none => .ok ()

/-- The vote-related part of `connectNode`, for blocks from `StakeEnabledHeight` on. -/
def connectSpent (winners ticketsVoted revokedTickets : List Hash)
    (c : StakeNode M) : Except StakeError (StakeNode M) :=
  if c.height ≥ params.stakeEnabledHeight then do
    checkVoted winners ticketsVoted
    let c ← winners.foldlM (connectWinner ticketsVoted) c
    -- The loop visits the tickets of the treap as it was when the loop began.
    let c ← (TicketMap.forEachByHeight c.liveTickets
      (toExpireHeight params c.height + 1)).foldlM connectExpired c
    revokedTickets.foldlM connectRevoked c
  else .ok c

section Lottery

variable [Blake256]

/-- The checksum of the winners and of the state of the generator that drew them. -/
def lotteryState (winners : List Hash) (prng : Hash256PRNG) : List UInt8 :=
  (hashB (winners.flatMap Hash.bytes ++ prng.stateHash.bytes)).take 6

variable (fuel : Nat) (params : Params)

/-- The end of `connectNode`: from one block before `StakeValidationHeight` on, draw the winners
that may vote on the block. -/
def connectWinners (lotteryIV : Hash) (c : StakeNode M) : Except StakeError (StakeNode M) :=
  if c.height ≥ params.stakeValidationHeight - 1 then do
    let (idxs, prng) ← findTicketIdxs fuel (TicketMap.len c.liveTickets) params.ticketsPerBlock
      (newHash256PRNGFromIV lotteryIV)
    let winners ← fetchWinners idxs c.liveTickets
    .ok { c with nextWinners := winners, finalState := lotteryState winners prng }
  else .ok c

/-- `connectNode`: the stake node of a child block. -/
def connectNode (node : StakeNode M) (lotteryIV : Hash)
    (ticketsVoted revokedTickets newTickets : List Hash) : Except StakeError (StakeNode M) := do
  let c : StakeNode M :=
    { node with
      height := node.height + 1
      databaseUndoUpdate := []
      databaseBlockTickets := newTickets
      nextWinners := []
      finalState := zeroFinalState }
  let c ← connectSpent params node.nextWinners ticketsVoted revokedTickets c
  let c ← newTickets.foldlM connectNew c
  connectWinners fuel params lotteryIV c

/-- What a block brings to `connectNode`: its lottery seed, the tickets it votes with, the ones it
revokes, and the ones that mature with it. -/
structure StakeBlock where
  lotteryIV : Hash
  ticketsVoted : List Hash
  revokedTickets : List Hash
  newTickets : List Hash
deriving DecidableEq

/-- Connect a chain of blocks to the genesis node. The newest block comes first. -/
def replay : List StakeBlock → Except StakeError (StakeNode M)
  | [] => .ok genesisNode
  | b :: bs => do
      let n ← replay bs
      connectNode fuel params n b.lotteryIV b.ticketsVoted b.revokedTickets b.newTickets

end Lottery

/-! ## Disconnecting a block -/

/-- One record undone. A missed ticket that had not expired, and a spent one, was a winner of the
block that is restored. -/
def undoTicket (undo : UndoTicketData) : Except StakeError (StakeNode M) :=
  let k := undo.ticketHash
  let v := undo.value
  if !undo.missed && !undo.revoked && !undo.spent then do
    let live ← safeDelete c.liveTickets k
    .ok { c with liveTickets := live }
  else if undo.missed && undo.revoked then do
    let revoked ← safeDelete c.revokedTickets k
    let missed ← safePut c.missedTickets k { v with revoked := false }
    .ok { c with revokedTickets := revoked, missedTickets := missed }
  else if undo.missed && !undo.revoked then do
    let winners := if undo.expired then c.nextWinners else c.nextWinners ++ [k]
    let missed ← safeDelete c.missedTickets k
    let live ← safePut c.liveTickets k { v with missed := false, expired := false }
    .ok { c with missedTickets := missed, liveTickets := live, nextWinners := winners }
  else if undo.spent then do
    let live ← safePut c.liveTickets k { v with spent := false }
    .ok { c with liveTickets := live, nextWinners := c.nextWinners ++ [k] }
  else .error .memoryCorruption

variable [Blake256]

/-- The end of `disconnectNode`: the checksum of the restored node. -/
def restoreFinalState (fuel : Nat) (params : Params) (childHeight : Nat) (parentLotteryIV : Hash)
    (c : StakeNode M) : Except StakeError (StakeNode M) :=
  if childHeight ≥ params.stakeValidationHeight then do
    let (_, prng) ← findTicketIdxs fuel (TicketMap.len c.liveTickets) params.ticketsPerBlock
      (newHash256PRNGFromIV parentLotteryIV)
    .ok { c with finalState := lotteryState c.nextWinners prng }
  else .ok c

/-- The undo data and tickets of the parent. Where one is not passed (`nil`) both are looked up in
the database, if there is one. -/
def parentData (parentUtds : Option (List UndoTicketData)) (parentTickets : Option (List Hash))
    (dbFetch : Option (Nat → Except StakeError (List UndoTicketData × List Hash)))
    (height : Nat) : Except StakeError (List UndoTicketData × List Hash) :=
  match parentUtds, parentTickets, dbFetch with
  | some utds, some tickets, _ => .ok (utds, tickets)
  | _, _, some fetch => fetch height
  | _, _, none => .error .missingDatabaseTx

/-- `disconnectNode`: the stake node of the parent. -/
def disconnectNode (fuel : Nat) (params : Params) (node : StakeNode M) (parentLotteryIV : Hash)
    (parentUtds : Option (List UndoTicketData)) (parentTickets : Option (List Hash))
    (dbFetch : Option (Nat → Except StakeError (List UndoTicketData × List Hash))) :
    Except StakeError (StakeNode M) :=
  if node.height = 1 then .ok genesisNode
  else do
    let (utds, tickets) ← parentData parentUtds parentTickets dbFetch (node.height - 1)
    let c : StakeNode M :=
      { node with
        height := node.height - 1
        databaseUndoUpdate := utds
        databaseBlockTickets := tickets
        nextWinners := []
        finalState := zeroFinalState }
    let c ← node.databaseUndoUpdate.foldlM undoTicket c
    restoreFinalState fuel params node.height parentLotteryIV c

end

end Fnod
