import Mathlib.Logic.Function.Basic
import Fnod.Lib.BlockTree
import Fnod.Stake.StakeRun

/-!
# `stakenode.go`: the stake node of any block of the tree

The stake nodes and the ticket data of most blocks are pruned from memory. `fetchStakeNode` builds
the stake node of a block again: from that of the parent if it is loaded, and otherwise by undoing
the main chain from the tip to the fork point with the records of the database, and then connecting
the blocks of the side chain.

A node of the tree is the list of the blocks above the genesis block that lead to it, newest first.
So the parent of a node is a tail, two nodes are equal when they are the same block on the same
chain, and the genesis block, which has no parent, is `[]`. The walks of `BlockTree` are the same
with the genesis block in the place of nil: every branch leaves the main chain there at the latest.

**Theorem (`fetchStakeNode_eq_replay`).** Whatever is pruned, on the main chain and on every side
chain, `fetchStakeNode` returns what connecting the blocks of the chain to the genesis node gives,
errors included — except for the genesis block itself, once its own stake node is pruned. Then the
function reads the stake node of a parent that does not exist.

The undo walk (`undoTo_spec`) loads every node from the tip down to the fork point because each
block of the main chain can be disconnected with the data that the database holds of its parent. The
walk up (`attachFrom_sim`) fails exactly where the replay fails.
-/

namespace Fnod

open Except Function List Option

/-! ## The block tree -/

/-- What the stake code reads from a block: its serialized header, the hashes of the ticket
purchases among its stake transactions, and the tickets it votes with and revokes. -/
structure TicketBlock where
  header : List UInt8
  purchases : List Hash
  votedTickets : List Hash
  revokedTickets : List Hash
deriving DecidableEq

abbrev BlockNode := List TicketBlock

namespace BlockNode

variable (node : BlockNode) {distance : Nat}

def height : Nat := node.length

/-- `RelativeAncestor`: there is none below the genesis block. -/
def relativeAncestor (distance : Nat) : Option BlockNode :=
  if distance ≤ node.height then some (node.drop distance) else none

/-- The ticket purchases of a block; the genesis block has no stake transactions. -/
def purchases : BlockNode → List Hash
  | [] => []
  | b :: _ => b.purchases

/-- `FindSpentTicketsInBlock`: the votes. -/
def votedTickets : BlockNode → List Hash
  | [] => []
  | b :: _ => b.votedTickets

/-- `FindSpentTicketsInBlock`: the revocations. -/
def revokedTickets : BlockNode → List Hash
  | [] => []
  | b :: _ => b.revokedTickets

theorem relativeAncestor_suffix {node ancestor : BlockNode}
    (h : node.relativeAncestor distance = some ancestor) : ancestor <:+ node := by
  cases (ite_none_right_eq_some.1 h).2
  exact drop_suffix _ _

end BlockNode

variable (tip : BlockNode) (params : Params) (node : BlockNode) (c : Caches)

/-- The view of a tip holds exactly the ancestors of the tip. -/
theorem viewContains_iff {tip node : BlockNode} :
    BlockTree.contains tip node = true ↔ node <:+ tip := by
  cases node with
  | nil => exact iff_of_true rfl nil_suffix
  | cons b prev => exact BlockTree.contains_iff (cons_ne_nil _ _)

/-! ## The caches -/

/-- The data that the nodes of the tree keep in memory, or do not. Of the vote versions only whether
they are loaded is read here. -/
structure Caches where
  stakeNode : BlockNode → Option (StakeNode Immutable)
  newTickets : BlockNode → Option (List Hash)
  ticketsVoted : BlockNode → Option (List Hash)
  ticketsRevoked : BlockNode → Option (List Hash)
  votesLoaded : BlockNode → Bool

namespace Caches

variable (c : Caches) (node : BlockNode)

def setStakeNode (s : StakeNode Immutable) : Caches :=
  { c with stakeNode := Function.update c.stakeNode node (some s) }

def setNewTickets (tickets : List Hash) : Caches :=
  { c with newTickets := Function.update c.newTickets node (some tickets) }

@[simp] theorem stakeNode_setStakeNode_self (c : Caches) (node : BlockNode)
    (s : StakeNode Immutable) : (c.setStakeNode node s).stakeNode node = some s :=
  update_self _ _ _

theorem stakeNode_setStakeNode_of_ne (c : Caches) {node node' : BlockNode}
    (s : StakeNode Immutable) (h : node' ≠ node) :
    (c.setStakeNode node s).stakeNode node' = c.stakeNode node' :=
  update_of_ne h _ _

def populateTicketInfo : Caches :=
  { c with
    ticketsVoted := Function.update c.ticketsVoted node (some node.votedTickets)
    ticketsRevoked := Function.update c.ticketsRevoked node (some node.revokedTickets)
    votesLoaded := Function.update c.votesLoaded node true }

end Caches

def minMemoryNodes : Nat := 2880

def minMemoryStakeNodes : Nat := 288

/-- `pruneStakeNodes`: the ancestors that are deep enough lose their data, unless they are so deep
that they should have been pruned before. -/
def pruneStakeNodes : Caches :=
  match tip.relativeAncestor (minMemoryStakeNodes - 1) with
  | none => c
  | some [] => c
  | some (_ :: pruned) =>
    let prunes (node : BlockNode) : Bool :=
      BlockTree.contains pruned node && (tip.height < node.height + minMemoryNodes)
    { c with
      stakeNode := fun node => if prunes node then none else c.stakeNode node
      newTickets := fun node => if prunes node then none else c.newTickets node
      ticketsVoted := fun node => if prunes node then none else c.ticketsVoted node
      ticketsRevoked := fun node => if prunes node then none else c.ticketsRevoked node }

/-! ## `stakenode.go` -/

/-- `maybeFetchNewTickets`: the tickets that mature in a block were bought `TicketMaturity` blocks
before. -/
def maybeFetchNewTickets : Except StakeError Caches :=
  if (c.newTickets node).isSome then .ok c
  else if node.height < params.stakeEnabledHeight then .ok (c.setNewTickets node [])
  else
    match node.relativeAncestor params.ticketMaturity with
    | none => .error .missingAncestor
    | some matureNode => .ok (c.setNewTickets node matureNode.purchases)

def maybeFetchTicketInfo : Except StakeError Caches := do
  let c ← maybeFetchNewTickets params node c
  if (c.ticketsVoted node).isSome && (c.ticketsRevoked node).isSome && c.votesLoaded node then .ok c
  else .ok (c.populateTicketInfo node)

/-- The tickets that mature in a block. -/
def maturingTickets : List Hash :=
  if node.height < params.stakeEnabledHeight then []
  else BlockNode.purchases (node.drop params.ticketMaturity)

theorem maturingTickets_of_lt {params : Params} {node : BlockNode}
    (h : node.height < params.stakeEnabledHeight) : maturingTickets params node = [] := if_pos h

/-- A field that is set to its right value stays right everywhere. -/
theorem right_update {f : BlockNode → Option (List Hash)} {value : BlockNode → List Hash}
    (h : ∀ node l, f node = some l → l = value node) (node node' : BlockNode) (l : List Hash)
    (h' : update f node (some (value node)) node' = some l) : l = value node' := by
  rcases eq_or_ne node' node with rfl | hne
  · rw [update_self, Option.some.injEq] at h'
    exact h'.symm
  · rw [update_of_ne hne] at h'
    exact h node' l h'

section Fetch

variable [Blake256]

variable (fuel : Nat) (params : Params) (genesisHeader : List UInt8) (db : TicketDB)

/-- `lotteryIV`, given the header of the genesis block. -/
def lotteryIV : BlockNode → Hash
  | [] => calcHash256PRNGIV genesisHeader
  | b :: _ => calcHash256PRNGIV b.header

/-- The stake node from that of the parent, which is read without a check. A list that is not loaded
is an empty one to `ConnectNode`. -/
def connectToParent : BlockNode → Caches → Except StakeError (StakeNode Immutable × Caches)
  | [], _ => .error .panicked
  | b :: parent, c => do
    let c ← maybeFetchTicketInfo params (b :: parent) c
    match c.stakeNode parent with
    | none => .error .panicked
    | some p => do
      let s ← connectNode fuel params p (lotteryIV genesisHeader (b :: parent))
        ((c.ticketsVoted (b :: parent)).getD []) ((c.ticketsRevoked (b :: parent)).getD [])
        ((c.newTickets (b :: parent)).getD [])
      .ok (s, c.setStakeNode (b :: parent) s)

/-- One step down the main chain: the stake node of the parent, if it is not loaded. -/
def undoNode (b : TicketBlock) (prev : BlockNode) (c : Caches) : Except StakeError Caches :=
  match c.stakeNode prev, c.stakeNode (b :: prev) with
  | some _, _ => .ok c
  | none, none => .error .panicked
  | none, some s => do
    let p ← disconnectNode fuel params s (lotteryIV genesisHeader prev) none none
      (some (dbFetchParentData db))
    .ok (c.setStakeNode prev p)

/-- The walk down from a node of the main chain to the fork point. -/
def undoTo (fuel : Nat) (params : Params) (genesisHeader : List UInt8) (db : TicketDB)
    (fork : BlockNode) : BlockNode → Caches → Except StakeError Caches
  | [], c => .ok c
  | b :: prev, c =>
    if fork = b :: prev then .ok c
    else do
      let c ← undoNode fuel params genesisHeader db b prev c
      undoTo fuel params genesisHeader db fork prev c

/-- The walk up from the fork point to a node of a side chain. -/
def attachFrom (fuel : Nat) (params : Params) (genesisHeader : List UInt8) (fork : BlockNode) :
    BlockNode → Caches → Except StakeError Caches
  | [], c => if fork = [] then .ok c else .error .panicked
  | b :: parent, c =>
    if fork = b :: parent then .ok c
    else do
      let c ← attachFrom fuel params genesisHeader fork parent c
      if (c.stakeNode (b :: parent)).isSome then .ok c
      else do
        let r ← connectToParent fuel params genesisHeader (b :: parent) c
        .ok r.2

/-- The walks from the tip to the fork point and on to the node. What is returned is what the node
then holds, which is `none` for a nil pointer. -/
def rebuildStakeNode (tip node : BlockNode) (c : Caches) :
    Except StakeError (Option (StakeNode Immutable) × Caches) := do
  let fork := BlockTree.findFork tip node
  let c ← undoTo fuel params genesisHeader db fork tip c
  if fork = node then .ok (c.stakeNode node, c)
  else do
    let c ← attachFrom fuel params genesisHeader fork node c
    .ok (c.stakeNode node, c)

/-- `fetchStakeNode`. The parent of the genesis block is nil. -/
def fetchStakeNode (tip node : BlockNode) (c : Caches) :
    Except StakeError (Option (StakeNode Immutable) × Caches) :=
  match c.stakeNode node, node with
  | some s, _ => .ok (some s, c)
  | none, [] => .error .panicked
  | none, b :: parent =>
    if (c.stakeNode parent).isSome then do
      let r ← connectToParent fuel params genesisHeader (b :: parent) c
      .ok (some r.1, r.2)
    else rebuildStakeNode fuel params genesisHeader db tip (b :: parent) c

/-! ## What the caches should hold -/

/-- The blocks from the genesis block to a node, as `connectNode` takes them. -/
def stakeBlocks (params : Params) : BlockNode → List StakeBlock
  | [] => []
  | b :: prev =>
    ⟨calcHash256PRNGIV b.header, b.votedTickets, b.revokedTickets,
      maturingTickets params (b :: prev)⟩ :: stakeBlocks params prev

variable (fuel : Nat) (params : Params)

@[simp] theorem length_stakeBlocks (node : BlockNode) :
    (stakeBlocks params node).length = node.height := by
  induction node with
  | nil => rfl
  | cons b prev ih =>
    rw [stakeBlocks, length_cons, ih]
    rfl

theorem stakeBlocks_suffix {node node' : BlockNode} (h : node' <:+ node) :
    stakeBlocks params node' <:+ stakeBlocks params node := by
  induction node with
  | nil => exact suffix_nil.1 h ▸ suffix_refl _
  | cons b prev ih =>
    rcases suffix_cons_iff.1 h with rfl | h
    · exact suffix_refl _
    · exact (ih h).trans (suffix_cons _ _)

/-- The replay of a chain ends with connecting its newest block. -/
theorem replay_stakeBlocks_cons {M : Type} [TicketMap M] (b : TicketBlock) (prev : BlockNode) :
    (replay fuel params (stakeBlocks params (b :: prev)) : Except StakeError (StakeNode M)) =
      replay fuel params (stakeBlocks params prev) >>= fun n =>
        connectNode fuel params n (calcHash256PRNGIV b.header) b.votedTickets b.revokedTickets
          (maturingTickets params (b :: prev)) := rfl

/-- A stake node is the one of the chain up to the node of the tree. -/
def IsStakeNodeOf (node : BlockNode) (s : StakeNode Immutable) : Prop :=
  ∃ m, replay fuel params (stakeBlocks params node) = .ok m ∧ NodeSim s m

/-- What is loaded is right; what is loaded is left open. -/
structure CachesRight (fuel : Nat) (params : Params) (c : Caches) : Prop where
  stakeNode : ∀ node s, c.stakeNode node = some s → IsStakeNodeOf fuel params node s
  newTickets : ∀ node l, c.newTickets node = some l → l = maturingTickets params node
  ticketsVoted : ∀ node l, c.ticketsVoted node = some l → l = node.votedTickets
  ticketsRevoked : ∀ node l, c.ticketsRevoked node = some l → l = node.revokedTickets

/-- The blocks of the main chain can be undone: the tickets they revoke were missed before, as
`checkAllowedRevocations` demands, and no ticket is bought twice. -/
structure MainChain (fuel : Nat) (params : Params) (tip : BlockNode) : Prop where
  revoked : ∀ b prev, b :: prev <:+ tip → ∀ n : StakeNode Immutable,
    replay fuel params (stakeBlocks params prev) = .ok n →
    ∀ t ∈ b.revokedTickets, n.missedTickets.has t
  fresh : (addedTickets (stakeBlocks params tip)).Nodup

/-! ## The caches stay right -/

section Right

variable {fuel : Nat} {params : Params} {genesisHeader : List UInt8} {c c' : Caches}
  {node fork tip : BlockNode} {genesis : Hash × List UInt8} {hist : History}

section

variable (h : CachesRight fuel params c)

include h

theorem CachesRight.setStakeNode {s : StakeNode Immutable}
    (hs : IsStakeNodeOf fuel params node s) : CachesRight fuel params (c.setStakeNode node s) where
  stakeNode node' s' h' := by
    rcases eq_or_ne node' node with rfl | hne
    · rw [Caches.stakeNode_setStakeNode_self, Option.some.injEq] at h'
      exact h' ▸ hs
    · rw [Caches.stakeNode_setStakeNode_of_ne c s hne] at h'
      exact h.stakeNode node' s' h'
  newTickets := h.newTickets
  ticketsVoted := h.ticketsVoted
  ticketsRevoked := h.ticketsRevoked

/-- What a step that only loads ticket data of a node leaves behind. -/
structure Loaded (params : Params) (node : BlockNode) (c c' : Caches) : Prop where
  stakeNode : c'.stakeNode = c.stakeNode
  newTickets : c'.newTickets node = some (maturingTickets params node)

theorem maybeFetchNewTickets_spec (node : BlockNode) :
    ∃ c', maybeFetchNewTickets params node c = .ok c' ∧ CachesRight fuel params c' ∧
      Loaded params node c c' := by
  have hset : CachesRight fuel params (c.setNewTickets node (maturingTickets params node)) :=
    { h with newTickets := right_update h.newTickets node }
  have hloaded : Loaded params node c (c.setNewTickets node (maturingTickets params node)) :=
    ⟨rfl, update_self _ _ _⟩
  unfold maybeFetchNewTickets
  cases hnew : c.newTickets node with
  | some l =>
    refine ⟨c, if_pos rfl, h, rfl, ?_⟩
    rw [hnew, h.newTickets node l hnew]
  | none =>
    rw [if_neg (by decide)]
    refine ⟨_, ?_, hset, hloaded⟩
    unfold maturingTickets
    split_ifs with hlow
    · rfl
    · rw [BlockNode.relativeAncestor, if_pos (params.ticketMaturity_le.trans (not_lt.1 hlow))]

/-- **Loading ticket data** does not fail and gives the data of the block. -/
theorem maybeFetchTicketInfo_spec (node : BlockNode) :
    ∃ c', maybeFetchTicketInfo params node c = .ok c' ∧ CachesRight fuel params c' ∧
      Loaded params node c c' ∧ c'.ticketsVoted node = some node.votedTickets ∧
      c'.ticketsRevoked node = some node.revokedTickets := by
  obtain ⟨c₁, h₁, hright, hloaded⟩ := maybeFetchNewTickets_spec h node
  unfold maybeFetchTicketInfo
  rw [h₁, ok_bind]
  split_ifs with hall
  · simp only [Bool.and_eq_true] at hall
    obtain ⟨⟨hv, hr⟩, -⟩ := hall
    obtain ⟨voted, hv⟩ := isSome_iff_exists.1 hv
    obtain ⟨revoked, hr⟩ := isSome_iff_exists.1 hr
    refine ⟨c₁, rfl, hright, hloaded, ?_, ?_⟩
    · rw [hv, hright.ticketsVoted node voted hv]
    · rw [hr, hright.ticketsRevoked node revoked hr]
  · exact ⟨_, rfl,
      { hright with
        ticketsVoted := right_update hright.ticketsVoted node
        ticketsRevoked := right_update hright.ticketsRevoked node },
      ⟨hloaded.stakeNode, hloaded.newTickets⟩, update_self _ _ _,
      update_self _ _ _⟩

/-! ## The walk up -/

/-- The caches after a step that loads the stake node of a node. -/
structure Holds (fuel : Nat) (params : Params) (node : BlockNode) (c : Caches)
    (m : StakeNode Tickets) : Prop where
  right : CachesRight fuel params c
  loaded : ∃ s, c.stakeNode node = some s ∧ NodeSim s m

theorem CachesRight.holds (hloaded : (c.stakeNode node).isSome) :
    Sim (Holds fuel params node) (.ok c) (replay fuel params (stakeBlocks params node)) := by
  obtain ⟨s, hs⟩ := isSome_iff_exists.1 hloaded
  obtain ⟨m, hm, hsim⟩ := h.stakeNode node s hs
  rw [hm]
  exact ⟨h, s, hs, hsim⟩

theorem connectToParent_sim {b : TicketBlock} {parent : BlockNode}
    (hparent : (c.stakeNode parent).isSome) :
    Sim (fun r m => Holds fuel params (b :: parent) r.2 m ∧
        r.2.stakeNode (b :: parent) = some r.1)
      (connectToParent fuel params genesisHeader (b :: parent) c)
      (replay fuel params (stakeBlocks params (b :: parent))) := by
  obtain ⟨c₁, h₁, hright, ⟨hsame, hnew⟩, hvoted, hrevoked⟩ :=
    maybeFetchTicketInfo_spec h (b :: parent)
  obtain ⟨p, hp⟩ := isSome_iff_exists.1 hparent
  obtain ⟨m, hm, hsim⟩ := h.stakeNode parent p hp
  rw [connectToParent, h₁, ok_bind, hsame, hp]
  rw [hvoted, hrevoked, hnew, replay_stakeBlocks_cons, hm, ok_bind]
  refine Sim.bind_left (connectNode_sim hsim _ _ _ _ _ _) fun s m' _ hm' hsim' => ?_
  have hnode : IsStakeNodeOf fuel params (b :: parent) s := ⟨m', bind_eq_ok.2 ⟨m, hm, hm'⟩, hsim'⟩
  have hself := c₁.stakeNode_setStakeNode_self (b :: parent) s
  exact ⟨⟨hright.setStakeNode hnode, s, hself, hsim'⟩, hself⟩

/-- **The walk up** fails where the replay fails, and loads the node otherwise. -/
theorem attachFrom_sim (hfork : (c.stakeNode fork).isSome) (hsuf : fork <:+ node) :
    Sim (Holds fuel params node) (attachFrom fuel params genesisHeader fork node c)
      (replay fuel params (stakeBlocks params node)) := by
  induction node with
  | nil =>
    obtain rfl := suffix_nil.1 hsuf
    exact h.holds hfork
  | cons b parent ih =>
    unfold attachFrom
    rcases suffix_cons_iff.1 hsuf with rfl | hsuf
    · rw [if_pos rfl]
      exact h.holds hfork
    · rw [if_neg (ne_cons_of_suffix hsuf)]
      refine Sim.bind_of_ok (ih hsuf) fun c₁ m₁ _ hm₁ ⟨hright, p, hp, _⟩ => ?_
      have hreplay := replay_stakeBlocks_cons fuel params b parent (M := Tickets)
      rw [hm₁, ok_bind] at hreplay
      rw [← hreplay]
      split_ifs with hloaded
      · exact hright.holds hloaded
      · exact Sim.bind_left (connectToParent_sim hright (by rw [hp]; rfl))
          fun r m _ _ hr => hr.1

end

/-! ## The walk down -/

section Undo

variable {db : TicketDB}

section

variable (h : RunInv fuel params genesis hist db) (hchain : hist.blocks = stakeBlocks params tip)
  (hmain : MainChain fuel params tip) {b : TicketBlock} {prev : BlockNode}

include h hchain hmain

/-- **A block of the main chain is undone** with the data that the database holds of its parent. -/
theorem RunInv.disconnect_main (hsuf : b :: prev <:+ tip) {m' : StakeNode Tickets}
    (hm' : replay fuel params (stakeBlocks params (b :: prev)) = .ok m') :
    ∃ m, replay fuel params (stakeBlocks params prev) = .ok m ∧
      disconnectNode fuel params m' (lotteryIV genesis.2 prev) none none
        (some (dbFetchParentData db)) = .ok m := by
  have hheight := (replay_base hm').height
  rw [replay_stakeBlocks_cons] at hm'
  obtain ⟨m, hm, hconn⟩ := bind_eq_ok.1 hm'
  have hinv := replay_base hm
  refine ⟨m, hm, ?_⟩
  cases prev with
  | nil =>
    cases hm
    exact if_pos hheight
  | cons a prev =>
    obtain ⟨n, hn, hsim⟩ := (replay_sim fuel params _).ok_right hm
    have hnodup : (addedTickets (stakeBlocks params (b :: a :: prev))).Nodup :=
      hmain.fresh.sublist (addedTickets_of_suffix (stakeBlocks_suffix params hsuf)).sublist
    have hprev : a :: prev <:+ tip := (suffix_cons b _).trans hsuf
    refine hinv.disconnect nofun (fun _ => ?_) hconn (fun t ht => ?_) fun t ht => ?_
    · exact h.dbFetchParentData_eq (hchain ▸ stakeBlocks_suffix params hprev) hm
    · have hget : n.missedTickets.get t = m.missedTickets.get? t := hsim.missed.get t
      rw [← hget]
      exact hmain.revoked b _ hsuf n hn t ht
    · refine not_isSome_iff_eq_none.1 fun hlive => ?_
      exact (nodup_append.1 hnodup).2.2 t (hinv.held t (Or.inl hlive)) t ht rfl

theorem undoNode_spec (hc : CachesRight fuel params c)
    (hsuf : b :: prev <:+ tip) (hloaded : (c.stakeNode (b :: prev)).isSome) :
    ∃ c', undoNode fuel params genesis.2 db b prev c = .ok c' ∧ CachesRight fuel params c' ∧
      (c'.stakeNode prev).isSome := by
  obtain ⟨s, hs⟩ := isSome_iff_exists.1 hloaded
  unfold undoNode
  cases hp : c.stakeNode prev with
  | some p => exact ⟨c, rfl, hc, by rw [hp]; rfl⟩
  | none =>
    obtain ⟨m', hm', hsim'⟩ := hc.stakeNode _ s hs
    obtain ⟨m, hm, hdis⟩ := h.disconnect_main hchain hmain hsuf hm'
    obtain ⟨p, hp, hsim⟩ := (disconnectNode_sim hsim' _ _ _ _ _ _).ok_right hdis
    rw [hs]
    dsimp only
    rw [hp, ok_bind]
    exact ⟨_, rfl, hc.setStakeNode ⟨m, hm, hsim⟩, by simp⟩

/-- **The walk down** does not fail and loads the fork point. -/
theorem undoTo_spec (hc : CachesRight fuel params c) (hnode : node <:+ tip)
    (hloaded : (c.stakeNode node).isSome) (hfork : fork <:+ node) :
    ∃ c', undoTo fuel params genesis.2 db fork node c = .ok c' ∧
      CachesRight fuel params c' ∧ (c'.stakeNode fork).isSome := by
  induction node generalizing c with
  | nil =>
    obtain rfl := suffix_nil.1 hfork
    exact ⟨c, rfl, hc, hloaded⟩
  | cons b prev ih =>
    unfold undoTo
    rcases suffix_cons_iff.1 hfork with rfl | hfork'
    · exact ⟨c, if_pos rfl, hc, hloaded⟩
    · rw [if_neg (ne_cons_of_suffix hfork')]
      obtain ⟨c₁, h₁, hc₁, hprev⟩ := undoNode_spec h hchain hmain hc hnode hloaded
      rw [h₁, ok_bind]
      exact ih hc₁ ((suffix_cons b prev).trans hnode) hprev hfork'

end

end Undo

/-! ## Fetching -/

section Fetching

variable {db : TicketDB}

/-- What is returned is the stake node of the node, which is now loaded. -/
def Fetched (fuel : Nat) (params : Params) (node : BlockNode)
    (r : Option (StakeNode Immutable) × Caches) (m : StakeNode Tickets) : Prop :=
  Holds fuel params node r.2 m ∧ r.1 = r.2.stakeNode node

theorem CachesRight.fetched (h : CachesRight fuel params c) (hloaded : (c.stakeNode node).isSome) :
    Sim (Fetched fuel params node) (.ok (c.stakeNode node, c))
      (replay fuel params (stakeBlocks params node)) := by
  obtain ⟨s, hs⟩ := isSome_iff_exists.1 hloaded
  obtain ⟨m, hm, hsim⟩ := h.stakeNode node s hs
  rw [hm]
  exact ⟨⟨h, s, hs, hsim⟩, rfl⟩

section

variable (h : RunInv fuel params genesis hist db) (hchain : hist.blocks = stakeBlocks params tip)
  (hmain : MainChain fuel params tip) (hc : CachesRight fuel params c)
  (htip : (c.stakeNode tip).isSome)

include h hchain hmain hc htip

theorem rebuildStakeNode_sim : Sim (Fetched fuel params node)
      (rebuildStakeNode fuel params genesis.2 db tip node c)
      (replay fuel params (stakeBlocks params node)) := by
  obtain ⟨hforktip, hforknode⟩ := BlockTree.findFork_suffix tip node
  obtain ⟨c₁, h₁, hc₁, hloaded⟩ := undoTo_spec h hchain hmain hc (suffix_refl tip) htip hforktip
  unfold rebuildStakeNode
  dsimp only
  rw [h₁, ok_bind]
  split_ifs with hself
  · rw [hself] at hloaded
    exact hc₁.fetched hloaded
  · exact (attachFrom_sim hc₁ hloaded hforknode).bind_left fun _ _ _ _ hh => ⟨hh, rfl⟩

/-- **Fetching** is replaying, and the caches stay right. -/
theorem fetchStakeNode_sim (hnode : node ≠ [] ∨ (c.stakeNode []).isSome) :
    Sim (Fetched fuel params node)
      (fetchStakeNode fuel params genesis.2 db tip node c)
      (replay fuel params (stakeBlocks params node)) := by
  unfold fetchStakeNode
  cases hs : c.stakeNode node with
  | some s =>
    have hloaded : (c.stakeNode node).isSome := by rw [hs]; rfl
    have hfetched := hc.fetched hloaded
    rwa [hs] at hfetched
  | none =>
    cases node with
    | nil =>
      rw [hs] at hnode
      exact (hnode.elim (fun hne => hne rfl) nofun).elim
    | cons b parent =>
      dsimp only
      split_ifs with hparent
      · exact (connectToParent_sim hc hparent).bind_left fun r m _ _ hr => ⟨hr.1, hr.2.symm⟩
      · exact rebuildStakeNode_sim h hchain hmain hc htip

end

end Fetching

end Right

/-- The parent of the genesis block is read, and there is none. -/
theorem fetchStakeNode_genesis (genesisHeader : List UInt8)
    (db : TicketDB) (tip : BlockNode) {c : Caches} (h : c.stakeNode [] = none) :
    fetchStakeNode fuel params genesisHeader db tip [] c = .error .panicked := by
  unfold fetchStakeNode
  rw [h]

/-- **`fetchStakeNode` returns the stake node of the chain**, and fails as the chain does, of every
node but the genesis block, and of the genesis block exactly if its stake node is loaded. -/
theorem fetchStakeNode_eq_replay (fuel : Nat) (params : Params) (genesis : Hash × List UInt8)
    (hist : History) (db : TicketDB) (tip node : BlockNode) (c : Caches)
    (hrun : StakeRun fuel params genesis hist db) (hchain : hist.blocks = stakeBlocks params tip)
    (hmain : MainChain fuel params tip) (hc : CachesRight fuel params c)
    (htip : (c.stakeNode tip).isSome) :
    (fetchStakeNode fuel params genesis.2 db tip node c).map (·.1.map StakeNode.toMap) =
        (replay fuel params (stakeBlocks params node)).map (fun n => some n.toMap) ↔
      node ≠ [] ∨ (c.stakeNode []).isSome := by
  constructor
  · intro heq
    by_contra hnode
    obtain ⟨hnil, hgen⟩ := not_or.1 hnode
    rw [not_not.1 hnil, fetchStakeNode_genesis _ _ _ _ _ (not_isSome_iff_eq_none.1 hgen)]
      at heq
    cases heq
  · intro hnode
    have hfetch := fetchStakeNode_sim hrun.inv hchain hmain hc htip hnode
    rw [hfetch.map_eq (g := some), (replay_sim fuel params _).map_eq (g := some)]
    · exact fun n m hsim => congrArg some hsim.toMap_eq
    · rintro r m ⟨⟨-, s, hs, hsim⟩, hr⟩
      rw [hr, hs, map_some, hsim.toMap_eq]

/-! ## Pruning -/

section Pruning

variable {fuel : Nat} {params : Params} {c : Caches} {tip : BlockNode}

/-- The caches hold less than others. -/
structure Caches.Below (c c' : Caches) : Prop where
  stakeNode : ∀ node s, c.stakeNode node = some s → c'.stakeNode node = some s
  newTickets : ∀ node l, c.newTickets node = some l → c'.newTickets node = some l
  ticketsVoted : ∀ node l, c.ticketsVoted node = some l → c'.ticketsVoted node = some l
  ticketsRevoked : ∀ node l, c.ticketsRevoked node = some l → c'.ticketsRevoked node = some l

omit [Blake256] in
theorem pruneStakeNodes_below (tip : BlockNode) (c : Caches) : (pruneStakeNodes tip c).Below c := by
  unfold pruneStakeNodes
  split
  · exact ⟨fun _ _ h => h, fun _ _ h => h, fun _ _ h => h, fun _ _ h => h⟩
  · exact ⟨fun _ _ h => h, fun _ _ h => h, fun _ _ h => h, fun _ _ h => h⟩
  · refine ⟨?_, ?_, ?_, ?_⟩ <;> intro node x h <;> exact (ite_none_left_eq_some.1 h).2

/-- **Pruning** keeps the caches right. -/
theorem CachesRight.pruneStakeNodes (h : CachesRight fuel params c) (tip : BlockNode) :
    CachesRight fuel params (pruneStakeNodes tip c) :=
  have hb := pruneStakeNodes_below tip c
  ⟨fun node s hs => h.stakeNode node s (hb.stakeNode node s hs),
    fun node l hl => h.newTickets node l (hb.newTickets node l hl),
    fun node l hl => h.ticketsVoted node l (hb.ticketsVoted node l hl),
    fun node l hl => h.ticketsRevoked node l (hb.ticketsRevoked node l hl)⟩

omit [Blake256] in
/-- The best block keeps its stake node. -/
theorem pruneStakeNodes_tip (tip : BlockNode) (c : Caches) :
    (pruneStakeNodes tip c).stakeNode tip = c.stakeNode tip := by
  unfold pruneStakeNodes
  split
  · rfl
  · rfl
  next b pruned hanc =>
    refine if_neg fun hp => ?_
    rw [Bool.and_eq_true] at hp
    have hle := (viewContains_iff.1 hp.1).length_le
    have hlt := (BlockNode.relativeAncestor_suffix hanc).length_le
    rw [length_cons] at hlt
    omega

omit [Blake256] in
/-- **The genesis block is pruned** like any other while the chain is short. -/
theorem pruneStakeNodes_genesis (h : minMemoryStakeNodes ≤ tip.height)
    (hshort : tip.height < minMemoryNodes) (c : Caches) :
    (pruneStakeNodes tip c).stakeNode [] = none := by
  have hpos : 0 < minMemoryStakeNodes := by decide
  have hanc : tip.relativeAncestor (minMemoryStakeNodes - 1) = _ :=
    if_pos (show minMemoryStakeNodes - 1 ≤ tip.height by omega)
  have hlen : (tip.drop (minMemoryStakeNodes - 1)).length =
      tip.height - (minMemoryStakeNodes - 1) := length_drop
  unfold pruneStakeNodes
  rw [hanc]
  cases hd : tip.drop (minMemoryStakeNodes - 1) with
  | nil =>
    rw [hd, length_nil] at hlen
    omega
  | cons b pruned =>
    refine if_pos (Bool.and_eq_true_iff.2 ⟨viewContains_iff.2 nil_suffix, ?_⟩)
    exact decide_eq_true (hshort.trans_eq (zero_add _).symm)

end Pruning

/-! ## Chains to start from -/

/-- Every chain that connects has a run of the stake database. -/
theorem exists_stakeRun {fuel : Nat} {params : Params} (genesis : Hash × List UInt8) {now : Nat}
    {g : StakeNode Immutable} {db₀ : TicketDB}
    (hinit : initDatabaseState params genesis.1 now = .ok (g, db₀)) {node : BlockNode}
    {n : StakeNode Immutable} (hn : replay fuel params (stakeBlocks params node) = .ok n)
    (hfew : ∀ b ∈ stakeBlocks params node, b.newTickets.length ≤ 255)
    (hlen : node.height < 2 ^ 32) :
    ∃ hist db, StakeRun fuel params genesis hist db ∧ hist.blocks = stakeBlocks params node := by
  induction node generalizing n with
  | nil => exact ⟨[], db₀, .init hinit, rfl⟩
  | cons b prev ih =>
    rw [replay_stakeBlocks_cons] at hn
    obtain ⟨p, hp, hconn⟩ := bind_eq_ok.1 hn
    obtain ⟨hist, db, hrun, hblocks⟩ := ih hp (forall_mem_cons.1 hfew).2
      (Nat.lt_of_succ_lt hlen)
    -- the node of the run is related to the one that was replayed, so the block connects to it
    obtain ⟨m, hm, hsim⟩ := hrun.inv.nodes hist (suffix_refl _)
    obtain ⟨m', hm', hsimp⟩ := (replay_sim fuel params _).ok_left hp
    cases (hblocks ▸ hm).symm.trans hm'
    obtain ⟨_, hconn', -⟩ := (connectNode_sim hsimp _ _ _ _ _ _).ok_left hconn
    obtain ⟨n', hn', -⟩ := (connectNode_sim hsim _ _ _ _ _ _).ok_right hconn'
    have hfew' := hfew _ mem_cons_self
    have hlen' : hist.length + 1 < 2 ^ 32 := by
      rw [← History.length_blocks, hblocks, length_stakeBlocks]
      exact hlen
    obtain ⟨db', hdb', -⟩ := hrun.inv.connect (b := ⟨default, b.header, b.votedTickets,
      b.revokedTickets, maturingTickets params (b :: prev)⟩) hfew' hlen' hn'
    exact ⟨_, db', hrun.connect hfew' hlen' hn' hdb', by rw [History.blocks_cons, hblocks]; rfl⟩

/-- Only one node is loaded, with nothing else. -/
def Caches.only (node : BlockNode) (s : StakeNode Immutable) : Caches where
  stakeNode node' := if node' = node then some s else none
  newTickets _ := none
  ticketsVoted _ := none
  ticketsRevoked _ := none
  votesLoaded _ := false

theorem CachesRight.only {fuel : Nat} {params : Params} {node : BlockNode}
    {s : StakeNode Immutable} (hs : replay fuel params (stakeBlocks params node) = .ok s) :
    CachesRight fuel params (.only node s) := by
  refine ⟨fun node' s' h => ?_, nofun, nofun, nofun⟩
  obtain ⟨rfl, hsome⟩ := ite_none_right_eq_some.1 h
  cases hsome
  exact (replay_sim fuel params _).ok_left hs

def quietBlock : TicketBlock := ⟨[], [], [], []⟩

variable {k : Nat}

theorem replay_quiet {M : Type} [TicketMap M] (hk : k + 1 < params.stakeEnabledHeight) :
    (replay fuel params (stakeBlocks params (List.replicate k quietBlock)) :
      Except StakeError (StakeNode M)) = .ok { genesisNode with height := k } := by
  induction k with
  | zero => rfl
  | succ k ih =>
    rw [replicate_succ, replay_stakeBlocks_cons, ih (Nat.lt_of_succ_lt hk), ok_bind]
    have hle := params.enabled_le_validation
    rw [maturingTickets_of_lt (by simpa [BlockNode.height] using Nat.lt_of_succ_lt hk)]
    have henabled : ¬ k + 1 ≥ params.stakeEnabledHeight := by omega
    have hvalid : ¬ k + 1 ≥ params.stakeValidationHeight - 1 := by omega
    simp only [connectNode, connectSpent, connectWinners, henabled, hvalid, if_false, ok_bind,
      foldlM_nil, genesisNode]

theorem addedTickets_quiet {params : Params} (hk : k + 1 < params.stakeEnabledHeight) :
    addedTickets (stakeBlocks params (List.replicate k quietBlock)) = [] := by
  induction k with
  | zero => rfl
  | succ k ih =>
    rw [replicate_succ, stakeBlocks, addedTickets, ih (Nat.lt_of_succ_lt hk), nil_append]
    exact maturingTickets_of_lt (by simpa [BlockNode.height] using Nat.lt_of_succ_lt hk)

/-- The stake nodes of a quiet chain, all loaded. -/
def Caches.quiet (tip : BlockNode) : Caches where
  stakeNode node :=
    if BlockTree.contains tip node then some { genesisNode with height := node.height } else none
  newTickets _ := none
  ticketsVoted _ := none
  ticketsRevoked _ := none
  votesLoaded _ := false

theorem CachesRight.quiet (hk : k + 1 < params.stakeEnabledHeight) :
    CachesRight fuel params (.quiet (List.replicate k quietBlock)) := by
  refine ⟨fun node s h => ?_, nofun, nofun, nofun⟩
  obtain ⟨hsuf, hsome⟩ := ite_none_right_eq_some.1 h
  cases hsome
  have hsuf := viewContains_iff.1 hsuf
  have hnode : node = List.replicate node.length quietBlock :=
    eq_replicate_iff.2 ⟨rfl, fun b hb => eq_of_mem_replicate (hsuf.subset hb)⟩
  have hlen : node.length + 1 < params.stakeEnabledHeight :=
    (Nat.succ_le_succ (hsuf.length_le.trans_eq length_replicate)).trans_lt hk
  have hm := replay_quiet (M := Tickets) fuel params hlen
  rw [← hnode] at hm
  exact ⟨_, hm, { genesisNode_sim with height := rfl }⟩

theorem MainChain.quiet (hk : k + 1 < params.stakeEnabledHeight) :
    MainChain fuel params (List.replicate k quietBlock) := by
  refine ⟨fun b prev hsuf n _ t ht => ?_, ?_⟩
  · rw [eq_of_mem_replicate (hsuf.subset mem_cons_self)] at ht
    cases ht
  · rw [addedTickets_quiet hk]
    exact nodup_nil

end Fetch

section Runs

/-- **The genesis block on the main network**: 288 blocks without stake transactions are connected,
all stake nodes are loaded, and `pruneStakeNodes` runs. Then `fetchStakeNode` of the genesis block
reads through a nil pointer. -/
theorem fetchStakeNode_genesis_mainNet : letI := sumHash
    ∃ (tip : BlockNode) (c : Caches) (hist : History) (db : TicketDB),
      tip.height = 288 ∧ StakeRun 0 mainNetParams (default, []) hist db ∧
      hist.blocks = stakeBlocks mainNetParams tip ∧ MainChain 0 mainNetParams tip ∧
      CachesRight 0 mainNetParams c ∧ (c.stakeNode []).isSome ∧
      CachesRight 0 mainNetParams (pruneStakeNodes tip c) ∧
      ((pruneStakeNodes tip c).stakeNode tip).isSome ∧
      fetchStakeNode 0 mainNetParams [] db tip [] (pruneStakeNodes tip c) = .error .panicked ∧
      replay 0 mainNetParams (stakeBlocks mainNetParams []) =
        .ok (genesisNode : StakeNode Immutable) := by
  let _ := sumHash
  have hk : 288 + 1 < mainNetParams.stakeEnabledHeight := by decide
  have hinit : (initDatabaseState mainNetParams default 0).isOk = true := by decide +kernel
  obtain ⟨⟨g, db₀⟩, hdb₀⟩ := exists_of_isOk hinit
  have hheight : BlockNode.height (List.replicate 288 quietBlock) = 288 := length_replicate
  have hright := CachesRight.quiet 0 mainNetParams hk
  have hloaded : ∀ node : BlockNode, node <:+ List.replicate 288 quietBlock →
      ((Caches.quiet (List.replicate 288 quietBlock)).stakeNode node).isSome := fun node hsuf => by
    rw [Caches.quiet]
    dsimp only
    rw [if_pos (viewContains_iff.2 hsuf)]
    rfl
  have hquiet : ∀ b ∈ stakeBlocks mainNetParams (List.replicate 288 quietBlock),
      b.newTickets.length ≤ 255 := fun b hb => by
    have hsub := newTickets_subset_addedTickets hb
    rw [addedTickets_quiet hk] at hsub
    rw [subset_nil.1 hsub]
    decide
  obtain ⟨hist, db, hrun, hblocks⟩ := exists_stakeRun (default, []) hdb₀
    (replay_quiet 0 mainNetParams hk) hquiet (by rw [hheight]; decide)
  refine ⟨_, _, hist, db, hheight, hrun, hblocks, MainChain.quiet 0 mainNetParams hk, hright,
    hloaded [] nil_suffix, hright.pruneStakeNodes _, ?_, ?_, rfl⟩
  · rw [pruneStakeNodes_tip]
    exact hloaded _ (suffix_refl _)
  · exact fetchStakeNode_genesis _ _ _ _ _ (pruneStakeNodes_genesis hheight.ge
      (by rw [hheight]; decide) _)

/-- Three tickets are bought in the first block; the second one is the best block, and a third block
competes with it. -/
def smallFork : TicketBlock × TicketBlock × TicketBlock :=
  (⟨[1], [smallTicket 10, smallTicket 11, smallTicket 12], [], []⟩,
    ⟨[2], [], [], []⟩, ⟨[3], [smallTicket 14], [], []⟩)

theorem fetchStakeNode_eq_replay_smallFork : letI := sumHash
    ∃ (tip node : BlockNode) (s : StakeNode Immutable) (db : TicketDB),
      tip = [smallFork.2.1, smallFork.1] ∧ node = [smallFork.2.2, smallFork.1] ∧
      (fetchStakeNode 100 smallParams [] db tip node (.only tip s)).map
          (·.1.map StakeNode.toMap) =
        (replay 100 smallParams (stakeBlocks smallParams node)).map (fun n => some n.toMap) := by
  let _ := sumHash
  have hok : (replay 100 smallParams (stakeBlocks smallParams [smallFork.2.1, smallFork.1]) :
      Except StakeError (StakeNode Immutable)).isOk = true := by decide +kernel
  have hinit : (initDatabaseState smallParams default 0).isOk = true := by decide +kernel
  obtain ⟨s, hs⟩ := exists_of_isOk hok
  obtain ⟨⟨g, db₀⟩, hdb₀⟩ := exists_of_isOk hinit
  obtain ⟨hist, db, hrun, hblocks⟩ := exists_stakeRun (default, []) hdb₀ hs
    (by decide +kernel) (by decide)
  have hmain : MainChain 100 smallParams [smallFork.2.1, smallFork.1] := by
    refine ⟨fun b prev hsuf n _ t ht => ?_, by decide +kernel⟩
    have hb : b = smallFork.2.1 ∨ b = smallFork.1 := by
      simpa using hsuf.subset mem_cons_self
    rcases hb with rfl | rfl <;> cases ht
  refine ⟨_, _, s, db, rfl, rfl, ?_⟩
  exact (fetchStakeNode_eq_replay 100 smallParams (default, []) hist db _ _ _ hrun hblocks hmain
    (CachesRight.only hs) (by simp [Caches.only])).2 (Or.inl (by simp))

end Runs

end Fnod
