import Fnod.Blockchain.Orphans
import Fnod.Blockchain.StakeNode

/-!
# `chain.go`, `accept.go`, `process.go`: how a block enters the chain

`ProcessBlock` puts a block whose parent is unknown into the pool of orphans, and passes any other
block to `maybeAcceptBlock` and the orphans that wait for it to `processOrphans`. `maybeAcceptBlock`
adds the block to the index and lets `connectBestChain` extend the best chain, or reorganize to the
branch of the block if that has more work.

The rules themselves are parameters. `connects` says whether `checkConnectBlock` passes, which
depends on a block and its ancestors. The other checks may look at the whole chain, and at the
clock, so each call comes with its own (`Checks`). Nothing here reads from the database.
-/

namespace Fnod

open BlockTree

/-- The errors of `ProcessBlock`, and the panic of a reorganization that cannot be undone. -/
inductive ProcessError
  | duplicateBlock
  | sanity
  | missingParent
  | invalidAncestorBlock
  | context
  | stakeNode
  | connect
  | knownInvalidBlock
  | panics
deriving DecidableEq

def BlockStatus.knownValid (status : BlockStatus) : Bool := status.valid

/-- The cumulative work of a node. -/
def workSum (node : NodePtr) : Nat := (node.map NodeBlock.work).sum

/-- The index and the best chain, by its tip. -/
structure Chain where
  index : BlockIndex
  tip : NodePtr

/-- The checks in a call of `ProcessBlock`: `checkBlockSanity` with the rules on checkpoints,
`checkBlockPositional` and `checkBlockContext`, and whether `fetchStakeNode` succeeds. -/
structure Checks where
  fastAdd : Bool
  sane : Chain → NodeBlock → Bool
  context : Chain → NodePtr → Bool
  stake : Chain → NodePtr → Bool

namespace Chain

/-- Mark nodes that have an invalid ancestor. -/
def markDescendants (ix : BlockIndex) (nodes : List NodePtr) : BlockIndex :=
  nodes.foldl (fun ix n => ix.setStatusFlags n .ofInvalidAncestor) ix

/-- The first loop of `reorganizeChainInternal`: the nodes to attach, or those above a node that is
known to be invalid. -/
def attachNodes (ix : BlockIndex) (fork : NodePtr) :
    NodePtr → List NodePtr → Except (List NodePtr) (List NodePtr)
  | [], nodes => .ok nodes
  | b :: parent, nodes =>
    if b :: parent = fork then .ok nodes
    else if (ix.status (b :: parent)).knownInvalid then .error nodes
    else attachNodes ix fork parent ((b :: parent) :: nodes)

/-- The second loop: disconnect blocks down to the fork point. -/
def detach (fork : NodePtr) : NodePtr → NodePtr
  | [] => []
  | b :: parent => if b :: parent = fork then b :: parent else detach fork parent

/-- The third loop: connect blocks, and check those that are not known to be valid. -/
def attach (connects : NodePtr → Bool) : Chain → List NodePtr → Chain × Option ProcessError
  | c, [] => (c, none)
  | c, n :: rest =>
    if (c.index.status n).knownValid then attach connects { c with tip := n } rest
    else if connects n then
      attach connects { index := c.index.setStatusFlags n .ofValid, tip := n } rest
    else
      ({ c with index := markDescendants (c.index.setStatusFlags n .ofValidateFailed) rest },
        some .connect)

variable (connects : NodePtr → Bool) (c : Chain)

def reorganizeChainInternal (targetTip : NodePtr) : Chain × Option ProcessError :=
  let fork := findFork c.tip targetTip
  match attachNodes c.index fork targetTip [] with
  | .error nodes => ({ c with index := markDescendants c.index nodes }, some .knownInvalidBlock)
  | .ok nodes => attach connects { c with tip := detach fork c.tip } nodes

def reorganizeChain (targetTip : NodePtr) : Chain × Option ProcessError :=
  if targetTip = [] then (c, none)
  else if c.tip = targetTip then (c, none)
  else
    match reorganizeChainInternal connects c targetTip with
    | (c', none) => (c', none)
    | (c', some err) =>
      match reorganizeChainInternal connects c' c.tip with
      | (c'', none) => (c'', some err)
      | (c'', some _) => (c'', some .panics)

/-- `connectBestChain`, with the length of the fork. -/
def connectBestChain (node : NodePtr) (block : NodeBlock)
    (fastAdd : Bool) : Chain × Except ProcessError Int :=
  if block.prevBlock = c.tip.hash then
    let isKnownValid := (c.index.status node).knownValid
    if !(fastAdd || isKnownValid) && !connects node then
      ({ c with index := c.index.setStatusFlags node .ofValidateFailed }, .error .connect)
    else
      let index := if isKnownValid then c.index else c.index.setStatusFlags node .ofValid
      (⟨index, node⟩, .ok 0)
  else if workSum node ≤ workSum c.tip then
    (c, .ok (height node - height (findFork c.tip node)))
  else
    match reorganizeChain connects c node with
    | (c', some err) => (c', .error err)
    | (c', none) => (c', .ok 0)

def maybeAcceptBlock (checks : Checks) (c : Chain) (block : NodeBlock) :
    Chain × Except ProcessError Int :=
  match c.index.lookupNode block.prevBlock with
  | none => (c, .error .missingParent)
  | some prevNode =>
    if (c.index.status prevNode).knownInvalid then (c, .error .invalidAncestorBlock)
    else if !checks.context c (block :: prevNode) then (c, .error .context)
    else
      let newNode := block :: prevNode
      let c := { c with index := c.index.addNode newNode .ofDataStored }
      if decide (height newNode < height c.tip - minMemoryNodes) && !checks.stake c newNode then
        (c, .error .stakeNode)
      else connectBestChain connects c newNode block checks.fastAdd

/-- What `processOrphans` sees of `maybeAcceptBlock`. -/
def acceptOrphan (checks : Checks) (c : Chain) (block : NodeBlock) : Chain × Option ProcessError :=
  match maybeAcceptBlock connects checks c block with
  | (c', .error err) => (c', some err)
  | (c', .ok _) => (c', none)

end Chain

/-- The chain and its orphans. -/
structure BlockChain where
  chain : Chain
  pool : OrphanPool

/-- A call of `ProcessBlock`. If the block is an orphan, the pool is passed over in the order and at
the times of the visits. -/
structure ProcessCall where
  block : NodeBlock
  checks : Checks
  visits : List (OrphanBlock × Int)
  now : Int

namespace BlockChain

/-- `ProcessBlock`, with the length of the fork and whether the block is an orphan. -/
def processBlock (connects : NodePtr → Bool) (b : BlockChain) (call : ProcessCall) :
    Option (BlockChain × Except ProcessError (Int × Bool)) :=
  if b.chain.index.haveBlock call.block.hash then some (b, .error .duplicateBlock)
  else if b.pool.has call.block.hash then some (b, .error .duplicateBlock)
  else if !call.checks.sane b.chain call.block then some (b, .error .sanity)
  else if !b.chain.index.haveBlock call.block.prevBlock then
    (b.pool.addOrphanBlock call.block call.visits call.now).map fun pool =>
      ({ b with pool := pool }, .ok (0, true))
  else
    match b.chain.maybeAcceptBlock connects call.checks call.block with
    | (chain, .error err) => some ({ b with chain := chain }, .error err)
    | (chain, .ok forkLen) =>
      (b.pool.processOrphans (Chain.acceptOrphan connects call.checks) chain call.block.hash).map
        fun r => (⟨r.1, r.2.1⟩, match r.2.2 with
          | some err => .error err
          | none => .ok (forkLen, false))

end BlockChain

end Fnod
