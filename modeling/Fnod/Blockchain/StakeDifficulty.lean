import Fnod.Blockchain.SubsidyCache
import Fnod.Lib.Windows

/-!
# The stake difficulty

The part of `difficulty.go` that sets the price of a ticket by the algorithm of DCP0001, which
compares the tickets at the last two changes of the price. Prices are in signed 64-bit arithmetic
where the code uses it, and exact where it uses big integers.
-/

namespace Fnod

open BlockTree Int64

/-- The fields of a block node that the stake difficulty depends on. -/
structure StakeDiffBlock where
  sbits : Int
  poolSize : Nat
  freshStake : Nat
deriving DecidableEq

/-- A pointer to a block node; nil is the empty list. -/
abbrev StakeDiffNode := List StakeDiffBlock

inductive StakeDiffError
  /-- A division by zero or a nil pointer. -/
  | panicked
deriving DecidableEq

/-- `Div` of package `big`. -/
def bigDiv (a b : Int) : Except StakeDiffError Int :=
  if b = 0 then .error .panicked else .ok (a / b)

/-- The pool size in a header, or that of no block. -/
def poolSizeOf : StakeDiffNode → Int
  | [] => 0
  | b :: _ => b.poolSize

def sumPurchasedTickets (startNode : StakeDiffNode) (numToSum : Int) : Int :=
  ((startNode.take numToSum.toNat).map StakeDiffBlock.freshStake).sum

variable (params : Params)

/-- The height before which there can be no tickets. -/
def stakeDiffStartHeight : Int := params.coinbaseMaturity + 1

/-! ## The second algorithm -/

/-- The target of the pool with the tickets that are not mature. -/
def targetPoolSizeAll : Int :=
  params.ticketsPerBlock * (params.ticketPoolSize + params.ticketMaturity)

def calcNextStakeDiffV2 (nextHeight curDiff prevPoolSizeAll curPoolSizeAll : Int) :
    Except StakeDiffError Int := do
  let nextDiffBig ← bigDiv (curDiff * curPoolSizeAll * curPoolSizeAll) prevPoolSizeAll
  let nextDiffBig ← bigDiv nextDiffBig (targetPoolSizeAll params)
  let nextDiff := wrap nextDiffBig
  let maximumStakeDiff := (estimateSupply params nextHeight).tdiv params.ticketPoolSize
  let nextDiff := if nextDiff > maximumStakeDiff then maximumStakeDiff else nextDiff
  .ok (if nextDiff < params.minimumStakeDiff then params.minimumStakeDiff else nextDiff)

def calcNextRequiredStakeDifficultyV2 (curNode : StakeDiffNode) : Except StakeDiffError Int :=
  let nextHeight := height curNode + 1
  if nextHeight < stakeDiffStartHeight params then .ok params.minimumStakeDiff
  else
    match curNode with
    | [] => .error .panicked
    | b :: _ =>
      let intervalSize : Int := params.stakeDiffWindowSize
      if nextHeight.tmod intervalSize ≠ 0 then .ok b.sbits
      else
        let prevRetargetNode := ancestor curNode (nextHeight - intervalSize - 1)
        let prevPoolSizeAll := poolSizeOf prevRetargetNode +
          sumPurchasedTickets prevRetargetNode params.ticketMaturity
        -- the price stays while there are no tickets to compare with
        if prevPoolSizeAll = 0 then .ok b.sbits
        else
          calcNextStakeDiffV2 params nextHeight b.sbits prevPoolSizeAll
            (b.poolSize + sumPurchasedTickets curNode params.ticketMaturity)

end Fnod
