import Fnod.Blockchain.StakeDifficulty
import Fnod.Stake.PoolSize

/-!
# The price of a ticket stays within bounds

`calcNextStakeDiffV2` multiplies big integers, and cuts the result to 64 bits before it compares it
with the bounds. So the result is right as long as the pool cannot get too large. On a chain it
cannot: the header of a block states the size of the pool after its parent, a pool holds only
tickets that have not expired (`liveSize_le`), and what is in the pool or on the way to it grows by
what is bought (`PoolChain.poolSizeNow_growth`).

**Theorem (`calcNextStakeDiffV2_exact`).** For the sizes of the pool that occur on a chain, the next
price is the exact quotient, cut to the bounds.
-/

namespace Fnod

open BlockTree Int64 List

/-! ## Pool sizes on a chain -/

/-- A block: its header, and what it means for the stake node. -/
structure PoolBlock where
  header : StakeDiffBlock
  stake : StakeBlock

/-- The blocks that are connected to the genesis block. -/
def connectedBlocks (node : List PoolBlock) : List StakeBlock := node.dropLast.map PoolBlock.stake

def headers (node : List PoolBlock) : StakeDiffNode := node.map PoolBlock.header

variable (params : Params) (node : StakeDiffNode)

/-- The number of tickets that a block adds to the pool, of `maybeFetchNewTickets`. -/
def maturedCount : Nat :=
  if height node < params.stakeEnabledHeight then 0
  else
    match relativeAncestor node params.ticketMaturity with
    | [] => 0
    | b :: _ => b.freshStake

/-- A branch of blocks with valid headers: no block buys too many tickets, tickets mature, and the
size of the pool is that of the stake node of the parent. -/
def PoolChain [Blake256] (fuel : Nat) (params : Params) : List PoolBlock → Prop
  | [] => True
  | b :: parent => PoolChain fuel params parent ∧
      b.header.freshStake ≤ params.maxFreshStakePerBlock ∧
      b.stake.newTickets.length = maturedCount params (headers (b :: parent)) ∧
      (replay fuel params (connectedBlocks parent) :
        Except StakeError (StakeNode Tickets)).toOption.map
        (fun n => n.liveTickets.size % 2 ^ 32) = some b.header.poolSize

/-- The tickets in the pool, and those on the way to it. -/
def poolSizeAll : Int :=
  poolSizeOf node + sumPurchasedTickets node params.ticketMaturity

/-- The sizes that the price is computed from: not negative, growing by at most what a window, and
the block before it, can buy, and not more than what can be bought before it expires. -/
structure PoolSizes (params : Params) (prevPoolSizeAll curPoolSizeAll : Int) : Prop where
  prev_nonneg : 0 ≤ prevPoolSizeAll
  cur_nonneg : 0 ≤ curPoolSizeAll
  growth : curPoolSizeAll ≤
    prevPoolSizeAll + (params.stakeDiffWindowSize + 1) * params.maxFreshStakePerBlock
  prev_le : prevPoolSizeAll ≤
    (params.ticketExpiry + params.ticketMaturity) * params.maxFreshStakePerBlock

/-- The tickets that the block at a distance from the tip has bought. -/
def freshStakeAt (m : Nat) : Nat := (node[m]?.map (·.freshStake)).getD 0

variable (node : StakeDiffNode)

theorem sumPurchasedTickets_succ (m : Nat) :
    sumPurchasedTickets node (m + 1) = sumPurchasedTickets node m + freshStakeAt node m := by
  have hnat : ((m : Int) + 1).toNat = m + 1 := by omega
  rw [sumPurchasedTickets, hnat, take_add_one, freshStakeAt]
  cases hget : node[m]? <;> simp [sumPurchasedTickets]

theorem maturedCount_of_le {params : Params} {node : StakeDiffNode}
    (h : (params.stakeEnabledHeight : Int) ≤ height node) :
    maturedCount params node = freshStakeAt node params.ticketMaturity := by
  have hle : (params.ticketMaturity : Int) ≤ height node := by
    have := params.ticketMaturity_le
    omega
  have hdrop : relativeAncestor node params.ticketMaturity = node.drop params.ticketMaturity := by
    rw [relativeAncestor, ancestor_eq_drop (by omega) (by omega)]
    congr 1
    omega
  rw [maturedCount, if_neg (by omega), hdrop, freshStakeAt, ← List.head?_drop]
  cases node.drop params.ticketMaturity <;> simp

theorem maturedCount_le (params : Params) (node : StakeDiffNode) :
    maturedCount params node ≤ freshStakeAt node params.ticketMaturity := by
  by_cases h : height node < params.stakeEnabledHeight
  · rw [maturedCount, if_pos h]
    exact Nat.zero_le _
  · rw [maturedCount_of_le (by omega)]

theorem sumPurchasedTickets_nonneg (m : Int) :
    0 ≤ sumPurchasedTickets node m := Int.natCast_nonneg _

theorem poolSizeOf_nonneg : 0 ≤ poolSizeOf node := by
  cases node <;> simp [poolSizeOf]

theorem poolSizeAll_nonneg (params : Params) (node : StakeDiffNode) : 0 ≤ poolSizeAll params node :=
  Int.add_nonneg (poolSizeOf_nonneg node) (sumPurchasedTickets_nonneg node _)

section Chains

variable {fuel : Nat} {params : Params} {b : PoolBlock} {node parent : List PoolBlock}

theorem connectedBlocks_cons (hne : parent ≠ []) :
    connectedBlocks (b :: parent) = b.stake :: connectedBlocks parent := by
  simp [connectedBlocks, dropLast_cons_of_ne_nil hne]

theorem length_connectedBlocks : (connectedBlocks node).length = node.length - 1 := by
  simp [connectedBlocks]

/-- The tickets in the pool, and those that will be, with the ones that mature right now. -/
def poolSizeNow (params : Params) (node : StakeDiffNode) : Int :=
  poolSizeOf node + sumPurchasedTickets node (params.ticketMaturity + 1)

variable [Blake256]

theorem PoolChain.poolSize (h : PoolChain fuel params (b :: parent)) :
    ∃ n : StakeNode Tickets, replay fuel params (connectedBlocks parent) = .ok n ∧
      b.header.poolSize = n.liveTickets.size % 2 ^ 32 := by
  obtain ⟨-, -, -, hpool⟩ := h
  cases hr :
    (replay fuel params (connectedBlocks parent) : Except StakeError (StakeNode Tickets)) with
  | error e => simp [hr, Except.toOption] at hpool
  | ok n =>
    rw [hr] at hpool
    exact ⟨n, rfl, (Option.some.inj hpool).symm⟩

section

variable (h : PoolChain fuel params node)

include h

theorem PoolChain.freshStake_le :
    ∀ b ∈ headers node, b.freshStake ≤ params.maxFreshStakePerBlock := by
  induction node with
  | nil => simp [headers]
  | cons b parent ih =>
    obtain ⟨hparent, hfresh, -, -⟩ := h
    exact forall_mem_cons.2 ⟨hfresh, ih hparent⟩

theorem PoolChain.freshStakeAt_le (m : Nat) :
    freshStakeAt (headers node) m ≤ params.maxFreshStakePerBlock := by
  unfold freshStakeAt
  cases hget : (headers node)[m]? with
  | none => exact Nat.zero_le _
  | some b => exact h.freshStake_le b (mem_of_getElem? hget)

theorem PoolChain.newTickets_le :
    ∀ b ∈ connectedBlocks node, b.newTickets.length ≤ params.maxFreshStakePerBlock := by
  induction node with
  | nil => simp [connectedBlocks]
  | cons b parent ih =>
    have hfresh := h
    obtain ⟨hparent, -, hnew, -⟩ := h
    by_cases hne : parent = []
    · simp [connectedBlocks, hne]
    rw [connectedBlocks_cons hne]
    refine forall_mem_cons.2 ⟨?_, ih hparent⟩
    rw [hnew]
    exact (maturedCount_le _ _).trans (hfresh.freshStakeAt_le _)

theorem PoolChain.addsLate : AddsLate params (connectedBlocks node) := by
  induction node with
  | nil =>
    intro b rest hs
    simp [connectedBlocks] at hs
  | cons b parent ih =>
    obtain ⟨hparent, -, hnew, -⟩ := h
    by_cases hne : parent = []
    · intro b' rest hs
      simp [connectedBlocks, hne] at hs
    rw [connectedBlocks_cons hne]
    intro b' rest hs hlt
    rcases suffix_cons_iff.1 hs with heq | hs
    · obtain ⟨rfl, rfl⟩ := List.cons.inj heq
      have hlen := length_pos_iff.2 hne
      rw [length_connectedBlocks] at hlt
      refine eq_nil_of_length_eq_zero (hnew.trans (if_pos ?_))
      simp only [height, headers, length_map, length_cons]
      omega
    · exact ih hparent b' rest hs hlt

end

section

variable (h : PoolChain fuel params (b :: parent))

include h

/-- The sizes in the headers are not cut to 32 bits. -/
theorem PoolChain.poolSize_eq :
    ∃ n : StakeNode Tickets, replay fuel params (connectedBlocks parent) = .ok n ∧
      b.header.poolSize = n.liveTickets.size := by
  obtain ⟨n, hn, hsize⟩ := h.poolSize
  have hfew : ∀ b' ∈ connectedBlocks parent, b'.newTickets.length ≤ 255 := fun b' hb' =>
    (h.1.newTickets_le b' hb').trans (by have := params.maxFreshStakePerBlock_lt; omega)
  exact ⟨n, hn, by rw [hsize, Nat.mod_eq_of_lt (live_lt hn hfew)]⟩

/-- From one header to the next the pool grows by the tickets that mature in between. -/
theorem PoolChain.poolSize_le : (b.header.poolSize : Int) ≤
      poolSizeOf (headers parent) + maturedCount params (headers parent) := by
  obtain ⟨n, hn, hsize⟩ := h.poolSize_eq
  cases parent with
  | nil =>
    cases hn
    have hzero : b.header.poolSize = 0 := hsize
    simp [hzero, headers, poolSizeOf]
  | cons c parent =>
    obtain ⟨hparent, -⟩ := h
    obtain ⟨n₀, hn₀, hsize₀⟩ := hparent.poolSize_eq
    by_cases hne : parent = []
    · subst hne
      cases hn
      cases hn₀
      simp [hsize, hsize₀, headers, poolSizeOf]
    rw [connectedBlocks_cons hne] at hn
    obtain ⟨n₁, hn₁, hconnect⟩ := Except.bind_eq_ok.1 hn
    obtain rfl : n₁ = n₀ := by rw [hn₀] at hn₁; exact (Except.ok.inj hn₁).symm
    have hle := liveSize_connect_le (replay_base hn₀).flagged hconnect
    rw [hparent.2.2.1] at hle
    have htop : poolSizeOf (headers (c :: parent)) = c.header.poolSize := rfl
    omega

theorem PoolChain.poolSizeNow_le : poolSizeNow params (headers (b :: parent)) ≤
      poolSizeNow params (headers parent) + params.maxFreshStakePerBlock := by
  have hpool := h.poolSize_le
  have hmature := maturedCount_le params (headers parent)
  have hsucc := sumPurchasedTickets_succ (headers parent) params.ticketMaturity
  have hfresh := h.2.1
  have hsum : sumPurchasedTickets (headers (b :: parent)) (params.ticketMaturity + 1) =
      b.header.freshStake + sumPurchasedTickets (headers parent) params.ticketMaturity := by
    have hnat : ((params.ticketMaturity : Int) + 1).toNat = params.ticketMaturity + 1 := by omega
    simp [sumPurchasedTickets, headers, hnat]
  have htop : poolSizeOf (headers (b :: parent)) = b.header.poolSize := rfl
  simp only [poolSizeNow, hsum, htop]
  omega

end

section

variable (h : PoolChain fuel params node)

include h

/-- **Growth.** -/
theorem PoolChain.poolSizeNow_growth (w : Nat) : poolSizeNow params (headers node) ≤
      poolSizeNow params (headers (node.drop w)) + w * params.maxFreshStakePerBlock := by
  induction w generalizing node with
  | zero => simp
  | succ w ih =>
    cases node with
    | nil =>
      simp only [drop_nil, le_add_iff_nonneg_right]
      positivity
    | cons b parent =>
      have hstep := h.poolSizeNow_le
      have hrest := ih h.1
      rw [drop_succ_cons]
      push_cast
      linarith

theorem PoolChain.drop (w : Nat) : PoolChain fuel params (node.drop w) := by
  induction w generalizing node with
  | zero => exact h
  | succ w ih =>
    cases node with
    | nil => exact h
    | cons b parent => exact ih h.1

theorem PoolChain.sumPurchased_le (m : Nat) :
    sumPurchasedTickets (headers node) m ≤ m * params.maxFreshStakePerBlock := by
  have hsum : (((headers node).take m).map StakeDiffBlock.freshStake).sum ≤
      ((headers node).take m).length * params.maxFreshStakePerBlock := by
    refine (sum_le_card_nsmul _ params.maxFreshStakePerBlock ?_).trans (by simp)
    intro x hx
    obtain ⟨b, hb, rfl⟩ := mem_map.1 hx
    exact h.freshStake_le b (mem_of_mem_take hb)
  have hlen := Nat.mul_le_mul_right params.maxFreshStakePerBlock (length_take_le m (headers node))
  rw [sumPurchasedTickets, Int.toNat_natCast]
  exact_mod_cast hsum.trans hlen

theorem PoolChain.poolSizeOf_le :
    poolSizeOf (headers node) ≤ params.ticketExpiry * params.maxFreshStakePerBlock := by
  cases node with
  | nil =>
    simp only [headers, map_nil, poolSizeOf]
    positivity
  | cons b parent =>
    obtain ⟨n, hn, hsize⟩ := h.poolSize_eq
    have hle := liveSize_le hn h.1.addsLate h.1.newTickets_le
    simp only [headers, map_cons, poolSizeOf, hsize]
    exact_mod_cast hle

/-- **The sizes on a chain**, a window apart. -/
theorem PoolChain.poolSizes :
    PoolSizes params (poolSizeAll params (headers (node.drop params.stakeDiffWindowSize)))
      (poolSizeAll params (headers node)) where
  prev_nonneg := poolSizeAll_nonneg _ _
  cur_nonneg := poolSizeAll_nonneg _ _
  growth := by
    have hgrowth := h.poolSizeNow_growth params.stakeDiffWindowSize
    have hcur := sumPurchasedTickets_succ (headers node) params.ticketMaturity
    have hprev : sumPurchasedTickets (headers (node.drop params.stakeDiffWindowSize))
          (params.ticketMaturity + 1) ≤
        sumPurchasedTickets (headers (node.drop params.stakeDiffWindowSize)) params.ticketMaturity +
          params.maxFreshStakePerBlock := by
      rw [sumPurchasedTickets_succ]
      have := (h.drop params.stakeDiffWindowSize).freshStakeAt_le params.ticketMaturity
      omega
    simp only [poolSizeAll, poolSizeNow] at hgrowth ⊢
    linarith
  prev_le := by
    have hpool := (h.drop params.stakeDiffWindowSize).poolSizeOf_le
    have hsum := (h.drop params.stakeDiffWindowSize).sumPurchased_le params.ticketMaturity
    rw [poolSizeAll]
    linarith

end

end Chains

/-! ## The price -/

/-- The most that a window, and the block before it, can buy. -/
def windowPurchases : Int :=
  (params.stakeDiffWindowSize + 1) * params.maxFreshStakePerBlock

/-- A bound for the square of the size of the pool, divided by the size a window before. -/
def squareRatio : Int :=
  (params.ticketExpiry + params.ticketMaturity) * params.maxFreshStakePerBlock +
    2 * windowPurchases params + windowPurchases params * windowPurchases params

/-- What keeps the price in 64 bits: prices are amounts, and pools are limited by the expiry. -/
def PriceFits : Prop :=
  maxAmount * squareRatio params < 2 ^ 63 * targetPoolSizeAll params

instance (params : Params) : Decidable (PriceFits params) := by unfold PriceFits; infer_instance

theorem networks_priceFits : ∀ params ∈ networks, PriceFits params := by decide +kernel

/-- The price before it is cut. -/
def exactStakeDiff (curDiff prevPoolSizeAll curPoolSizeAll : Int) : Int :=
  curDiff * curPoolSizeAll ^ 2 / (prevPoolSizeAll * targetPoolSizeAll params)

/-- The coins there are, for each ticket of the target. -/
def supplyPerTicket (nextHeight : Int) : Int :=
  (∑ k ∈ Finset.Icc 1 nextHeight.toNat, calcBlockSubsidy params k) / params.ticketPoolSize

/-- The price, cut to the bounds. -/
def boundedStakeDiff (nextHeight diff : Int) : Int :=
  max params.minimumStakeDiff
    (min diff (max params.minimumStakeDiff (supplyPerTicket params nextHeight)))

section Price

variable {params : Params} {curDiff prevPoolSizeAll curPoolSizeAll : Int}

theorem targetPoolSizeAll_pos (params : Params) : 0 < targetPoolSizeAll params := by
  have h1 := params.ticketsPerBlock_pos
  have h2 := params.ticketPoolSize_pos
  unfold targetPoolSizeAll
  positivity

/-- The square of the size is not much larger than the size before. -/
theorem PoolSizes.sq_le (h : PoolSizes params prevPoolSizeAll curPoolSizeAll)
    (hpos : 0 < prevPoolSizeAll) : curPoolSizeAll ^ 2 ≤ prevPoolSizeAll * squareRatio params := by
  have hw : 0 ≤ windowPurchases params := by unfold windowPurchases; positivity
  have hgrowth : curPoolSizeAll ≤ prevPoolSizeAll + windowPurchases params := h.growth
  have hcur := h.cur_nonneg
  calc curPoolSizeAll ^ 2 ≤ (prevPoolSizeAll + windowPurchases params) ^ 2 := by gcongr
    _ = prevPoolSizeAll * (prevPoolSizeAll + 2 * windowPurchases params) +
        1 * (windowPurchases params * windowPurchases params) := by ring
    _ ≤ prevPoolSizeAll * (prevPoolSizeAll + 2 * windowPurchases params) +
        prevPoolSizeAll * (windowPurchases params * windowPurchases params) := by
      gcongr
      exact hpos
    _ = prevPoolSizeAll * (prevPoolSizeAll + 2 * windowPurchases params +
        windowPurchases params * windowPurchases params) := by ring
    _ ≤ prevPoolSizeAll * squareRatio params := by
      unfold squareRatio
      gcongr
      exact h.prev_le

theorem exactStakeDiff_bounds (hfits : PriceFits params) (h0 : 0 ≤ curDiff)
    (hmax : curDiff ≤ maxAmount) (h : PoolSizes params prevPoolSizeAll curPoolSizeAll)
    (hpos : 0 < prevPoolSizeAll) :
    0 ≤ exactStakeDiff params curDiff prevPoolSizeAll curPoolSizeAll ∧
      exactStakeDiff params curDiff prevPoolSizeAll curPoolSizeAll < 2 ^ 63 := by
  have htarget := targetPoolSizeAll_pos params
  have hden : 0 < prevPoolSizeAll * targetPoolSizeAll params := by positivity
  refine ⟨Int.ediv_nonneg (by positivity) hden.le, Int.ediv_lt_of_lt_mul hden ?_⟩
  calc curDiff * curPoolSizeAll ^ 2 ≤ maxAmount * (prevPoolSizeAll * squareRatio params) :=
        Int.mul_le_mul hmax (h.sq_le hpos) (by positivity) (by decide)
    _ = prevPoolSizeAll * (maxAmount * squareRatio params) := by ring
    _ < prevPoolSizeAll * (2 ^ 63 * targetPoolSizeAll params) :=
      Int.mul_lt_mul_of_pos_left hfits hpos
    _ = 2 ^ 63 * (prevPoolSizeAll * targetPoolSizeAll params) := by ring

theorem estimateSupply_perTicket (hfits : SubsidyFits params) (nextHeight : Int) :
    (estimateSupply params nextHeight).tdiv params.ticketPoolSize =
      supplyPerTicket params nextHeight := by
  have hnonneg : 0 ≤ ∑ k ∈ Finset.Icc 1 nextHeight.toNat, calcBlockSubsidy params k :=
    Finset.sum_nonneg fun k _ => (calcBlockSubsidy_bounds params k).1
  rw [estimateSupply_eq hfits, Int.tdiv_eq_ediv_of_nonneg hnonneg, supplyPerTicket]

theorem calcNextStakeDiffV2_eq (hsubsidy : SubsidyFits params) (hfits : PriceFits params)
    (nextHeight : Int) (h0 : 0 ≤ curDiff) (hmax : curDiff ≤ maxAmount)
    (h : PoolSizes params prevPoolSizeAll curPoolSizeAll) (hpos : 0 < prevPoolSizeAll) :
    calcNextStakeDiffV2 params nextHeight curDiff prevPoolSizeAll curPoolSizeAll =
      .ok (boundedStakeDiff params nextHeight
        (exactStakeDiff params curDiff prevPoolSizeAll curPoolSizeAll)) := by
  obtain ⟨hnn, hlt⟩ := exactStakeDiff_bounds hfits h0 hmax h hpos
  have hquot : curDiff * curPoolSizeAll * curPoolSizeAll / prevPoolSizeAll /
      targetPoolSizeAll params = exactStakeDiff params curDiff prevPoolSizeAll curPoolSizeAll := by
    rw [Int.ediv_ediv_of_nonneg hpos.le, exactStakeDiff]
    ring_nf
  have htarget := (targetPoolSizeAll_pos params).ne'
  simp only [calcNextStakeDiffV2, bigDiv, if_neg hpos.ne', if_neg htarget, bind, Except.bind, hquot,
    wrap_of_inRange ⟨by omega, hlt⟩, estimateSupply_perTicket hsubsidy, boundedStakeDiff]
  congr 1
  simp only [max_def, min_def]
  split_ifs <;> omega

/-- The node of the change before, at the last block before a change. -/
theorem ancestor_window {β : Type} {node : List β} {w : Nat} (hne : node ≠ []) (hw : 0 < w)
    (hmod : (height node + 1).tmod w = 0) :
    ancestor node (height node + 1 - w - 1) = node.drop w := by
  have hlen : height node + 1 = node.length := by unfold height; omega
  have hpos := length_pos_iff.2 hne
  have hle : w ≤ node.length := by
    rw [hlen] at hmod
    exact Nat.le_of_dvd hpos (Int.natCast_dvd_natCast.1 (Int.dvd_of_tmod_eq_zero hmod))
  rcases lt_or_eq_of_le hle with hlt | heq
  · rw [ancestor_eq_drop (by omega) (by omega)]
    congr 1
    omega
  · rw [heq, drop_length]
    exact if_pos (Or.inl (by omega))

end Price

/-- The consensus rule at the last block before a change. -/
theorem calcNextRequiredStakeDifficultyV2_change {params : Params} {b : StakeDiffBlock}
    {parent : StakeDiffNode} (hstart : stakeDiffStartHeight params ≤ height (b :: parent) + 1)
    (hmod : (height (b :: parent) + 1).tmod params.stakeDiffWindowSize = 0) :
    calcNextRequiredStakeDifficultyV2 params (b :: parent) =
      if poolSizeAll params ((b :: parent).drop params.stakeDiffWindowSize) = 0 then .ok b.sbits
      else calcNextStakeDiffV2 params (height (b :: parent) + 1) b.sbits
        (poolSizeAll params ((b :: parent).drop params.stakeDiffWindowSize))
        (poolSizeAll params (b :: parent)) := by
  have hanc := ancestor_window (by simp) params.stakeDiffWindowSize_pos hmod
  simp only [calcNextRequiredStakeDifficultyV2]
  rw [if_neg (by omega), if_neg (not_not.2 hmod), hanc]
  rfl

/-- **The next price is exact and bounded.** -/
theorem calcNextStakeDiffV2_exact {params : Params} (hparams : params ∈ networks) :
    (∀ nextHeight curDiff prevPoolSizeAll curPoolSizeAll : Int, 0 ≤ curDiff → curDiff ≤ maxAmount →
      PoolSizes params prevPoolSizeAll curPoolSizeAll → 0 < prevPoolSizeAll →
        exactStakeDiff params curDiff prevPoolSizeAll curPoolSizeAll < 2 ^ 63 ∧
        calcNextStakeDiffV2 params nextHeight curDiff prevPoolSizeAll curPoolSizeAll =
          .ok (boundedStakeDiff params nextHeight
            (exactStakeDiff params curDiff prevPoolSizeAll curPoolSizeAll))) ∧
    ∀ [Blake256] (fuel : Nat) (b : PoolBlock) (parent : List PoolBlock),
      PoolChain fuel params (b :: parent) →
        let node := headers (b :: parent)
        let prevPoolSizeAll := poolSizeAll params (node.drop params.stakeDiffWindowSize)
        PoolSizes params prevPoolSizeAll (poolSizeAll params node) ∧
        (0 ≤ b.header.sbits → b.header.sbits ≤ maxAmount →
          stakeDiffStartHeight params ≤ height node + 1 →
          (height node + 1).tmod params.stakeDiffWindowSize = 0 →
            calcNextRequiredStakeDifficultyV2 params node =
              .ok (if prevPoolSizeAll = 0 then b.header.sbits
                else boundedStakeDiff params (height node + 1)
                  (exactStakeDiff params b.header.sbits prevPoolSizeAll
                    (poolSizeAll params node)))) := by
  have hsubsidy := networks_subsidyFits params hparams
  have hfits := networks_priceFits params hparams
  constructor
  · intro nextHeight curDiff prevPoolSizeAll curPoolSizeAll h0 hmax hsizes hpos
    exact ⟨(exactStakeDiff_bounds hfits h0 hmax hsizes hpos).2,
      calcNextStakeDiffV2_eq hsubsidy hfits nextHeight h0 hmax hsizes hpos⟩
  · intro _ fuel b parent hchain node prevPoolSizeAll
    have hsizes : PoolSizes params prevPoolSizeAll (poolSizeAll params node) := by
      have h := hchain.poolSizes
      rwa [headers, map_drop] at h
    refine ⟨hsizes, fun h0 hmax hstart hmod => ?_⟩
    refine (calcNextRequiredStakeDifficultyV2_change hstart hmod).trans ?_
    by_cases hzero : prevPoolSizeAll = 0
    · rw [if_pos hzero]
      exact if_pos hzero
    · rw [if_neg hzero]
      refine (if_neg hzero).trans ?_
      have hpos : 0 < prevPoolSizeAll := lt_of_le_of_ne hsizes.prev_nonneg (Ne.symm hzero)
      exact calcNextStakeDiffV2_eq hsubsidy hfits _ h0 hmax hsizes hpos

instance PoolChain.decidable [Blake256] (fuel : Nat) (params : Params) :
    (node : List PoolBlock) → Decidable (PoolChain fuel params node)
  | [] => isTrue trivial
  | _ :: parent =>
    have := PoolChain.decidable fuel params parent
    inferInstanceAs (Decidable (_ ∧ _))

/-- A block of the simulation network: from the tenth on they buy all the tickets they can. -/
def buyingBlock (h : Nat) : PoolBlock :=
  ⟨⟨20000, 0, if 10 ≤ h then 20 else 0⟩, ⟨default, [], [], []⟩⟩

def buyingChain : List PoolBlock := buyingBlock 23 :: ((List.range 23).map buyingBlock).reverse

theorem calcNextStakeDiffV2_exact_simNet :
    @PoolChain sumHash 1 simNetParams buyingChain ∧ PoolSizes simNetParams 120 280 ∧
      calcNextStakeDiffV2 simNetParams 24 20000 120 280 =
        .ok (boundedStakeDiff simNetParams 24 (exactStakeDiff simNetParams 20000 120 280)) ∧
      calcNextRequiredStakeDifficultyV2 simNetParams (headers buyingChain) =
        .ok (boundedStakeDiff simNetParams 24 (exactStakeDiff simNetParams 20000 120 280)) := by
  have hchain : @PoolChain sumHash 1 simNetParams buyingChain := by decide +kernel
  have hprev : poolSizeAll simNetParams
      ((headers buyingChain).drop simNetParams.stakeDiffWindowSize) = 120 := by decide +kernel
  have hcur : poolSizeAll simNetParams (headers buyingChain) = 280 := by decide +kernel
  obtain ⟨hcalc, hrule⟩ := @calcNextStakeDiffV2_exact simNetParams (by simp [networks])
  obtain ⟨hsizes, hnext⟩ := @hrule sumHash 1 _ _ hchain
  replace hnext := hnext (by decide) (by decide) (by decide +kernel) (by decide +kernel)
  change PoolSizes _ (poolSizeAll _ ((headers buyingChain).drop _))
    (poolSizeAll _ (headers buyingChain)) at hsizes
  change _ = Except.ok (if poolSizeAll simNetParams ((headers buyingChain).drop
    simNetParams.stakeDiffWindowSize) = 0 then _ else _) at hnext
  rw [hprev, hcur] at hsizes
  rw [hprev] at hnext
  exact ⟨hchain, hsizes,
    (hcalc 24 20000 120 280 (by decide) (by decide) hsizes (by decide)).2, hnext⟩

end Fnod
