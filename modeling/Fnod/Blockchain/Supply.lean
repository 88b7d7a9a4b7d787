import Fnod.Blockchain.SubsidyCache

/-!
# The supply of coins

What all blocks up to a height create: block one pays out the ledger, and every other block pays the
miner, the organization and every voter that may vote.

**Theorem (`supply_capped`).** The supply stays below `MaxAmount` for ever exactly for the networks
where the ledger leaves room for the geometric bound on the subsidies. The main network is not one
of them: its ledger pays out 13.4 million coins, and the subsidies of the blocks add 19.3 million
more (`supply_mainNet_exceeds`).
-/

namespace Fnod

open Finset

/-- What a block pays with all its voters. -/
def blockReward (params : Params) (height : Nat) : Int :=
  calcBlockWorkSubsidy params height params.ticketsPerBlock +
    calcBlockTaxSubsidy params height params.ticketsPerBlock +
    params.ticketsPerBlock * calcStakeVoteSubsidy params height

/-- What the blocks up to a height pay. -/
def supply (params : Params) (height : Nat) : Int :=
  ∑ h ∈ range (height + 1), if h = 1 then params.blockOneSubsidy else blockReward params h

/-- The ledger leaves room for a geometric decay from the base subsidy. -/
def LedgerFits (params : Params) : Prop :=
  (params.divSubsidy - params.mulSubsidy) * params.blockOneSubsidy +
      params.subsidyReductionInterval * (params.divSubsidy * params.baseSubsidy) ≤
    (params.divSubsidy - params.mulSubsidy) * maxAmount

instance (params : Params) : Decidable (LedgerFits params) := inferInstanceAs (Decidable (_ ≤ _))

variable {params : Params}

/-! ## One block -/

variable {voters : Nat}

/-- The three shares of a subsidy, rounded down. -/
theorem shares_le {s : Int} (hs : 0 ≤ s) (hvoters : voters ≤ params.ticketsPerBlock) :
    (s * params.workRewardProportion).tdiv params.totalSubsidyProportions +
      (s * params.blockTaxProportion).tdiv params.totalSubsidyProportions +
      voters * (s * params.stakeRewardProportion).tdiv
        (params.totalSubsidyProportions * params.ticketsPerBlock) ≤ s := by
  have hP : (0 : Int) < params.totalSubsidyProportions := by exact_mod_cast params.proportions_pos
  have hT : (0 : Int) < params.ticketsPerBlock := by exact_mod_cast params.ticketsPerBlock_pos
  have hw : 0 ≤ s * (params.workRewardProportion : Int) := mul_nonneg hs (Int.natCast_nonneg _)
  have ht : 0 ≤ s * (params.blockTaxProportion : Int) := mul_nonneg hs (Int.natCast_nonneg _)
  have hv : 0 ≤ s * (params.stakeRewardProportion : Int) := mul_nonneg hs (Int.natCast_nonneg _)
  rw [Int.tdiv_eq_ediv_of_nonneg hw, Int.tdiv_eq_ediv_of_nonneg ht, Int.tdiv_eq_ediv_of_nonneg hv]
  have hwork := Int.mul_ediv_self_le (x := s * params.workRewardProportion) (ne_of_gt hP)
  have htax := Int.mul_ediv_self_le (x := s * params.blockTaxProportion) (ne_of_gt hP)
  have hvote := Int.mul_ediv_self_le (x := s * params.stakeRewardProportion)
    (ne_of_gt (mul_pos hP hT))
  set work := s * (params.workRewardProportion : Int) / params.totalSubsidyProportions
  set tax := s * (params.blockTaxProportion : Int) / params.totalSubsidyProportions
  set vote := s * (params.stakeRewardProportion : Int) /
    (params.totalSubsidyProportions * params.ticketsPerBlock) with hvotedef
  have hvote0 : 0 ≤ vote := Int.ediv_nonneg hv (le_of_lt (mul_pos hP hT))
  have hvoted : (voters : Int) * vote ≤ params.ticketsPerBlock * vote :=
    mul_le_mul_of_nonneg_right (by exact_mod_cast hvoters) hvote0
  have htotal : s * (params.totalSubsidyProportions : Int) = s * params.workRewardProportion +
      s * params.blockTaxProportion + s * params.stakeRewardProportion := by
    rw [Params.totalSubsidyProportions]
    push_cast
    ring
  refine Int.le_of_mul_le_mul_right ?_ hP
  calc (work + tax + voters * vote) * (params.totalSubsidyProportions : Int)
      ≤ (work + tax + params.ticketsPerBlock * vote) * params.totalSubsidyProportions :=
        mul_le_mul_of_nonneg_right (by omega) (le_of_lt hP)
    _ = params.totalSubsidyProportions * work + params.totalSubsidyProportions * tax +
        params.totalSubsidyProportions * params.ticketsPerBlock * vote := by
        ring
    _ ≤ s * params.totalSubsidyProportions := by
        omega

/-- A part of the voters is paid a part. -/
theorem voted_le {x : Int} (hx : 0 ≤ x) (h : voters ≤ params.ticketsPerBlock) :
    (voters * x).tdiv params.ticketsPerBlock ≤ x := by
  rw [mul_comm]
  exact (tdiv_share_bounds hx h).2

theorem share_nonneg {s : Int} (hs : 0 ≤ s) (a b : Nat) : 0 ≤ (s * a).tdiv b :=
  Int.tdiv_nonneg (mul_nonneg hs (Int.natCast_nonneg a)) (Int.natCast_nonneg b)

theorem calcBlockWorkSubsidy_le (height : Nat) (h : voters ≤ params.ticketsPerBlock) :
    calcBlockWorkSubsidy params height voters ≤
      (calcBlockSubsidy params height * params.workRewardProportion).tdiv
        params.totalSubsidyProportions := by
  have hnn := share_nonneg (calcBlockSubsidy_bounds params height).1 params.workRewardProportion
    params.totalSubsidyProportions
  simp only [calcBlockWorkSubsidy]
  split_ifs
  · exact le_rfl
  · exact hnn
  · exact voted_le hnn h

section

variable (hfive : 5 ≤ params.ticketsPerBlock) (height : Nat) (h : voters ≤ params.ticketsPerBlock)

include hfive height h

/-- With five tickets a block, the five voters that are assumed at first are not too many. -/
theorem calcBlockTaxSubsidy_le : calcBlockTaxSubsidy params height voters ≤
      (calcBlockSubsidy params height * params.blockTaxProportion).tdiv
        params.totalSubsidyProportions := by
  have hnn := share_nonneg (calcBlockSubsidy_bounds params height).1 params.blockTaxProportion
    params.totalSubsidyProportions
  simp only [calcBlockTaxSubsidy]
  split_ifs
  · exact hnn
  · exact hnn
  · exact voted_le hnn hfive
  · exact hnn
  · exact voted_le hnn h

/-- **A block pays at most its subsidy.** -/
theorem reward_le :
    calcBlockWorkSubsidy params height voters + calcBlockTaxSubsidy params height voters +
      voters * calcStakeVoteSubsidy params height ≤ calcBlockSubsidy params height := by
  have hwork := calcBlockWorkSubsidy_le height h
  have htax := calcBlockTaxSubsidy_le hfive height h
  have hshares := shares_le (calcBlockSubsidy_bounds params height).1 h
  simp only [calcStakeVoteSubsidy]
  omega

end

/-! ## All blocks -/

theorem intervalSubsidy_antitone (params : Params) {m n : Nat} (hle : m ≤ n) :
    intervalSubsidy params n ≤ intervalSubsidy params m := by
  refine antitone_nat_of_succ_le (fun n => ?_) hle
  rw [intervalSubsidy_succ]
  exact (reduceSubsidy_bounds params (intervalSubsidy_bounds params n).1).2

/-- **The subsidy does not grow.** -/
theorem calcBlockSubsidy_antitone (params : Params) {h h' : Nat} (h2 : 2 ≤ h) (hle : h ≤ h') :
    calcBlockSubsidy params h' ≤ calcBlockSubsidy params h := by
  obtain ⟨len, hlen⟩ := Int.eq_ofNat_of_zero_le (le_of_lt params.subsidyReductionInterval_pos)
  rw [calcBlockSubsidy_eq hlen (by omega), calcBlockSubsidy_eq hlen (by omega)]
  exact intervalSubsidy_antitone params (Nat.div_le_div_right hle)

/-- **The supply is capped** where the ledger leaves room. -/
theorem supply_le (hfits : SubsidyFits params) (hfive : 5 ≤ params.ticketsPerBlock)
    (hledger : LedgerFits params) (height : Nat) : supply params height ≤ maxAmount := by
  obtain ⟨len, hlen⟩ := Int.eq_ofNat_of_zero_le (le_of_lt params.subsidyReductionInterval_pos)
  have hlenpos : 0 < len := by simpa [hlen] using params.subsidyReductionInterval_pos
  set q := height / len with hq
  have hblock : ∀ h ∈ range (height + 1),
      (if h = 1 then params.blockOneSubsidy else blockReward params h) ≤
        (if h = 1 then params.blockOneSubsidy else 0) + intervalSubsidy params (h / len) := by
    intro h _
    have hnn := (intervalSubsidy_bounds params (h / len)).1
    by_cases h1 : h = 1
    · simp only [h1, if_true]
      rw [h1] at hnn
      omega
    · simp only [h1, if_false, zero_add]
      rw [← calcBlockSubsidy_eq hlen h1]
      exact reward_le hfive h (le_rfl)
  have hone : ∑ h ∈ range (height + 1), (if h = 1 then params.blockOneSubsidy else 0) ≤
      params.blockOneSubsidy := by
    rw [sum_ite_eq']
    split_ifs
    · exact le_rfl
    · exact params.blockOneLedger_nonneg
  have hrest : ∑ h ∈ range (height + 1), intervalSubsidy params (h / len) ≤
      len * ∑ i ∈ range (q + 1), intervalSubsidy params i := by
    rw [Decay.sum_range_div _ hlenpos, ← hq, sum_range_succ, mul_add]
    have hlast : ((height % len + 1 : Nat) : Int) * intervalSubsidy params q ≤
        len * intervalSubsidy params q :=
      mul_le_mul_of_nonneg_right (by exact_mod_cast Nat.mod_lt height hlenpos)
        (intervalSubsidy_bounds params q).1
    omega
  have hpos : 0 < params.divSubsidy - params.mulSubsidy := by
    have := hfits.mul_lt_div
    omega
  refine Int.le_of_mul_le_mul_left ?_ hpos
  calc (params.divSubsidy - params.mulSubsidy) * supply params height
      ≤ (params.divSubsidy - params.mulSubsidy) * (params.blockOneSubsidy +
          len * ∑ i ∈ range (q + 1), intervalSubsidy params i) := by
        refine mul_le_mul_of_nonneg_left ?_ (le_of_lt hpos)
        have hsum := sum_le_sum hblock
        rw [sum_add_distrib] at hsum
        rw [supply]
        omega
    _ = (params.divSubsidy - params.mulSubsidy) * params.blockOneSubsidy +
          len * ((params.divSubsidy - params.mulSubsidy) *
            ∑ i ∈ range (q + 1), intervalSubsidy params i) := by
        ring
    _ ≤ (params.divSubsidy - params.mulSubsidy) * params.blockOneSubsidy +
          params.subsidyReductionInterval * (params.divSubsidy * params.baseSubsidy) := by
        have hgeometric := mul_le_mul_of_nonneg_left (sum_intervalSubsidy_le params (q + 1))
          (Int.natCast_nonneg len)
        rw [hlen]
        exact Int.add_le_add_left hgeometric _
    _ ≤ (params.divSubsidy - params.mulSubsidy) * maxAmount := hledger

/-! ## The main network -/

/-- What is paid of a subsidy when all voters vote. -/
def paidOf (params : Params) (s : Int) : Int :=
  (s * params.workRewardProportion).tdiv params.totalSubsidyProportions +
    (s * params.blockTaxProportion).tdiv params.totalSubsidyProportions +
    params.ticketsPerBlock * (s * params.stakeRewardProportion).tdiv
      (params.totalSubsidyProportions * params.ticketsPerBlock)

/-- With five tickets a block, the rules before and after stake validation pay the same. -/
theorem blockReward_eq (hfive : params.ticketsPerBlock = 5) (htax : params.blockTaxProportion ≠ 0)
    (height : Nat) :
    blockReward params height = paidOf params (calcBlockSubsidy params height) := by
  have hall : ∀ x : Int, ((5 : Nat) * x).tdiv (5 : Nat) = x := fun x =>
    Int.mul_tdiv_cancel_left x (by decide)
  have hne : ¬ (5 : Nat) = 0 := by decide
  simp only [blockReward, paidOf, calcBlockWorkSubsidy, calcBlockTaxSubsidy, calcStakeVoteSubsidy,
    hfive, htax, hall, hne, if_false, false_and, ite_self]

theorem supply_eq (hfits : SubsidyFits params) (hfive : params.ticketsPerBlock = 5)
    (htax : params.blockTaxProportion ≠ 0) {len : Nat}
    (hlen : params.subsidyReductionInterval = len) {height : Nat} (h : 1 ≤ height) :
    supply params height = params.blockOneSubsidy - paidOf params params.baseSubsidy +
      (len * ∑ i ∈ range (height / len), paidOf params (intervalSubsidy params i) +
        (height % len + 1 : Nat) * paidOf params (intervalSubsidy params (height / len))) := by
  have hone : 1 < len := by
    have := hfits.one_lt_interval
    omega
  have hsum : ∀ height, 1 ≤ height → supply params height =
      params.blockOneSubsidy - paidOf params params.baseSubsidy +
        ∑ k ∈ range (height + 1), paidOf params (intervalSubsidy params (k / len)) := by
    intro height h
    induction height, h using Nat.le_induction with
    | base =>
      have h1 : 1 / len = 0 := Nat.div_eq_of_lt hone
      have hbase : intervalSubsidy params 0 = params.baseSubsidy := rfl
      simp only [supply, sum_range_succ, range_zero, sum_empty, Nat.zero_div, h1, hbase, if_true,
        Nat.zero_ne_one, if_false, blockReward_eq hfive htax,
        calcBlockSubsidy_eq hlen Nat.zero_ne_one]
      ring
    | succ height hheight ih =>
      have hne : height + 1 ≠ 1 := by omega
      rw [supply, sum_range_succ, ← supply, ih, if_neg hne, blockReward_eq hfive htax,
        calcBlockSubsidy_eq hlen hne, sum_range_succ _ (height + 1)]
      ring
  rw [hsum height h, Decay.sum_range_div (fun i => paidOf params (intervalSubsidy params i))
    (by omega)]

theorem supply_mainNet {height : Nat} (h : 1 ≤ height) :
    supply mainNetParams height = 13400000 * atomsPerCoin - paidOf mainNetParams 3119582664 +
      (6144 * ∑ i ∈ range (height / 6144), paidOf mainNetParams (intervalSubsidy mainNetParams i) +
        (height % 6144 + 1 : Nat) *
          paidOf mainNetParams (intervalSubsidy mainNetParams (height / 6144))) := by
  have hledger : mainNetParams.blockOneSubsidy = 13400000 * atomsPerCoin := by decide +kernel
  have hfits := networks_subsidyFits mainNetParams (by simp [networks])
  have hlen : mainNetParams.subsidyReductionInterval = (6144 : Nat) := rfl
  rw [supply_eq hfits rfl (by decide) hlen h, hledger]
  rfl

theorem maxAmount_lt_supply_mainNet : maxAmount < supply mainNetParams 307848 := by
  rw [supply_mainNet (by decide)]
  decide +kernel

/-! ## The cap -/

/-- **The supply is capped** for exactly the networks whose ledger leaves room; no block pays more
than its subsidy, and from height two on the subsidy does not grow. -/
theorem supply_capped : ∀ params ∈ networks,
    ((∀ height, supply params height ≤ maxAmount) ∧
      (∀ height voters, voters ≤ params.ticketsPerBlock →
        calcBlockWorkSubsidy params height voters + calcBlockTaxSubsidy params height voters +
          voters * calcStakeVoteSubsidy params height ≤ calcBlockSubsidy params height) ∧
      ∀ h h', 2 ≤ h → h ≤ h' → calcBlockSubsidy params h' ≤ calcBlockSubsidy params h) ↔
    LedgerFits params := by
  intro params hparams
  have hfits := networks_subsidyFits params hparams
  have hfive : ∀ params ∈ networks, 5 ≤ params.ticketsPerBlock := by decide
  constructor
  · rintro ⟨hcap, -, -⟩
    by_cases hmain : params = mainNetParams
    · subst hmain
      have hlt := maxAmount_lt_supply_mainNet
      have hle := hcap 307848
      omega
    · simp only [networks, List.mem_cons, hmain, false_or, List.not_mem_nil, or_false] at hparams
      rcases hparams with rfl | rfl | rfl <;> decide
  · intro hledger
    refine ⟨supply_le hfits (hfive params hparams) hledger, fun height voters hvoters => ?_, ?_⟩
    · exact reward_le (hfive params hparams) height hvoters
    · intro h h' h2 hle
      exact calcBlockSubsidy_antitone params h2 hle

theorem supply_capped_testNet :
    (∀ height, supply testNetParams height ≤ maxAmount) ∧ LedgerFits testNetParams :=
  have hledger : LedgerFits testNetParams := by decide
  ⟨((supply_capped testNetParams (by simp [networks])).2 hledger).1, hledger⟩

/-- The main network passes the cap at height 307848, in its 51st interval. -/
theorem supply_mainNet_exceeds :
    supply mainNetParams 307847 ≤ maxAmount ∧ maxAmount < supply mainNetParams 307848 := by
  refine ⟨?_, maxAmount_lt_supply_mainNet⟩
  rw [supply_mainNet (by decide)]
  decide +kernel

end Fnod
