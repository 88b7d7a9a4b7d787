import Fnod.Chaincfg.Params
import Mathlib.Data.Int.Cast.Lemmas
import Mathlib.Logic.Function.Iterate

/-!
# `subsidy.go`: what a block may create

The subsidy of a block is reduced once for every interval that has passed and is divided between
the miner, the voters and the organization. `CalcBlockSubsidy` keeps values that it has computed in
a cache, which does not show in its results; the loop that computes one from scratch is what is
modelled. The products stay far below the limits of 64 bits for the parameters of a network.

**Theorem (`calcBlockSubsidy_bounds`).** The subsidy of every block is an amount.
-/

namespace Fnod

variable (params : Params) (height : Nat) {subsidy : Int}

def Params.blockOneSubsidy : Int := params.blockOneLedger.sum

def Params.totalSubsidyProportions : Nat :=
  params.workRewardProportion + params.stakeRewardProportion + params.blockTaxProportion

/-- One reduction of the subsidy. -/
def reduceSubsidy (subsidy : Int) : Int :=
  (subsidy * params.mulSubsidy).tdiv params.divSubsidy

def calcBlockSubsidy : Int :=
  if height = 1 then params.blockOneSubsidy
  else
    let iteration := ((height : Int).tdiv params.subsidyReductionInterval).toNat
    (reduceSubsidy params)^[iteration] params.baseSubsidy

def calcBlockWorkSubsidy (voters : Nat) : Int :=
  let subsidy := calcBlockSubsidy params height
  let subsidy := (subsidy * params.workRewardProportion).tdiv params.totalSubsidyProportions
  if height < params.stakeValidationHeight then subsidy
  else if voters = 0 then 0
  else (voters * subsidy).tdiv params.ticketsPerBlock

def calcStakeVoteSubsidy : Int :=
  let subsidy := calcBlockSubsidy params height
  (subsidy * params.stakeRewardProportion).tdiv
    (params.totalSubsidyProportions * params.ticketsPerBlock)

/-- `CalcBlockTaxSubsidy`. Before votes count, the code takes five voters to be present, whatever
the number of tickets that are drawn. -/
def calcBlockTaxSubsidy (voters : Nat) : Int :=
  if params.blockTaxProportion = 0 then 0
  else
    let subsidy := calcBlockSubsidy params height
    let subsidy := (subsidy * params.blockTaxProportion).tdiv params.totalSubsidyProportions
    let voters := if height < params.stakeValidationHeight then 5 else voters
    if voters = 0 ∧ params.stakeValidationHeight ≤ height then 0
    else (voters * subsidy).tdiv params.ticketsPerBlock

/-! ## Bounds -/

theorem tdiv_share_bounds {x : Int} {a b : Nat} (hx : 0 ≤ x) (hab : a ≤ b) :
    0 ≤ (x * a).tdiv b ∧ (x * a).tdiv b ≤ x := by
  have hxa : 0 ≤ x * (a : Int) := mul_nonneg hx (Int.natCast_nonneg a)
  refine ⟨Int.tdiv_nonneg hxa (Int.natCast_nonneg b), ?_⟩
  rcases Nat.eq_zero_or_pos b with rfl | hb
  · simpa using hx
  · rw [Int.tdiv_eq_ediv_of_nonneg hxa]
    refine Int.ediv_le_of_le_mul (by exact_mod_cast hb) ?_
    exact mul_le_mul_of_nonneg_left (by exact_mod_cast hab) hx

variable (params : Params)

theorem reduceSubsidy_bounds (h : 0 ≤ subsidy) :
    0 ≤ reduceSubsidy params subsidy ∧ reduceSubsidy params subsidy ≤ subsidy := by
  have hdiv := Int.toNat_of_nonneg (le_of_lt params.divSubsidy_pos)
  have hmul := Int.toNat_of_nonneg params.mulSubsidy_nonneg
  unfold reduceSubsidy
  rw [← hdiv, ← hmul]
  exact tdiv_share_bounds h (Int.toNat_le_toNat params.mulSubsidy_le)

theorem iterate_reduceSubsidy_bounds (n : Nat) (h : 0 ≤ subsidy) :
    0 ≤ (reduceSubsidy params)^[n] subsidy ∧ (reduceSubsidy params)^[n] subsidy ≤ subsidy := by
  induction n generalizing subsidy with
  | zero => exact ⟨h, le_rfl⟩
  | succ n ih =>
    obtain ⟨h0, hle⟩ := reduceSubsidy_bounds params h
    obtain ⟨h0', hle'⟩ := ih h0
    exact ⟨h0', le_trans hle' hle⟩

/-- **The subsidy is an amount.** -/
theorem calcBlockSubsidy_bounds (height : Nat) :
    0 ≤ calcBlockSubsidy params height ∧ calcBlockSubsidy params height ≤ maxAmount := by
  unfold calcBlockSubsidy
  split_ifs
  · exact ⟨params.blockOneLedger_nonneg, params.blockOneLedger_le⟩
  · obtain ⟨h0, hle⟩ := iterate_reduceSubsidy_bounds params
      ((height : Int).tdiv params.subsidyReductionInterval).toNat params.baseSubsidy_nonneg
    exact ⟨h0, le_trans hle params.baseSubsidy_le⟩

theorem calcStakeVoteSubsidy_bounds (height : Nat) :
    0 ≤ calcStakeVoteSubsidy params height ∧ calcStakeVoteSubsidy params height ≤ maxAmount := by
  obtain ⟨h0, hle⟩ := calcBlockSubsidy_bounds params height
  have hshare : params.stakeRewardProportion ≤
      params.totalSubsidyProportions * params.ticketsPerBlock := by
    refine le_trans ?_ (Nat.le_mul_of_pos_right _ params.ticketsPerBlock_pos)
    unfold Params.totalSubsidyProportions
    omega
  obtain ⟨h0', hle'⟩ := tdiv_share_bounds h0 hshare
  unfold calcStakeVoteSubsidy
  push_cast at h0' hle'
  exact ⟨h0', le_trans hle' hle⟩

end Fnod
