import Mathlib.Algebra.Order.Ring.Int
import Mathlib.Tactic.Common

/-!
# Package `chaincfg`: the parameters of a network

The fields that the modelled code reads, with the values of the four networks. The code relies on
a few relations between the fields without checking them; they are fields of the structure, so
that a set of parameters which breaks one cannot be built, and each network proves them.

The `uint16` and `uint32` parameters are numbers here; the bounds that matter are stated.
-/

namespace Fnod

/-- `AtomsPerCoin` of package `fnoutil`. -/
def atomsPerCoin : Int := 100000000

/-- `MaxAmount` of package `fnoutil`. -/
def maxAmount : Int := 21000000 * atomsPerCoin

/-- `CurrencyNet` of package `wire`, for the networks that have parameters. -/
inductive CurrencyNet where
  | mainNet
  | testNet
  | simNet
  | regNet
deriving DecidableEq

/-- `Second` of package `time`: durations are counted in nanoseconds. -/
def second : Int := 1000000000

/-- The parameters of a network. -/
structure Params where
  net : CurrencyNet
  /-- The easiest target of a proof of work. -/
  powLimit : Int
  powLimitBits : UInt32
  reduceMinDifficulty : Bool
  minDiffReductionTime : Int
  workDiffAlpha : Nat
  workDiffWindowSize : Nat
  workDiffWindows : Nat
  targetTimespan : Int
  retargetAdjustmentFactor : Int
  /-- Subsidy of the first block, in atoms. -/
  baseSubsidy : Int
  mulSubsidy : Int
  divSubsidy : Int
  subsidyReductionInterval : Int
  workRewardProportion : Nat
  stakeRewardProportion : Nat
  blockTaxProportion : Nat
  minimumStakeDiff : Int
  ticketPoolSize : Nat
  ticketPoolSizeWeight : Nat
  stakeDiffAlpha : Nat
  stakeDiffWindowSize : Nat
  stakeDiffWindows : Nat
  ticketsPerBlock : Nat
  ticketMaturity : Nat
  ticketExpiry : Nat
  coinbaseMaturity : Nat
  sstxChangeMaturity : Nat
  maxFreshStakePerBlock : Nat
  stakeEnabledHeight : Nat
  stakeValidationHeight : Nat
  stakeBaseSigScript : List UInt8
  organizationPkScript : List UInt8
  organizationPkScriptVersion : Nat
  /-- The amounts that block one pays out. -/
  blockOneLedger : List Int
  stakeVersionInterval : Nat
  stakeMajorityMultiplier : Nat
  stakeMajorityDivisor : Nat
  blockRejectNumRequired : Nat
  blockUpgradeNumToCheck : Nat
  ruleChangeActivationQuorum : UInt32
  ruleChangeActivationMultiplier : UInt32
  ruleChangeActivationDivisor : UInt32
  ruleChangeActivationInterval : Nat
  powLimit_pos : 0 < powLimit := by decide
  powLimit_lt : powLimit < 2 ^ 256 := by decide
  workDiffWindowSize_pos : 0 < workDiffWindowSize := by decide
  workDiffWindows_pos : 0 < workDiffWindows := by decide
  targetTimespan_pos : second ≤ targetTimespan := by decide
  retargetAdjustmentFactor_pos : 0 < retargetAdjustmentFactor := by decide
  minimumStakeDiff_nonneg : 0 ≤ minimumStakeDiff := by decide
  ticketPoolSize_pos : 0 < ticketPoolSize := by decide
  stakeDiffWindowSize_pos : 0 < stakeDiffWindowSize := by decide
  baseSubsidy_nonneg : 0 ≤ baseSubsidy := by decide
  baseSubsidy_le : baseSubsidy ≤ maxAmount := by decide
  mulSubsidy_nonneg : 0 ≤ mulSubsidy := by decide
  mulSubsidy_le : mulSubsidy ≤ divSubsidy := by decide
  divSubsidy_pos : 0 < divSubsidy := by decide
  subsidyReductionInterval_pos : 0 < subsidyReductionInterval := by decide
  proportions_pos :
    0 < workRewardProportion + stakeRewardProportion + blockTaxProportion := by decide
  proportions_lt :
    workRewardProportion + stakeRewardProportion + blockTaxProportion < 2 ^ 16 := by decide
  blockOneLedger_nonneg : 0 ≤ blockOneLedger.sum := by decide
  blockOneLedger_le : blockOneLedger.sum ≤ maxAmount := by decide
  ticketsPerBlock_pos : 0 < ticketsPerBlock := by decide
  ticketsPerBlock_lt : ticketsPerBlock < 2 ^ 16 := by decide
  ticketExpiry_pos : 0 < ticketExpiry := by decide
  sstxChangeMaturity_pos : 0 < sstxChangeMaturity := by decide
  maxFreshStakePerBlock_lt : maxFreshStakePerBlock < 256 := by decide
  /-- Tickets mature before staking is enabled. -/
  ticketMaturity_le : ticketMaturity ≤ stakeEnabledHeight := by decide
  /-- Votes count only once staking is enabled. -/
  enabled_le_validation : stakeEnabledHeight ≤ stakeValidationHeight := by decide
  /-- Block one is never voted on. -/
  one_lt_validation : 1 < stakeValidationHeight := by decide
  validation_lt : stakeValidationHeight < 2 ^ 24 := by decide
  stakeVersionInterval_pos : 0 < stakeVersionInterval := by decide
  ruleChangeActivationInterval_pos : 0 < ruleChangeActivationInterval := by decide
  blockRejectNumRequired_pos : 0 < blockRejectNumRequired := by decide
  stakeMajorityMultiplier_le : stakeMajorityMultiplier ≤ stakeMajorityDivisor := by decide
  /-- What is required of the headers of an interval is more than half of them. -/
  headers_majority : stakeVersionInterval <
    2 * (stakeVersionInterval * stakeMajorityMultiplier / stakeMajorityDivisor) := by decide
  /-- So it is with votes, if every block has a majority of them. -/
  votes_majority : 2 * stakeMajorityDivisor + stakeMajorityDivisor *
      ((ticketsPerBlock / 2 + 1) * stakeVersionInterval) <
    2 * stakeMajorityMultiplier * ((ticketsPerBlock / 2 + 1) * stakeVersionInterval) := by decide

def mainNetParams : Params where
  net := .mainNet
  powLimit := 2 ^ 224 - 1
  powLimitBits := 0x1d00ffff
  reduceMinDifficulty := false
  minDiffReductionTime := 0
  workDiffAlpha := 1
  workDiffWindowSize := 144
  workDiffWindows := 20
  targetTimespan := 5 * 60 * 144 * second
  retargetAdjustmentFactor := 4
  baseSubsidy := 3119582664
  mulSubsidy := 100
  divSubsidy := 101
  subsidyReductionInterval := 6144
  workRewardProportion := 6
  stakeRewardProportion := 3
  blockTaxProportion := 1
  minimumStakeDiff := 2 * atomsPerCoin
  ticketPoolSize := 8192
  ticketPoolSizeWeight := 4
  stakeDiffAlpha := 1
  stakeDiffWindowSize := 144
  stakeDiffWindows := 20
  ticketsPerBlock := 5
  ticketMaturity := 256
  ticketExpiry := 40960
  coinbaseMaturity := 256
  sstxChangeMaturity := 1
  maxFreshStakePerBlock := 20
  stakeEnabledHeight := 256 + 256
  stakeValidationHeight := 4096
  stakeBaseSigScript := [0x00, 0x00]
  organizationPkScript := [0x76, 0xa9, 0x14, 0x1d, 0x77, 0x33, 0x81, 0x9d, 0x8d, 0xb2, 0x42, 0x18,
    0xbf, 0x76, 0x62, 0x19, 0x3d, 0xd4, 0x95, 0x15, 0x38, 0x10, 0x89, 0x88, 0xac]
  organizationPkScriptVersion := 0
  blockOneLedger := List.replicate 134 (100000 * atomsPerCoin)
  stakeVersionInterval := 2016
  stakeMajorityMultiplier := 3
  stakeMajorityDivisor := 4
  blockRejectNumRequired := 950
  blockUpgradeNumToCheck := 1000
  ruleChangeActivationQuorum := 4032
  ruleChangeActivationMultiplier := 3
  ruleChangeActivationDivisor := 4
  ruleChangeActivationInterval := 8064
  blockOneLedger_nonneg := by decide +kernel
  blockOneLedger_le := by decide +kernel

def testNetParams : Params where
  net := .testNet
  powLimit := 2 ^ 232 - 1
  powLimitBits := 0x1e00ffff
  reduceMinDifficulty := true
  minDiffReductionTime := 10 * 60 * second
  workDiffAlpha := 1
  workDiffWindowSize := 144
  workDiffWindows := 20
  targetTimespan := 2 * 60 * 144 * second
  retargetAdjustmentFactor := 4
  baseSubsidy := 2500000000
  mulSubsidy := 100
  divSubsidy := 101
  subsidyReductionInterval := 2048
  workRewardProportion := 6
  stakeRewardProportion := 3
  blockTaxProportion := 1
  minimumStakeDiff := 20000000
  ticketPoolSize := 1024
  ticketPoolSizeWeight := 4
  stakeDiffAlpha := 1
  stakeDiffWindowSize := 144
  stakeDiffWindows := 20
  ticketsPerBlock := 5
  ticketMaturity := 16
  ticketExpiry := 6144
  coinbaseMaturity := 16
  sstxChangeMaturity := 1
  maxFreshStakePerBlock := 20
  stakeEnabledHeight := 16 + 16
  stakeValidationHeight := 768
  stakeBaseSigScript := [0x00, 0x00]
  organizationPkScript := [0xa9, 0x14, 0x1b, 0xf2, 0x6d, 0xff, 0x7d, 0x6a, 0xf5, 0xbb, 0x50, 0xb3,
    0x16, 0x71, 0x79, 0x5f, 0xae, 0x15, 0xe9, 0x1a, 0x38, 0x65, 0x87]
  organizationPkScriptVersion := 0
  blockOneLedger := []
  stakeVersionInterval := 2016
  stakeMajorityMultiplier := 3
  stakeMajorityDivisor := 4
  blockRejectNumRequired := 75
  blockUpgradeNumToCheck := 100
  ruleChangeActivationQuorum := 2520
  ruleChangeActivationMultiplier := 3
  ruleChangeActivationDivisor := 4
  ruleChangeActivationInterval := 5040

def simNetParams : Params where
  net := .simNet
  powLimit := 2 ^ 255 - 1
  powLimitBits := 0x207fffff
  reduceMinDifficulty := false
  minDiffReductionTime := 0
  workDiffAlpha := 1
  workDiffWindowSize := 8
  workDiffWindows := 4
  targetTimespan := 8 * second
  retargetAdjustmentFactor := 4
  baseSubsidy := 50000000000
  mulSubsidy := 100
  divSubsidy := 101
  subsidyReductionInterval := 128
  workRewardProportion := 6
  stakeRewardProportion := 3
  blockTaxProportion := 1
  minimumStakeDiff := 20000
  ticketPoolSize := 64
  ticketPoolSizeWeight := 4
  stakeDiffAlpha := 1
  stakeDiffWindowSize := 8
  stakeDiffWindows := 8
  ticketsPerBlock := 5
  ticketMaturity := 16
  ticketExpiry := 384
  coinbaseMaturity := 16
  sstxChangeMaturity := 1
  maxFreshStakePerBlock := 20
  stakeEnabledHeight := 16 + 16
  stakeValidationHeight := 16 + 64 * 2
  stakeBaseSigScript := [0xde, 0xad, 0xbe, 0xef]
  organizationPkScript := [0xa9, 0x14, 0xcb, 0xb0, 0x8d, 0x6c, 0xa7, 0x83, 0xb5, 0x33, 0xb2, 0xc7,
    0xd2, 0x4a, 0x51, 0xfb, 0xca, 0x92, 0xd9, 0x37, 0xbf, 0x99, 0x87]
  organizationPkScriptVersion := 0
  blockOneLedger := []
  stakeVersionInterval := 112
  stakeMajorityMultiplier := 3
  stakeMajorityDivisor := 4
  blockRejectNumRequired := 75
  blockUpgradeNumToCheck := 100
  ruleChangeActivationQuorum := 160
  ruleChangeActivationMultiplier := 3
  ruleChangeActivationDivisor := 4
  ruleChangeActivationInterval := 320

def regNetParams : Params where
  net := .regNet
  powLimit := 2 ^ 255 - 1
  powLimitBits := 0x207fffff
  reduceMinDifficulty := false
  minDiffReductionTime := 0
  workDiffAlpha := 1
  workDiffWindowSize := 8
  workDiffWindows := 4
  targetTimespan := 8 * second
  retargetAdjustmentFactor := 4
  baseSubsidy := 50000000000
  mulSubsidy := 100
  divSubsidy := 101
  subsidyReductionInterval := 128
  workRewardProportion := 6
  stakeRewardProportion := 3
  blockTaxProportion := 1
  minimumStakeDiff := 20000
  ticketPoolSize := 64
  ticketPoolSizeWeight := 4
  stakeDiffAlpha := 1
  stakeDiffWindowSize := 8
  stakeDiffWindows := 8
  ticketsPerBlock := 5
  ticketMaturity := 16
  ticketExpiry := 384
  coinbaseMaturity := 16
  sstxChangeMaturity := 1
  maxFreshStakePerBlock := 20
  stakeEnabledHeight := 16 + 16
  stakeValidationHeight := 16 + 64 * 2
  stakeBaseSigScript := [0x73, 0x57]
  organizationPkScript := [0xa9, 0x14, 0x69, 0x13, 0xbc, 0xc8, 0x38, 0xbd, 0x00, 0x87, 0xfb, 0x3f,
    0x6b, 0x3c, 0x86, 0x84, 0x23, 0xd5, 0xe3, 0x00, 0x07, 0x8d, 0x87]
  organizationPkScriptVersion := 0
  blockOneLedger := []
  stakeVersionInterval := 112
  stakeMajorityMultiplier := 3
  stakeMajorityDivisor := 4
  blockRejectNumRequired := 75
  blockUpgradeNumToCheck := 100
  ruleChangeActivationQuorum := 160
  ruleChangeActivationMultiplier := 3
  ruleChangeActivationDivisor := 4
  ruleChangeActivationInterval := 320

/-- The sets of parameters of the package. -/
def networks : List Params := [mainNetParams, testNetParams, simNetParams, regNetParams]

end Fnod
