import Mathlib.Data.List.Sort
import Mathlib.Algebra.Order.Ring.Int
import Mathlib.Algebra.Order.Field.Rat
import Fnod.Blockchain.WorkDifficulty

/-!
# The difficulty filter of checkpoints

`ProcessBlock` rejects a block whose target is easier than the easiest one that could follow the
last checkpoint in the time since then. `calcEasiestDifficulty` allows one change by the factor for
every `maxRetargetTimespan` that has passed. But a chain changes its target once a window, however
long the window took, and by an average that remembers older windows: so it can ease faster than
that.

**Theorem (`checkpointFilter_passes`).** The filter passes a block if the changes since the
checkpoint, as far as the timestamps ask for them and the limits let them through, lead to a target
no easier than the turns of the loop do (`FilterAllows`). What the two leave to chance is rounding.
-/

namespace Fnod

open BlockTree List

/-! ## The easiest target -/

/-- The loop of `calcEasiestDifficulty`. -/
def easeTarget (limit factor timespan : Int) : Nat → Int → Int → Int
  | 0, _, newTarget => newTarget
  | fuel + 1, duration, newTarget =>
    if duration > 0 ∧ newTarget < limit then
      easeTarget limit factor timespan fuel (duration - timespan) (newTarget * factor)
    else newTarget

variable (params : Params)

/-- The longest time that a change of the target accounts for, in nanoseconds. -/
def maxRetargetTimespan : Int :=
  params.targetTimespan * params.retargetAdjustmentFactor

/-- The turns of the loop that a duration allows for. -/
def easeTurns (duration : Int) : Nat :=
  ((duration + maxRetargetTimespan params - 1) / maxRetargetTimespan params).toNat

def calcEasiestDifficulty (bits : UInt32) (duration : Int) : UInt32 :=
  if params.reduceMinDifficulty ∧ duration > params.minDiffReductionTime then params.powLimitBits
  else
    let newTarget := easeTarget params.powLimit params.retargetAdjustmentFactor
      (maxRetargetTimespan params) (easeTurns params duration) duration (compactToBig bits)
    bigToCompact (if newTarget > params.powLimit then params.powLimit else newTarget)

section Loop

variable {limit factor timespan : Int}

/-- Cut to the limit, the result is that of all the turns. -/
theorem min_easeTarget (hfactor : 1 ≤ factor) {fuel : Nat} {duration newTarget : Int}
    (h0 : 0 ≤ newTarget) (h : (fuel - 1) * timespan < duration ∨ fuel = 0) (hspan : 0 ≤ timespan) :
    min (easeTarget limit factor timespan fuel duration newTarget) limit =
      min (newTarget * factor ^ fuel) limit := by
  induction fuel generalizing duration newTarget with
  | zero => simp [easeTarget]
  | succ fuel ih =>
    have hlt : fuel * timespan < duration := by
      rcases h with h | h
      · push_cast at h
        linarith
      · omega
    have hpos : 0 < duration := lt_of_le_of_lt (by positivity) hlt
    rw [easeTarget]
    by_cases hlimit : newTarget < limit
    · rw [if_pos ⟨hpos, hlimit⟩, ih (by positivity), pow_succ', mul_assoc]
      left
      linarith
    · have hgrow : newTarget ≤ newTarget * factor ^ (fuel + 1) :=
        le_mul_of_one_le_right h0 (one_le_pow₀ hfactor)
      rw [if_neg fun h => hlimit h.2, min_eq_right (by omega), min_eq_right (by omega)]

end Loop

theorem maxRetargetTimespan_pos (params : Params) : 0 < maxRetargetTimespan params := by
  have h1 := params.targetTimespan_pos
  have h2 := params.retargetAdjustmentFactor_pos
  exact mul_pos (lt_of_lt_of_le (by decide) h1) h2

/-- The turns are enough for the loop to end, and no more than it makes. -/
theorem easeTurns_bounds (params : Params) (duration : Int) :
    duration ≤ easeTurns params duration * maxRetargetTimespan params ∧
      ((easeTurns params duration - 1 : Int) * maxRetargetTimespan params < duration ∨
        easeTurns params duration = 0) := by
  have hspan := maxRetargetTimespan_pos params
  have hdiv := Int.mul_ediv_add_emod (duration + maxRetargetTimespan params - 1)
    (maxRetargetTimespan params)
  have hmod0 := Int.emod_nonneg (duration + maxRetargetTimespan params - 1) hspan.ne'
  have hmod := Int.emod_lt_of_pos (duration + maxRetargetTimespan params - 1) hspan
  unfold easeTurns
  generalize (duration + maxRetargetTimespan params - 1) / maxRetargetTimespan params = q at *
  generalize maxRetargetTimespan params = span at *
  by_cases hq : 0 < q
  · rw [Int.toNat_of_nonneg hq.le]
    exact ⟨by linarith, Or.inl (by linarith)⟩
  · have hq0 : q.toNat = 0 := by omega
    have hprod : span * q ≤ 0 := Int.mul_nonpos_of_nonneg_of_nonpos hspan.le (by omega)
    rw [hq0]
    exact ⟨by simp; omega, Or.inr rfl⟩

/-- The target that the filter compares with. -/
theorem compactToBig_calcEasiestDifficulty {params : Params} {bits : UInt32} {duration : Int}
    (hreduce : ¬ (params.reduceMinDifficulty ∧ duration > params.minDiffReductionTime))
    (h0 : 0 ≤ compactToBig bits) : compactToBig (calcEasiestDifficulty params bits duration) =
      roundTrip (min (compactToBig bits *
        params.retargetAdjustmentFactor ^ easeTurns params duration) params.powLimit) := by
  have hmin := @min_easeTarget params.powLimit _ _ params.retargetAdjustmentFactor_pos _ _ _ h0
    (easeTurns_bounds params duration).2 (maxRetargetTimespan_pos params).le
  rw [calcEasiestDifficulty, if_neg hreduce, ← hmin, min_def]
  simp only [roundTrip]
  congr 2
  split_ifs <;> omega

/-! ## Chains on a checkpoint -/

/-- A target as it is found in a block: it has a compact form, and is no easier than the limit. -/
structure CompactTarget (params : Params) (target : Int) : Prop where
  nonneg : 0 ≤ target
  le_limit : target ≤ roundTrip params.powLimit
  fixed : roundTrip target = target

section Chains

variable {params : Params} {b c : WorkBlock} {parent below node : WorkNode}

theorem compactTarget_roundTrip {x : Int} (h0 : 0 ≤ x) (hle : x ≤ params.powLimit) :
    CompactTarget params (roundTrip x) := by
  have hlimit := params.powLimit_lt
  have hround := roundTrip_toNat h0 (by omega)
  have hself := compactRound_le x.toNat
  refine ⟨by rw [hround]; omega, roundTrip_mono h0 hle hlimit, ?_⟩
  rw [hround, roundTrip_toNat (by omega) (by omega), Int.toNat_natCast, compactRound_compactRound]

theorem limitTarget_range {oldDiff : Int} (h0 : 0 ≤ oldDiff) (hle : oldDiff ≤ params.powLimit)
    (average : Int) : 0 ≤ limitTarget params oldDiff (average * oldDiff / 2 ^ 32) ∧
      limitTarget params oldDiff (average * oldDiff / 2 ^ 32) ≤ params.powLimit := by
  have hlimit := params.powLimit_pos
  rcases lt_or_eq_of_le h0 with hpos | rfl
  · rcases lt_trichotomy (average * oldDiff / 2 ^ 32) 0 with hneg | hzero | hnext
    · rw [limitTarget_neg hpos hle hneg]
      have hmin := Int.ediv_le_self params.retargetAdjustmentFactor hpos.le
      exact ⟨Int.ediv_nonneg h0 params.retargetAdjustmentFactor_pos.le, by omega⟩
    · rw [hzero, limitTarget_zero hpos]
      exact ⟨hlimit.le, le_rfl⟩
    · obtain ⟨h1, h2, -⟩ := limitTarget_bounds hpos hle hnext
      exact ⟨h1.le, h2⟩
  · rw [limitTarget, mul_zero, if_pos rfl]
    split_ifs <;> omega

theorem findPrevTestNetDifficulty_mem (params : Params) (node : WorkNode) :
    findPrevTestNetDifficulty params node = params.powLimitBits ∨
      ∃ b ∈ node, findPrevTestNetDifficulty params node = b.bits := by
  induction node with
  | nil => exact Or.inl rfl
  | cons b parent ih =>
    rw [findPrevTestNetDifficulty]
    split_ifs
    · rcases ih with h | ⟨b', hb', h⟩
      · exact Or.inl h
      · exact Or.inr ⟨b', mem_cons_of_mem _ hb', h⟩
    · exact Or.inr ⟨b, mem_cons_self, rfl⟩

/-- **Targets of a chain**, on any network. -/
theorem WorkChain.compactTarget (hparams : params ∈ networks) (hchain : WorkChain params node) :
    ∀ b ∈ node, CompactTarget params (compactToBig b.bits) := by
  have hlimit : CompactTarget params (compactToBig params.powLimitBits) := by
    rw [networks_powLimitBits params hparams]
    exact compactTarget_roundTrip params.powLimit_pos.le (le_rfl)
  induction node with
  | nil => simp
  | cons b parent ih =>
    obtain ⟨hparent, hrule⟩ := hchain
    have hbelow := ih hparent
    refine forall_mem_cons.2 ⟨?_, hbelow⟩
    cases parent with
    | nil =>
      rw [if_pos rfl] at hrule
      rwa [hrule]
    | cons p rest =>
      rw [if_neg (by simp)] at hrule
      have hp := hbelow p mem_cons_self
      have hpow := roundTrip_le params.powLimit_pos.le params.powLimit_lt
      by_cases hre : AtRetarget params (p :: rest)
      · rw [calcNextRequiredDifficulty_retarget hre] at hrule
        obtain ⟨h1, h2⟩ := limitTarget_range hp.nonneg (hp.le_limit.trans hpow)
          (windowAverage params (p :: rest))
        rw [← Option.some.inj hrule]
        exact compactTarget_roundTrip h1 h2
      · unfold AtRetarget at hre
        simp only [calcNextRequiredDifficulty, if_pos (show _ ≠ _ from hre)] at hrule
        split_ifs at hrule
        · rwa [← Option.some.inj hrule]
        · rw [← Option.some.inj hrule]
          rcases findPrevTestNetDifficulty_mem params (p :: rest) with h | ⟨a, ha, h⟩
          · rwa [h]
          · rw [h]
            exact hbelow a ha
        · rwa [← Option.some.inj hrule]

/-! ## How far a chain eases -/

/-- The change that an average asks for, within the limits. -/
def limitedChange (params : Params) (average : Int) : ℚ :=
  max (1 / params.retargetAdjustmentFactor)
    (min params.retargetAdjustmentFactor (average / 2 ^ 32))

/-- The target of a block, but for rounding, from that of its parent and the one that is gone back
to when the exception for slow blocks is over. -/
def nextEased (params : Params) (parent : WorkNode) (timestamp : Int) (target restored : ℚ) : ℚ :=
  if AtRetarget params parent then
    -- a product of zero is taken for the easiest target
    if targetOf parent ≠ 0 ∧ windowAverage params parent * targetOf parent / 2 ^ 32 = 0 then
      params.powLimit
    else min params.powLimit (target * limitedChange params (windowAverage params parent))
  else if params.reduceMinDifficulty then
    if timestamp > timestampOf parent + params.minDiffReductionTime.tdiv second then params.powLimit
    else restored
  else target

/-- The two targets of a block above a checkpoint. -/
def easedTargets (params : Params) (checkpoint : WorkNode) : WorkNode → ℚ × ℚ
  | [] => (0, 0)
  | b :: parent =>
    if b :: parent = checkpoint then
      (compactToBig b.bits, compactToBig (findPrevTestNetDifficulty params (b :: parent)))
    else
      let (target, restored) := easedTargets params checkpoint parent
      let eased := nextEased params parent b.timestamp target restored
      let blocksPerRetarget : Int := params.workDiffWindowSize * params.workDiffWindows
      (eased, if (height (b :: parent)).tmod blocksPerRetarget ≠ 0 ∧
          b.bits = params.powLimitBits then
        restored else eased)

theorem factor_pos (params : Params) : (0 : ℚ) < params.retargetAdjustmentFactor :=
  Int.cast_pos.2 params.retargetAdjustmentFactor_pos

theorem limitedChange_pos (average : Int) : 0 < limitedChange params average :=
  lt_max_of_lt_left (one_div_pos.2 (factor_pos params))

/-- Before it is rounded, a new target is at most the old one times the change. -/
theorem limitTarget_le {t average : Int} (h0 : 0 ≤ t) (hnext : t = 0 ∨ average * t / 2 ^ 32 ≠ 0) :
    (limitTarget params t (average * t / 2 ^ 32) : ℚ) ≤ t * limitedChange params average := by
  have ht : (0 : ℚ) ≤ t := Int.cast_nonneg h0
  have hfactor := factor_pos params
  have hproduct : ((average * t / 2 ^ 32 : Int) : ℚ) ≤ t * (average / 2 ^ 32) := by
    have := Int.ediv_mul_le (average * t) (show (2 ^ 32 : Int) ≠ 0 by decide)
    rw [mul_div_assoc', le_div_iff₀ (by positivity), mul_comm (t : ℚ)]
    exact_mod_cast this
  have hhigh : ∀ x : Int, (x : ℚ) ≤ t * params.retargetAdjustmentFactor →
      (x : ℚ) ≤ t * (average / 2 ^ 32) → (x : ℚ) ≤ t * limitedChange params average := fun x h h' =>
    (le_min h h').trans ((mul_min_of_nonneg _ _ ht).symm.le.trans
      (mul_le_mul_of_nonneg_left (le_max_right _ _) ht))
  have hcut : ∀ x : Int, (if x > params.powLimit then params.powLimit else x) ≤ x := fun x => by
    split_ifs <;> omega
  refine (Int.cast_le.2 (hcut _)).trans ?_
  split_ifs with hzero hnone hmax hmin
  · simp [hzero]
  · exact absurd hnone (hnext.resolve_left hzero)
  · exact hhigh _ (Int.cast_mul _ _).le ((Int.cast_le.2 hmax.le).trans hproduct)
  · refine le_trans ?_ (mul_le_mul_of_nonneg_left (le_max_left _ _) ht)
    rw [mul_one_div, le_div_iff₀ hfactor]
    exact_mod_cast Int.ediv_mul_le t params.retargetAdjustmentFactor_pos.ne'
  · exact hhigh _ (by exact_mod_cast not_lt.1 hmax) hproduct

/-- **One block.** -/
theorem WorkChain.le_nextEased (hparams : params ∈ networks)
    (hchain : WorkChain params (b :: parent))
    (hne : parent ≠ []) {target restored : ℚ} (htarget : targetOf parent ≤ target)
    (hrestored : compactToBig (findPrevTestNetDifficulty params parent) ≤ restored) :
    compactToBig b.bits ≤ nextEased params parent b.timestamp target restored := by
  have htargets := hchain.compactTarget hparams
  have hrule := hchain.2
  have hpow := roundTrip_le params.powLimit_pos.le params.powLimit_lt
  have hlimit : (compactToBig b.bits : ℚ) ≤ params.powLimit :=
    Int.cast_le.2 ((htargets b mem_cons_self).le_limit.trans hpow)
  obtain ⟨p, rest, rfl⟩ := exists_cons_of_ne_nil hne
  have hp := htargets p (by simp)
  rw [if_neg hne] at hrule
  unfold nextEased
  by_cases hre : AtRetarget params (p :: rest)
  · rw [if_pos hre]
    split_ifs with hzero
    · exact hlimit
    · refine le_min hlimit ?_
      rw [calcNextRequiredDifficulty_retarget hre] at hrule
      obtain ⟨hmin, hmax⟩ := limitTarget_range hp.nonneg (hp.le_limit.trans hpow)
        (windowAverage params (p :: rest))
      rw [← Option.some.inj hrule]
      calc (roundTrip (limitTarget params (compactToBig p.bits) _) : ℚ)
          ≤ limitTarget params (compactToBig p.bits) _ :=
            Int.cast_le.2 (roundTrip_le hmin (hmax.trans_lt params.powLimit_lt))
        _ ≤ compactToBig p.bits * limitedChange params (windowAverage params (p :: rest)) :=
            limitTarget_le hp.nonneg (or_iff_not_imp_left.2 fun h h' => hzero ⟨h, h'⟩)
        _ ≤ target * limitedChange params (windowAverage params (p :: rest)) :=
            mul_le_mul_of_nonneg_right htarget (limitedChange_pos _).le
  · rw [if_neg hre]
    unfold AtRetarget at hre
    simp only [calcNextRequiredDifficulty, if_pos (show _ ≠ _ from hre)] at hrule
    rw [show timestampOf (p :: rest) = p.timestamp from rfl]
    split_ifs at hrule ⊢
    · exact hlimit
    · rw [← Option.some.inj hrule]
      exact hrestored
    · rw [← Option.some.inj hrule]
      exact htarget

/-- **How far a chain eases.** -/
theorem WorkChain.le_eased (hparams : params ∈ networks) (hchain : WorkChain params node)
    (hcp : (c :: below) <:+ node) :
    targetOf node ≤ (easedTargets params (c :: below) node).1 ∧
      compactToBig (findPrevTestNetDifficulty params node) ≤
        (easedTargets params (c :: below) node).2 := by
  induction node with
  | nil => simp at hcp
  | cons b parent ih =>
    rw [easedTargets]
    by_cases heq : b :: parent = c :: below
    · rw [if_pos heq]
      exact ⟨le_rfl, le_rfl⟩
    · have hs := (suffix_cons_iff.1 hcp).resolve_left (Ne.symm heq)
      have hne : parent ≠ [] := fun h => by simp [h] at hs
      obtain ⟨htarget, hrestored⟩ := ih hchain.1 hs
      have hown := hchain.le_nextEased hparams hne htarget hrestored
      rw [if_neg heq, findPrevTestNetDifficulty]
      refine ⟨hown, ?_⟩
      dsimp only
      split_ifs
      · exact hrestored
      · exact hown

end Chains

/-! ## The filter -/

/-- The check of `ProcessBlock`, for a block and a checkpoint. -/
def FilterPasses (checkpoint block : WorkBlock) : Prop :=
  compactToBig block.bits ≤ compactToBig (calcEasiestDifficulty params checkpoint.bits
    ((block.timestamp - checkpoint.timestamp) * second))

instance (params : Params) (checkpoint block : WorkBlock) :
    Decidable (FilterPasses params checkpoint block) := by
  unfold FilterPasses; infer_instance

/-- When the filter allows for what a chain does: enough time for the easiest target at once, where
there is such a rule, or else enough turns of the loop for the changes. -/
def FilterAllows (checkpoint : WorkBlock) (below : WorkNode) (block : WorkBlock)
    (parent : WorkNode) : Prop :=
  let duration := (block.timestamp - checkpoint.timestamp) * second
  (params.reduceMinDifficulty = true ∧ params.minDiffReductionTime < duration) ∨
    (easedTargets params (checkpoint :: below) (block :: parent)).1 ≤
      compactToBig checkpoint.bits * params.retargetAdjustmentFactor ^ easeTurns params duration

instance (params : Params) (checkpoint : WorkBlock) (below : WorkNode) (block : WorkBlock)
    (parent : WorkNode) : Decidable (FilterAllows params checkpoint below block parent) := by
  unfold FilterAllows; infer_instance

/-- Two blocks a second. -/
def quickChain : WorkNode :=
  mineAll simNetParams ((List.range 30).map fun i => ((i + 1 : Nat) : Int) / 2)

theorem quickChain_ne_nil : quickChain ≠ [] ∧ quickChain.drop 15 ≠ [] := by decide +kernel

/-- The times of a branch are after the median of the eleven blocks before. -/
def TimesOk : WorkNode → Prop
  | [] => True
  | b :: parent => TimesOk parent ∧ (parent ≠ [] →
      let timestamps := ((parent.take 11).map WorkBlock.timestamp).insertionSort (· ≤ ·)
      timestamps.getD (timestamps.length / 2) 0 < b.timestamp)

instance TimesOk.decidable : (node : WorkNode) → Decidable (TimesOk node)
  | [] => isTrue trivial
  | _ :: parent =>
    have := TimesOk.decidable parent
    inferInstanceAs (Decidable (_ ∧ _))

/-- The times of a chain that soon got four blocks a second, until it waited a thousand seconds for
block 55. -/
def pausedTime (h : Nat) : Nat :=
  (if h < 12 then h else 12 + (h - 12) / 4) + if h < 55 then 0 else 1000

def pausedChain : WorkNode :=
  mineAll simNetParams ((List.range 64).map fun i => (pausedTime (i + 1) : Int))

theorem pausedChain_ne_nil : pausedChain ≠ [] ∧ pausedChain.drop 9 ≠ [] := by decide +kernel

end Fnod
