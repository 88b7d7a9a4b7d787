import Fnod.Chaincfg.Params
import Fnod.Blockchain.Compact
import Fnod.Lib.Windows

/-!
# The proof of work difficulty

The part of `difficulty.go` that sets the target of a block. At the start of each window the target
is multiplied by a weighted average of how long the last windows took, in fixed point, and the
change is limited by a factor. The limits fail in two cases (`Degenerate`): when the product is less
than one the code takes the easiest target there is, and a target below the factor can get to zero.

**Theorem (`calcNextRequiredDifficulty_bounds`).** In all other cases the new target is positive, at
most the proof of work limit, and within the factor of the old one, and so it is along every chain.
-/

namespace Fnod

open BlockTree List

/-- The fields of a block node that the difficulty depends on. Times are in seconds. -/
structure WorkBlock where
  bits : UInt32
  timestamp : Int
deriving DecidableEq

/-- A pointer to a block node; nil is the empty list. -/
abbrev WorkNode := List WorkBlock

def timestampOf : WorkNode → Int
  | [] => 0
  | b :: _ => b.timestamp

def findPrevTestNetDifficulty (params : Params) : WorkNode → UInt32
  | [] => params.powLimitBits
  | b :: parent =>
    let blocksPerRetarget : Int := params.workDiffWindowSize * params.workDiffWindows
    if (height (b :: parent)).tmod blocksPerRetarget ≠ 0 ∧ b.bits = params.powLimitBits then
      findPrevTestNetDifficulty params parent
    else b.bits

variable (params : Params) (node curNode : WorkNode)

/-- How long a window took, in units of the target. Windows that reach the genesis block are taken
to be right. -/
def windowChange (windowPeriod : Nat) : Int :=
  let targetTimespan := params.targetTimespan.tdiv second
  let recentNode := Windows.back curNode (windowPeriod * params.workDiffWindowSize)
  let oldNode := Windows.back curNode ((windowPeriod + 1) * params.workDiffWindowSize)
  let timeDifference :=
    if height oldNode = 0 then targetTimespan else timestampOf recentNode - timestampOf oldNode
  timeDifference * 2 ^ 32 / targetTimespan

/-- The weighted average of the window changes. -/
def windowAverage : Int :=
  Windows.average params.workDiffWindows params.workDiffAlpha (windowChange params curNode)

/-- The limits on a new target. -/
def limitTarget (oldDiff nextDiff : Int) : Int :=
  let nextDiffMin := oldDiff / params.retargetAdjustmentFactor
  let nextDiffMax := oldDiff * params.retargetAdjustmentFactor
  let nextDiff :=
    if oldDiff = 0 then nextDiff
    else if nextDiff = 0 then params.powLimit
    else if nextDiff > nextDiffMax then nextDiffMax
    else if nextDiff < nextDiffMin then nextDiffMin
    else nextDiff
  if nextDiff > params.powLimit then params.powLimit else nextDiff

/-- `calcNextRequiredDifficulty`, where a nil pointer has no result. -/
def calcNextRequiredDifficulty (newBlockTime : Int) : Option UInt32 :=
  match curNode with
  | [] => none
  | b :: _ =>
    if (height curNode + 1).tmod params.workDiffWindowSize ≠ 0 then
      if params.reduceMinDifficulty then
        let allowMinTime := b.timestamp + params.minDiffReductionTime.tdiv second
        if newBlockTime > allowMinTime then some params.powLimitBits
        else some (findPrevTestNetDifficulty params curNode)
      else some b.bits
    else
      let oldDiff := compactToBig b.bits
      some (bigToCompact (limitTarget params oldDiff
        (windowAverage params curNode * oldDiff / 2 ^ 32)))

/-! ## The limits -/

/-- The next block starts a window. -/
def AtRetarget : Prop :=
  (height node + 1).tmod params.workDiffWindowSize = 0

instance (params : Params) (node : WorkNode) : Decidable (AtRetarget params node) := by
  unfold AtRetarget; infer_instance

/-- What is expected of the target after an old one. -/
structure RetargetBounded (params : Params) (oldDiff : Int) (bits : UInt32) : Prop where
  pos : 0 < compactToBig bits
  le_limit : compactToBig bits ≤ params.powLimit
  le_mul : compactToBig bits ≤ oldDiff * params.retargetAdjustmentFactor
  ge_div : roundTrip (oldDiff / params.retargetAdjustmentFactor) ≤ compactToBig bits

/-- The cases in which the limits fail: the average, times the old target, is zero in fixed point
although the target is not near the limit, or the average is negative and the old target is below
the factor. -/
def Degenerate (oldDiff : Int) : Prop :=
  (0 ≤ windowAverage params node * oldDiff ∧ windowAverage params node * oldDiff < 2 ^ 32 ∧
    oldDiff * params.retargetAdjustmentFactor < roundTrip params.powLimit) ∨
  (windowAverage params node * oldDiff < 0 ∧ oldDiff < params.retargetAdjustmentFactor)

instance (params : Params) (node : WorkNode) (oldDiff : Int) :
    Decidable (Degenerate params node oldDiff) := by
  unfold Degenerate; infer_instance

section Rounding

variable {x y : Int}

theorem roundTrip_toNat (h0 : 0 ≤ x) (hx : x < 2 ^ 256) : roundTrip x = compactRound x.toNat := by
  have hlog : x.toNat.log2 < 256 := log2_lt_of_lt (by decide) (by omega)
  lift x to Nat using h0
  exact compactToBig_bigToCompact (hlog.trans (by decide))

theorem roundTrip_le (h0 : 0 ≤ x) (hx : x < 2 ^ 256) : roundTrip x ≤ x := by
  have hle := compactRound_le x.toNat
  rw [roundTrip_toNat h0 hx]
  omega

theorem roundTrip_pos (h0 : 0 < x) (hx : x < 2 ^ 256) : 0 < roundTrip x := by
  have hne : compactRound x.toNat ≠ 0 := Rounding.down_ne_zero keptFrom_le (by omega)
  rw [roundTrip_toNat h0.le hx]
  omega

theorem roundTrip_mono (h0 : 0 ≤ x) (hxy : x ≤ y) (hy : y < 2 ^ 256) :
    roundTrip x ≤ roundTrip y := by
  rw [roundTrip_toNat h0 (by omega), roundTrip_toNat (by omega) hy]
  exact Int.ofNat_le.2 (compactRound_mono (by omega))

end Rounding

section Step

variable {params : Params} {oldDiff nextDiff : Int}

/-- The two limits of a retarget are around the target. -/
theorem adjusted_bounds (params : Params) (hpos : 0 < oldDiff) :
    0 ≤ oldDiff / params.retargetAdjustmentFactor ∧
      oldDiff / params.retargetAdjustmentFactor ≤ oldDiff ∧
      oldDiff ≤ oldDiff * params.retargetAdjustmentFactor :=
  have hfactor := params.retargetAdjustmentFactor_pos
  ⟨Int.ediv_nonneg hpos.le hfactor.le, Int.ediv_le_self _ hpos.le,
    le_mul_of_one_le_right hpos.le hfactor⟩

/-- The limits that hold before the target is written in compact form. -/
theorem limitTarget_bounds (hpos : 0 < oldDiff) (hle : oldDiff ≤ params.powLimit)
    (hnext : 0 < nextDiff) :
    0 < limitTarget params oldDiff nextDiff ∧
      limitTarget params oldDiff nextDiff ≤ params.powLimit ∧
      limitTarget params oldDiff nextDiff ≤ oldDiff * params.retargetAdjustmentFactor ∧
      oldDiff / params.retargetAdjustmentFactor ≤ limitTarget params oldDiff nextDiff := by
  have hlimit := params.powLimit_pos
  have hadjusted := adjusted_bounds params hpos
  unfold limitTarget
  dsimp only
  rw [if_neg hpos.ne', if_neg hnext.ne']
  split_ifs <;> omega

theorem limitTarget_zero (hpos : 0 < oldDiff) : limitTarget params oldDiff 0 = params.powLimit := by
  unfold limitTarget
  dsimp only
  rw [if_neg hpos.ne', if_pos rfl, if_neg (by omega)]

theorem limitTarget_neg (hpos : 0 < oldDiff) (hle : oldDiff ≤ params.powLimit)
    (hnext : nextDiff < 0) :
    limitTarget params oldDiff nextDiff = oldDiff / params.retargetAdjustmentFactor := by
  have hadjusted := adjusted_bounds params hpos
  unfold limitTarget
  dsimp only
  rw [if_neg hpos.ne', if_neg hnext.ne]
  split_ifs <;> omega

/-- **One retarget.** -/
theorem retargetBounded_iff {b : WorkBlock} {parent : WorkNode}
    (hpos : 0 < compactToBig b.bits) (hle : compactToBig b.bits ≤ params.powLimit) :
    RetargetBounded params (compactToBig b.bits) (bigToCompact (limitTarget params
        (compactToBig b.bits) (windowAverage params (b :: parent) * compactToBig b.bits /
          2 ^ 32))) ↔
      ¬Degenerate params (b :: parent) (compactToBig b.bits) := by
  have hfactor := params.retargetAdjustmentFactor_pos
  have hlimit := params.powLimit_lt
  obtain ⟨hmin0, hmin, hmul⟩ := adjusted_bounds params hpos
  generalize hold : compactToBig b.bits = oldDiff at *
  generalize hprod : windowAverage params (b :: parent) * oldDiff = product
  have hround : ∀ x, compactToBig (bigToCompact x) = roundTrip x := fun _ => rfl
  rcases lt_trichotomy (product / 2 ^ 32) 0 with hneg | hzero | hnext
  · -- the lower limit, which is zero for a target below the factor
    have hiff : 0 < oldDiff / params.retargetAdjustmentFactor ↔
        params.retargetAdjustmentFactor ≤ oldDiff := by
      rw [Int.lt_iff_add_one_le, Int.le_ediv_iff_mul_le hfactor]
      omega
    rw [limitTarget_neg hpos hle hneg, Degenerate, hprod]
    constructor
    · intro h
      have hlow := h.pos
      rw [hround] at hlow
      have hx : 0 < oldDiff / params.retargetAdjustmentFactor :=
        hlow.trans_le (roundTrip_le hmin0 (by omega))
      have := hiff.1 hx
      omega
    · intro h
      have hx := hiff.2 (by omega)
      have hrt := roundTrip_le hmin0 (by omega)
      refine ⟨roundTrip_pos hx (by omega), ?_, ?_, le_rfl⟩
      · rw [hround]; omega
      · rw [hround]; omega
  · -- the easiest target
    rw [hzero, limitTarget_zero hpos, Degenerate, hprod]
    have hrt := roundTrip_le params.powLimit_pos.le hlimit
    constructor
    · intro h
      have hhigh := h.le_mul
      rw [hround] at hhigh
      omega
    · intro h
      refine ⟨roundTrip_pos params.powLimit_pos hlimit, hrt, ?_,
        roundTrip_mono hmin0 (by omega) hlimit⟩
      rw [hround]
      omega
  · obtain ⟨h1, h2, h3, h4⟩ := limitTarget_bounds hpos hle hnext
    have hrt := roundTrip_le h1.le (by omega)
    refine iff_of_true ⟨roundTrip_pos h1 (by omega), ?_, ?_, roundTrip_mono hmin0 h4 (by omega)⟩ ?_
    · rw [hround]; omega
    · rw [hround]; omega
    · rw [Degenerate, hprod]
      omega

end Step

/-! ## Chains -/

def targetOf : WorkNode → Int
  | [] => 0
  | b :: _ => compactToBig b.bits

/-- A branch whose blocks have the bits that are required. The genesis block has the easiest. -/
def WorkChain (params : Params) : WorkNode → Prop
  | [] => True
  | b :: parent => WorkChain params parent ∧
      if parent = [] then b.bits = params.powLimitBits
      else calcNextRequiredDifficulty params parent b.timestamp = some b.bits

/-- No retarget of a branch is degenerate. -/
def Steady (params : Params) : WorkNode → Prop
  | [] => True
  | _ :: parent => Steady params parent ∧
      (parent ≠ [] → AtRetarget params parent → ¬Degenerate params parent (targetOf parent))

/-- What is expected of a block on top of a parent. -/
structure WorkOk (params : Params) (b : WorkBlock) (parent : WorkNode) : Prop where
  pos : 0 < compactToBig b.bits
  le_limit : compactToBig b.bits ≤ params.powLimit
  retarget : parent ≠ [] → AtRetarget params parent →
    RetargetBounded params (targetOf parent) b.bits
  between : parent ≠ [] → ¬AtRetarget params parent → compactToBig b.bits = targetOf parent

/-- The bits of the easiest target are those of the limit. -/
theorem networks_powLimitBits : ∀ params ∈ networks,
    compactToBig params.powLimitBits = roundTrip params.powLimit := by decide +kernel

section Chains

variable {params : Params} {b : WorkBlock} {parent node : WorkNode}

theorem calcNextRequiredDifficulty_between (hreduce : params.reduceMinDifficulty = false)
    (h : ¬AtRetarget params (b :: parent)) (newBlockTime : Int) :
    calcNextRequiredDifficulty params (b :: parent) newBlockTime = some b.bits := by
  unfold AtRetarget at h
  simp only [calcNextRequiredDifficulty]
  rw [if_pos h, if_neg (by simp [hreduce])]

theorem calcNextRequiredDifficulty_retarget (h : AtRetarget params (b :: parent))
    (newBlockTime : Int) : calcNextRequiredDifficulty params (b :: parent) newBlockTime =
      some (bigToCompact (limitTarget params (compactToBig b.bits)
        (windowAverage params (b :: parent) * compactToBig b.bits / 2 ^ 32))) := by
  unfold AtRetarget at h
  simp only [calcNextRequiredDifficulty]
  rw [if_neg (not_not.2 h)]

/-- **Targets along a chain** are positive, and no easier than the limit. -/
theorem WorkChain.ok (hparams : params ∈ networks) (hreduce : params.reduceMinDifficulty = false)
    (hchain : WorkChain params node) (hsteady : Steady params node) :
    ∀ b parent, (b :: parent) <:+ node → WorkOk params b parent := by
  induction node with
  | nil =>
    intro b parent hs
    simp at hs
  | cons c rest ih =>
    obtain ⟨hrest, hrule⟩ := hchain
    obtain ⟨hsteady, hlast⟩ := hsteady
    have hbelow := ih hrest hsteady
    intro b parent hs
    rcases suffix_cons_iff.1 hs with heq | hs
    · obtain ⟨rfl, rfl⟩ := List.cons.inj heq
      cases parent with
      | nil =>
        rw [if_pos rfl] at hrule
        have hlimit := networks_powLimitBits params hparams
        rw [← hrule] at hlimit
        have hpos := roundTrip_pos params.powLimit_pos params.powLimit_lt
        have hle := roundTrip_le params.powLimit_pos.le params.powLimit_lt
        exact ⟨by omega, by omega, fun h => absurd rfl h, fun h => absurd rfl h⟩
      | cons p rest =>
        rw [if_neg (by simp)] at hrule
        have hp := hbelow p rest (suffix_refl _)
        by_cases hre : AtRetarget params (p :: rest)
        · rw [calcNextRequiredDifficulty_retarget hre] at hrule
          have hbounded := (retargetBounded_iff hp.pos hp.le_limit).2 (hlast (by simp) hre)
          rw [Option.some.inj hrule] at hbounded
          exact ⟨hbounded.pos, hbounded.le_limit, fun _ _ => hbounded, fun _ h => absurd hre h⟩
        · rw [calcNextRequiredDifficulty_between hreduce hre] at hrule
          have hbits := congrArg compactToBig (Option.some.inj hrule)
          exact ⟨hbits ▸ hp.pos, hbits ▸ hp.le_limit, fun _ h => absurd h hre, fun _ _ =>
            hbits.symm⟩
    · exact hbelow b parent hs

end Chains

/-- **Bounds on the retarget.** -/
theorem calcNextRequiredDifficulty_bounds {params : Params} (hparams : params ∈ networks)
    (hreduce : params.reduceMinDifficulty = false) :
    (∀ b parent newBlockTime, ¬AtRetarget params (b :: parent) →
      calcNextRequiredDifficulty params (b :: parent) newBlockTime = some b.bits) ∧
    (∀ b parent newBlockTime, AtRetarget params (b :: parent) → 0 < compactToBig b.bits →
      compactToBig b.bits ≤ params.powLimit →
        ∃ bits, calcNextRequiredDifficulty params (b :: parent) newBlockTime = some bits ∧
          (RetargetBounded params (compactToBig b.bits) bits ↔
            ¬Degenerate params (b :: parent) (compactToBig b.bits))) ∧
    (∀ node, WorkChain params node → Steady params node →
      ∀ b parent, (b :: parent) <:+ node → WorkOk params b parent) := by
  refine ⟨fun b parent time h => calcNextRequiredDifficulty_between hreduce h time,
    fun b parent time h hpos hle => ?_, fun node hchain hsteady =>
      hchain.ok hparams hreduce hsteady⟩
  exact ⟨_, calcNextRequiredDifficulty_retarget h time, retargetBounded_iff hpos hle⟩

/-! ## A chain of the simulation network -/

/-- The next block of a chain, at a given time. -/
def mine (time : Int) : WorkNode :=
  match calcNextRequiredDifficulty params node time with
  | some bits => ⟨bits, time⟩ :: node
  | none => node

/-- Blocks at given times, after the genesis block. -/
def mineAll (times : List Int) : WorkNode :=
  times.foldl (mine params) [⟨params.powLimitBits, 0⟩]

theorem workChain_mineAll (params : Params) (times : List Int) :
    WorkChain params (mineAll params times) := by
  suffices h : ∀ node, node ≠ [] → WorkChain params node →
      WorkChain params (times.foldl (mine params) node) from
    h _ (by simp) ⟨trivial, by rw [if_pos rfl]⟩
  induction times with
  | nil => exact fun node _ h => h
  | cons time times ih =>
    intro node hne hchain
    rw [foldl_cons]
    cases hnext : calcNextRequiredDifficulty params node time with
    | none =>
      rw [show mine params node time = node by rw [mine, hnext]]
      exact ih node hne hchain
    | some bits =>
      rw [show mine params node time = ⟨bits, time⟩ :: node by rw [mine, hnext]]
      exact ih _ (by simp) ⟨hchain, by rw [if_neg hne]; exact hnext⟩

instance Steady.decidable (params : Params) : (node : WorkNode) → Decidable (Steady params node)
  | [] => isTrue trivial
  | _ :: parent =>
    have := Steady.decidable params parent
    inferInstanceAs (Decidable (_ ∧ _))

/-- A block every two seconds. -/
def slowChain : WorkNode := mineAll simNetParams ((List.range 23).map fun i => 2 * (i + 1))

theorem calcNextRequiredDifficulty_bounds_slowChain :
    Steady simNetParams slowChain ∧ ∃ b parent bits, slowChain = b :: parent ∧
      calcNextRequiredDifficulty simNetParams (b :: parent) 48 = some bits ∧
      RetargetBounded simNetParams (compactToBig b.bits) bits ∧ WorkOk simNetParams b parent := by
  have hsteady : Steady simNetParams slowChain := by decide +kernel
  have hre : AtRetarget simNetParams slowChain := by decide +kernel
  have hgood : ¬Degenerate simNetParams slowChain (targetOf slowChain) := by decide +kernel
  obtain ⟨-, hstep, hrun⟩ :=
    @calcNextRequiredDifficulty_bounds simNetParams (by simp [networks]) rfl
  obtain ⟨b, parent, heq⟩ : ∃ b parent, slowChain = b :: parent :=
    exists_cons_of_ne_nil (by decide +kernel)
  have hok := hrun slowChain (workChain_mineAll _ _) hsteady b parent (by rw [heq])
  rw [heq] at hre hgood
  obtain ⟨bits, hbits, hiff⟩ := hstep b parent 48 hre hok.pos hok.le_limit
  exact ⟨hsteady, b, parent, bits, heq, hbits, hiff.2 hgood, hok⟩

/-- Blocks all of which have the time of the genesis block. -/
def timelessChain : WorkNode := mineAll simNetParams (List.replicate 39 0)

/-- After the average has got to zero, the target jumps to the easiest one. -/
theorem calcNextRequiredDifficulty_jumps :
    WorkChain simNetParams timelessChain ∧ AtRetarget simNetParams timelessChain ∧
      ∃ bits, calcNextRequiredDifficulty simNetParams timelessChain 0 = some bits ∧
        ¬compactToBig bits ≤
          targetOf timelessChain * simNetParams.retargetAdjustmentFactor := by
  refine ⟨workChain_mineAll _ _, by decide +kernel, 0x207fffff, by decide +kernel,
    by decide +kernel⟩

end Fnod
