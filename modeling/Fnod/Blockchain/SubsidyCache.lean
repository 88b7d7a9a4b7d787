import Fnod.Blockchain.Subsidy
import Fnod.Lib.Decay
import Fnod.Lib.Int64
import Fnod.Lib.OrdMap

/-!
# `SubsidyCache` and `estimateSupply`

`CalcBlockSubsidy` keeps the subsidy of an interval once it is computed, and computes the next one
from it if it is asked for it; `estimateSupply` adds up whole intervals. Both are in 64-bit
arithmetic here, and heights are signed as in the code: an interval is counted in 64 bits without
sign, so a negative height counts as a very late one.

**Theorem (`subsidyCache_agrees`).** Whatever was asked before, `CalcBlockSubsidy` returns the base
subsidy reduced once for every interval, and `estimateSupply` is the sum of these values.

The invariant of the cache is that it holds nothing else (`Right`). The loop of `estimateSupply` is
followed with the sum over the intervals that are done, which stays below a geometric bound, so that
nothing wraps around.
-/

namespace Fnod

open Int64

/-- What keeps the subsidy of a set of parameters in 64 bits: it does shrink, and the bound on all
of it fits. -/
structure SubsidyFits (params : Params) : Prop where
  one_lt_interval : 1 < params.subsidyReductionInterval
  mul_lt_div : params.mulSubsidy < params.divSubsidy
  product_lt : params.baseSubsidy * params.mulSubsidy < 2 ^ 63
  total_lt : params.blockOneSubsidy +
    params.subsidyReductionInterval * ((params.divSubsidy + 2) * params.baseSubsidy) < 2 ^ 63

theorem networks_subsidyFits : ∀ params ∈ networks, SubsidyFits params := by
  have hfits : ∀ params ∈ networks, 1 < params.subsidyReductionInterval ∧
      params.mulSubsidy < params.divSubsidy ∧
      params.baseSubsidy * params.mulSubsidy < 2 ^ 63 ∧ params.blockOneSubsidy +
        params.subsidyReductionInterval * ((params.divSubsidy + 2) * params.baseSubsidy) <
          2 ^ 63 := by
    decide +kernel
  intro params hparams
  obtain ⟨h1, h2, h3, h4⟩ := hfits params hparams
  exact ⟨h1, h2, h3, h4⟩

variable (params : Params) (height : Int)

/-- One reduction, as the machine computes it. -/
def reduceSubsidy64 (subsidy : Int) : Int :=
  (wrap (subsidy * params.mulSubsidy)).tdiv params.divSubsidy

/-- The interval of a height, as a `uint64`. -/
def subsidyIteration : Nat :=
  (height.tdiv params.subsidyReductionInterval % 2 ^ 64).toNat

/-! ## The cache -/

structure SubsidyCache where
  subsidyCache : OrdMap Nat Int
  params : Params

namespace SubsidyCache

def calcBlockSubsidy (s : SubsidyCache) (height : Int) : Int × SubsidyCache :=
  if height = 1 then (s.params.blockOneSubsidy, s)
  else
    let iteration := subsidyIteration s.params height
    if iteration = 0 then (s.params.baseSubsidy, s)
    else
      match s.subsidyCache.get? iteration with
      | some cachedValue => (cachedValue, s)
      | none =>
          -- the value of the interval before, if it is known, or all of them from the first on
          let subsidy :=
            match s.subsidyCache.get? (iteration - 1) with
            | some cachedValue => reduceSubsidy64 s.params cachedValue
            | none => (reduceSubsidy64 s.params)^[iteration] s.params.baseSubsidy
          (subsidy, { s with subsidyCache := s.subsidyCache.insert iteration subsidy })

/-- `subsidyCacheInitWidth`. -/
def initWidth : Nat := 4

/-- `NewSubsidyCache`. The loop asks five times for the same height. Its counter cannot pass the
last interval that 64 bits count, so there it never ends. -/
def new (height : Int) (params : Params) : Option SubsidyCache :=
  let sc : SubsidyCache := ⟨.empty, params⟩
  let iteration := subsidyIteration params height
  if iteration < initWidth then some sc
  else if iteration = 2 ^ 64 - 1 then none
  else some ((fun sc =>
    (sc.calcBlockSubsidy (wrap (wrap iteration * params.subsidyReductionInterval))).2)^[5] sc)

/-- The results of a sequence of calls. -/
def calls : SubsidyCache → List Int → List Int
  | _, [] => []
  | s, height :: heights =>
      (s.calcBlockSubsidy height).1 :: calls (s.calcBlockSubsidy height).2 heights

end SubsidyCache

def estimateSupply : Int :=
  if height ≤ 0 then 0
  else
    let reductions := height.tdiv params.subsidyReductionInterval
    let (supply, subsidy) := (fun (supply, subsidy) =>
      (wrap (supply + wrap (params.subsidyReductionInterval * subsidy)),
        reduceSubsidy64 params subsidy))^[reductions.toNat]
      (params.blockOneSubsidy, params.baseSubsidy)
    let supply := wrap (supply + wrap ((1 + height.tmod params.subsidyReductionInterval) * subsidy))
    -- the two blocks that are special were added at the base subsidy
    wrap (supply - wrap (params.baseSubsidy * 2))

/-! ## The definition -/

def intervalSubsidy (iteration : Nat) : Int :=
  (reduceSubsidy params)^[iteration] params.baseSubsidy

/-- The subsidy of a height, as it is defined. -/
def definedSubsidy : Int :=
  if height = 1 then params.blockOneSubsidy
  else intervalSubsidy params (subsidyIteration params height)

variable {params : Params}

variable {height len : Nat}

/-- The heights of blocks are in the interval one expects. -/
theorem subsidyIteration_natCast (h : height < 2 ^ 63) :
    subsidyIteration params height =
      ((height : Int).tdiv params.subsidyReductionInterval).toNat := by
  have hnn : 0 ≤ (height : Int).tdiv params.subsidyReductionInterval :=
    Int.tdiv_nonneg (Int.natCast_nonneg _) (le_of_lt params.subsidyReductionInterval_pos)
  have hle : (height : Int).tdiv params.subsidyReductionInterval ≤ height :=
    Int.tdiv_le_self _ (Int.natCast_nonneg _)
  rw [subsidyIteration, Int.emod_eq_of_lt hnn (by omega)]

theorem definedSubsidy_natCast (h : height < 2 ^ 63) :
    definedSubsidy params height = calcBlockSubsidy params height := by
  rw [definedSubsidy, calcBlockSubsidy, subsidyIteration_natCast h]
  simp only [Nat.cast_eq_one, intervalSubsidy]

theorem intervalSubsidy_bounds (params : Params) (n : Nat) :
    0 ≤ intervalSubsidy params n ∧ intervalSubsidy params n ≤ params.baseSubsidy :=
  iterate_reduceSubsidy_bounds params n params.baseSubsidy_nonneg

theorem intervalSubsidy_succ (n : Nat) :
    intervalSubsidy params (n + 1) = reduceSubsidy params (intervalSubsidy params n) :=
  Function.iterate_succ_apply' _ _ _

/-- The machine computes a reduction exactly. -/
theorem reduceSubsidy64_eq (hfits : SubsidyFits params) {subsidy : Int} (h0 : 0 ≤ subsidy)
    (hle : subsidy ≤ params.baseSubsidy) :
    reduceSubsidy64 params subsidy = reduceSubsidy params subsidy := by
  have hmul := params.mulSubsidy_nonneg
  have hprod : subsidy * params.mulSubsidy ≤ params.baseSubsidy * params.mulSubsidy :=
    mul_le_mul_of_nonneg_right hle hmul
  have hnn : 0 ≤ subsidy * params.mulSubsidy := mul_nonneg h0 hmul
  have hlt := hfits.product_lt
  rw [reduceSubsidy64, wrap_of_inRange ⟨by omega, by omega⟩, reduceSubsidy]

theorem iterate_reduceSubsidy64 (hfits : SubsidyFits params) (n : Nat) :
    (reduceSubsidy64 params)^[n] params.baseSubsidy = intervalSubsidy params n := by
  induction n with
  | zero => rfl
  | succ n ih =>
    obtain ⟨h0, hle⟩ := intervalSubsidy_bounds params n
    rw [Function.iterate_succ_apply', ih, reduceSubsidy64_eq hfits h0 hle, intervalSubsidy_succ]

/-! ## The cache holds subsidies of intervals -/

namespace SubsidyCache

/-- The invariant of the cache. -/
def Right (s : SubsidyCache) : Prop :=
  ∀ i v, s.subsidyCache.get? i = some v → v = intervalSubsidy s.params i

theorem right_empty (params : Params) : Right ⟨.empty, params⟩ := by
  intro i v h
  rw [OrdMap.get?_empty] at h
  cases h

variable {s : SubsidyCache}

theorem Right.insert (h : s.Right) (i : Nat) :
    Right { s with subsidyCache := s.subsidyCache.insert i (intervalSubsidy s.params i) } := by
  intro j v hv
  rw [OrdMap.get?_insert] at hv
  split_ifs at hv with hj
  · cases hv
    rw [hj]
  · exact h j v hv

/-- **One call.** -/
theorem calcBlockSubsidy_right (hfits : SubsidyFits s.params) (h : s.Right) (height : Int) :
    (s.calcBlockSubsidy height).1 = definedSubsidy s.params height ∧
      (s.calcBlockSubsidy height).2.Right ∧ (s.calcBlockSubsidy height).2.params = s.params := by
  rw [calcBlockSubsidy, definedSubsidy]
  by_cases hone : height = 1
  · simp only [hone, if_true]
    exact ⟨trivial, h, trivial⟩
  · simp only [hone, if_false]
    by_cases hzero : subsidyIteration s.params height = 0
    · simp only [hzero, if_true]
      exact ⟨rfl, h, trivial⟩
    · simp only [hzero, if_false]
      generalize hi : subsidyIteration s.params height = i at hzero
      cases hget : s.subsidyCache.get? i with
      | some v => exact ⟨h i v hget, h, rfl⟩
      | none =>
        -- both ways to compute the value give the subsidy of the interval
        have hvalue : (match s.subsidyCache.get? (i - 1) with
            | some cachedValue => reduceSubsidy64 s.params cachedValue
            | none => (reduceSubsidy64 s.params)^[i] s.params.baseSubsidy) =
            intervalSubsidy s.params i := by
          cases hprev : s.subsidyCache.get? (i - 1) with
          | none => exact iterate_reduceSubsidy64 hfits i
          | some v =>
            obtain ⟨i, rfl⟩ : ∃ j, i = j + 1 := ⟨i - 1, by omega⟩
            rw [Nat.add_sub_cancel] at hprev
            obtain ⟨h0, hle⟩ := intervalSubsidy_bounds s.params i
            rw [intervalSubsidy_succ, h i v hprev]
            exact reduceSubsidy64_eq hfits h0 hle
        simp only [hvalue]
        exact ⟨trivial, h.insert i, trivial⟩

/-- **A sequence of calls.** -/
theorem calls_eq (hfits : SubsidyFits s.params) (h : s.Right)
    (heights : List Int) : s.calls heights = heights.map (definedSubsidy s.params) := by
  induction heights generalizing s with
  | nil => rfl
  | cons height heights ih =>
    obtain ⟨hvalue, hright, hparams⟩ := calcBlockSubsidy_right hfits h height
    rw [calls, List.map_cons, hvalue, ih (hparams ▸ hfits) hright, hparams]

theorem new_right (hfits : SubsidyFits params) {start : Int}
    (h : new start params = some s) : s.Right ∧ s.params = params := by
  have hiterate : ∀ (height : Int) (n : Nat),
      ((fun sc : SubsidyCache => (sc.calcBlockSubsidy height).2)^[n] ⟨.empty, params⟩).Right ∧
      ((fun sc : SubsidyCache => (sc.calcBlockSubsidy height).2)^[n] ⟨.empty, params⟩).params =
        params := by
    intro height n
    induction n with
    | zero => exact ⟨right_empty params, rfl⟩
    | succ n ih =>
      rw [Function.iterate_succ_apply']
      obtain ⟨-, hright, hparams⟩ := calcBlockSubsidy_right (ih.2.symm ▸ hfits) ih.1 height
      exact ⟨hright, hparams.trans ih.2⟩
  simp only [new] at h
  split_ifs at h
  · obtain rfl := Option.some.inj h
    exact ⟨right_empty params, rfl⟩
  · obtain rfl := Option.some.inj h
    exact hiterate _ 5

theorem new_isSome (params : Params) (h : height < 2 ^ 63) : ∃ s, new height params = some s := by
  have hiteration : subsidyIteration params height ≠ 2 ^ 64 - 1 := by
    have hle : (height : Int).tdiv params.subsidyReductionInterval ≤ height :=
      Int.tdiv_le_self _ (Int.natCast_nonneg _)
    rw [subsidyIteration_natCast h]
    omega
  simp only [new, hiteration, if_false]
  split_ifs
  · exact ⟨_, rfl⟩
  · exact ⟨_, rfl⟩

end SubsidyCache

/-! ## The supply -/

open Finset

/-- The subsidies of all intervals stay below the geometric bound. -/
theorem sum_intervalSubsidy_le (params : Params) (q : Nat) :
    (params.divSubsidy - params.mulSubsidy) * ∑ i ∈ range q, intervalSubsidy params i ≤
      params.divSubsidy * params.baseSubsidy := by
  have hstep : ∀ i, params.divSubsidy * intervalSubsidy params (i + 1) ≤
      params.mulSubsidy * intervalSubsidy params i := by
    intro i
    have hprod : 0 ≤ intervalSubsidy params i * params.mulSubsidy :=
      mul_nonneg (intervalSubsidy_bounds params i).1 params.mulSubsidy_nonneg
    rw [intervalSubsidy_succ, reduceSubsidy, Int.tdiv_eq_ediv_of_nonneg hprod,
      mul_comm params.mulSubsidy]
    exact Int.mul_ediv_self_le (ne_of_gt params.divSubsidy_pos)
  refine (Decay.sum_decay_le hstep q).trans ?_
  refine mul_le_mul_of_nonneg_left ?_ (le_of_lt params.divSubsidy_pos)
  have hlast := (intervalSubsidy_bounds params q).1
  show params.baseSubsidy - _ ≤ _
  omega

theorem sum_intervalSubsidy_bounds (hfits : SubsidyFits params) (q : Nat) :
    0 ≤ ∑ i ∈ range q, intervalSubsidy params i ∧
      ∑ i ∈ range q, intervalSubsidy params i ≤ params.divSubsidy * params.baseSubsidy := by
  have hnn : 0 ≤ ∑ i ∈ range q, intervalSubsidy params i :=
    sum_nonneg fun i _ => (intervalSubsidy_bounds params i).1
  have hone : 1 ≤ params.divSubsidy - params.mulSubsidy := by
    have := hfits.mul_lt_div
    omega
  exact ⟨hnn, (le_mul_of_one_le_left hnn hone).trans (sum_intervalSubsidy_le params q)⟩

/-- What is paid for whole intervals, and for one more, fits in 64 bits. -/
theorem supply_inRange (hfits : SubsidyFits params) (q : Nat) {extra : Int} (h0 : 0 ≤ extra)
    (hle : extra ≤ 2 * params.subsidyReductionInterval * params.baseSubsidy) :
    InRange (params.blockOneSubsidy +
      params.subsidyReductionInterval * ∑ i ∈ range q, intervalSubsidy params i + extra) := by
  obtain ⟨hs0, hsle⟩ := sum_intervalSubsidy_bounds hfits q
  have hI := le_of_lt params.subsidyReductionInterval_pos
  have hledger : 0 ≤ params.blockOneSubsidy := params.blockOneLedger_nonneg
  have hprod : params.subsidyReductionInterval * ∑ i ∈ range q, intervalSubsidy params i ≤
      params.subsidyReductionInterval * (params.divSubsidy * params.baseSubsidy) :=
    mul_le_mul_of_nonneg_left hsle hI
  have hprod0 := mul_nonneg hI hs0
  have htotal := hfits.total_lt
  have hexpand : params.subsidyReductionInterval * ((params.divSubsidy + 2) * params.baseSubsidy) =
      params.subsidyReductionInterval * (params.divSubsidy * params.baseSubsidy) +
        2 * params.subsidyReductionInterval * params.baseSubsidy := by
    ring
  constructor <;> omega

theorem mul_intervalSubsidy_bounds {n : Int} (h0 : 0 ≤ n)
    (hle : n ≤ params.subsidyReductionInterval) (q : Nat) : 0 ≤ n * intervalSubsidy params q ∧
      n * intervalSubsidy params q ≤ params.subsidyReductionInterval * params.baseSubsidy := by
  obtain ⟨hs0, hsle⟩ := intervalSubsidy_bounds params q
  exact ⟨mul_nonneg h0 hs0, Int.mul_le_mul hle hsle hs0
    (le_of_lt params.subsidyReductionInterval_pos)⟩

theorem iterate_supply (hfits : SubsidyFits params) (n : Nat) : (fun (supply, subsidy) =>
      (wrap (supply + wrap (params.subsidyReductionInterval * subsidy)),
        reduceSubsidy64 params subsidy))^[n] (params.blockOneSubsidy, params.baseSubsidy) =
      (params.blockOneSubsidy +
        params.subsidyReductionInterval * ∑ i ∈ range n, intervalSubsidy params i,
        intervalSubsidy params n) := by
  induction n with
  | zero => simp [intervalSubsidy]
  | succ n ih =>
    have hI := params.subsidyReductionInterval_pos
    obtain ⟨hs0, hsle⟩ := intervalSubsidy_bounds params n
    obtain ⟨hm0, hmle⟩ := mul_intervalSubsidy_bounds (Int.le_of_lt hI) (Int.le_refl _) n
    have hbase : 0 ≤ params.subsidyReductionInterval * params.baseSubsidy :=
      Int.mul_nonneg (Int.le_of_lt hI) params.baseSubsidy_nonneg
    have hroom : params.subsidyReductionInterval * intervalSubsidy params n ≤
        2 * params.subsidyReductionInterval * params.baseSubsidy := by
      rw [Int.mul_assoc]
      omega
    have hsum := supply_inRange hfits n hm0 hroom
    have hzero := supply_inRange hfits 0 hm0 hroom
    have hone : InRange (params.subsidyReductionInterval * intervalSubsidy params n) := by
      have hledger : 0 ≤ params.blockOneSubsidy := params.blockOneLedger_nonneg
      obtain ⟨-, hlt⟩ := hzero
      simp only [range_zero, sum_empty, Int.mul_zero, Int.add_zero] at hlt
      constructor <;> omega
    rw [Function.iterate_succ_apply', ih]
    simp only
    rw [wrap_of_inRange hone, wrap_of_inRange hsum, reduceSubsidy64_eq hfits hs0 hsle,
      intervalSubsidy_succ, sum_range_succ, Int.mul_add, Int.add_assoc]

theorem calcBlockSubsidy_eq (hlen : params.subsidyReductionInterval = len) (h : height ≠ 1) :
    calcBlockSubsidy params height = intervalSubsidy params (height / len) := by
  rw [calcBlockSubsidy, if_neg h, hlen, intervalSubsidy]
  rfl

/-- Block one pays the ledger; all others pay the subsidy of their interval. -/
theorem sum_calcBlockSubsidy (hfits : SubsidyFits params)
    (hlen : params.subsidyReductionInterval = len) (h : 1 ≤ height) :
    ∑ k ∈ Icc 1 height, calcBlockSubsidy params k =
      ∑ k ∈ range (height + 1), intervalSubsidy params (k / len) +
        (params.blockOneSubsidy - params.baseSubsidy * 2) := by
  have hone : 1 < len := by
    have := hfits.one_lt_interval
    omega
  induction height, h using Nat.le_induction with
  | base =>
    have h1 : 1 / len = 0 := Nat.div_eq_of_lt hone
    simp only [Icc_self, sum_singleton, sum_range_succ, range_zero, sum_empty, Nat.zero_div, h1]
    show params.blockOneSubsidy = _
    have hbase : intervalSubsidy params 0 = params.baseSubsidy := rfl
    rw [hbase]
    ring
  | succ height hheight ih =>
    rw [sum_Icc_succ_top (by omega), ih, calcBlockSubsidy_eq hlen (by omega),
      sum_range_succ _ (height + 1)]
    ring

/-- Nothing wraps around in `estimateSupply`. -/
theorem estimateSupply_exact (hfits : SubsidyFits params) {H : Nat}
    (hlen : params.subsidyReductionInterval = len) (hH : 0 < H) :
    estimateSupply params H = params.blockOneSubsidy +
      len * ∑ i ∈ range (H / len), intervalSubsidy params i +
      (1 + (H % len : Nat)) * intervalSubsidy params (H / len) - params.baseSubsidy * 2 := by
  have hI := params.subsidyReductionInterval_pos
  have hlenpos : 0 < len := by omega
  have hdiv : ((H : Int).tdiv params.subsidyReductionInterval).toNat = H / len := by
    rw [hlen]
    rfl
  have hmod : (H : Int).tmod params.subsidyReductionInterval = (H % len : Nat) := by
    rw [hlen]
    rfl
  have hplaces : (1 + (H % len : Nat) : Int) ≤ params.subsidyReductionInterval := by
    have := Nat.mod_lt H hlenpos
    omega
  obtain ⟨hm0, hmle⟩ := mul_intervalSubsidy_bounds (by omega) hplaces (H / len)
  have hbase := params.baseSubsidy_nonneg
  have htwo : 2 * params.baseSubsidy ≤ params.subsidyReductionInterval * params.baseSubsidy :=
    Int.mul_le_mul_of_nonneg_right (by have := hfits.one_lt_interval; omega) hbase
  have hroom : ∀ x, x ≤ params.subsidyReductionInterval * params.baseSubsidy →
      x ≤ 2 * params.subsidyReductionInterval * params.baseSubsidy := by
    intro x hx
    rw [Int.mul_assoc]
    omega
  have hsum := supply_inRange hfits (H / len) hm0 (hroom _ hmle)
  have hledger : 0 ≤ params.blockOneSubsidy := params.blockOneLedger_nonneg
  have hS := Int.mul_nonneg (Int.le_of_lt hI) (sum_intervalSubsidy_bounds hfits (H / len)).1
  have hpart : ∀ x, 0 ≤ x → x ≤ params.subsidyReductionInterval * params.baseSubsidy →
      InRange x := by
    intro x h0 hx
    obtain ⟨-, hlt⟩ := supply_inRange hfits 0 h0 (hroom x hx)
    simp only [range_zero, sum_empty, Int.mul_zero, Int.add_zero] at hlt
    constructor <;> omega
  have hspecial := hpart (params.baseSubsidy * 2) (by omega) (by omega)
  have hnot : ¬ (H : Int) ≤ 0 := by omega
  simp only [estimateSupply, hnot, if_false, hdiv, hmod, iterate_supply hfits]
  rw [wrap_of_inRange (hpart _ hm0 hmle), wrap_of_inRange hsum, wrap_of_inRange hspecial,
    wrap_of_inRange, hlen]
  obtain ⟨-, hlt⟩ := hsum
  obtain ⟨-, htwice⟩ := hspecial
  constructor <;> omega

/-- **The estimate is the sum of the subsidies.** -/
theorem estimateSupply_eq (hfits : SubsidyFits params) (height : Int) :
    estimateSupply params height = ∑ k ∈ Icc 1 height.toNat, calcBlockSubsidy params k := by
  by_cases hpos : height ≤ 0
  · have hzero : height.toNat = 0 := by omega
    simp [estimateSupply, hpos, hzero]
  · lift height to Nat using by omega
    obtain ⟨len, hlen⟩ := Int.eq_ofNat_of_zero_le (le_of_lt params.subsidyReductionInterval_pos)
    have hlenpos : 0 < len := by simpa [hlen] using params.subsidyReductionInterval_pos
    rw [estimateSupply_exact hfits hlen (by omega), Int.toNat_natCast,
      sum_calcBlockSubsidy hfits hlen (by omega), Decay.sum_range_div _ hlenpos]
    push_cast
    ring

/-! ## Agreement -/

/-- **The cache and the estimate agree with the definition.** A cache is created for every height of
a block; whatever it was created for and was asked before, each call returns the base subsidy
reduced once for every interval; and the estimate is the sum of these values. -/
theorem subsidyCache_agrees : ∀ params ∈ networks,
    (∀ start : Nat, start < 2 ^ 63 → ∃ s, SubsidyCache.new start params = some s) ∧
    (∀ (start : Int) (s : SubsidyCache), SubsidyCache.new start params = some s →
      ∀ heights, s.calls heights = heights.map (definedSubsidy params)) ∧
    (∀ height : Nat, height < 2 ^ 63 →
      definedSubsidy params height = calcBlockSubsidy params height) ∧
    ∀ height : Int,
      estimateSupply params height = ∑ k ∈ Icc 1 height.toNat, calcBlockSubsidy params k := by
  intro params hparams
  have hfits := networks_subsidyFits params hparams
  refine ⟨fun start hstart => SubsidyCache.new_isSome params hstart, ?_, ?_, ?_⟩
  · intro start s hnew heights
    obtain ⟨hright, hs⟩ := SubsidyCache.new_right hfits hnew
    rw [← hs]
    exact SubsidyCache.calls_eq (hs.symm ▸ hfits) hright heights
  · intro height hheight
    exact definedSubsidy_natCast hheight
  · intro height
    exact estimateSupply_eq hfits height

/-- A cache for the middle of a chain, asked forwards and backwards. -/
theorem subsidyCache_agrees_mainNet : ∃ s, SubsidyCache.new 43008 mainNetParams = some s ∧
      s.calls [49152, 6144, 12288, 0, 1] =
        [49152, 6144, 12288, 0, 1].map (definedSubsidy mainNetParams) ∧
      definedSubsidy mainNetParams (49152 : Nat) = calcBlockSubsidy mainNetParams 49152 ∧
      estimateSupply mainNetParams 6145 =
        ∑ k ∈ Icc 1 6145, calcBlockSubsidy mainNetParams k := by
  obtain ⟨hnew, hcalls, hdefined, hsupply⟩ := subsidyCache_agrees mainNetParams (by simp [networks])
  obtain ⟨s, hs⟩ := hnew 43008 (by decide)
  exact ⟨s, hs, hcalls 43008 s hs _, hdefined 49152 (by decide), hsupply 6145⟩

end Fnod
