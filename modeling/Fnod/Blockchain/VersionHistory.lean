import Fnod.Blockchain.StakeVersion
import Mathlib.Tactic.Ring

/-!
# The history of the stake version

The stake version that is required of a block depends on the intervals before it. If the headers
carry the versions that are required of them, an interval with a majority of votes for a version
raises the required version to it, and one without a majority leaves it as it is
(`stakeVersionAtOf_eq`, `versionAfter_of_error`). But a majority for version 0, or blocks that are
not upgraded to version 3, set it back to 0.

**Theorem (`stakeVersion_monotone_iff`).** Along a chain the required stake version never goes
backwards exactly if no interval whose headers have a positive version ends with such a majority.
-/

namespace Fnod

open BlockTree List Memo Tally

variable (params : Params) (node : VoteNode)

/-- The version that is required after an interval. -/
def versionAfter : UInt32 :=
  match voterVersionLoopOf params (node.length + 1) node with
  | (version, node) =>
    if version = 0 ∨ node = [] then 0 else stakeVersionAtOf params version node

theorem calcStakeVersionOf_eq (params : Params) (prevNode : VoteNode) :
    calcStakeVersionOf params prevNode =
      versionAfter params (findStakeVersionPriorNode params prevNode) := rfl

/-! ## The intervals of a chain -/

section Intervals

variable {params : Params} {node : VoteNode}

theorem interval_pos (params : Params) : (0 : Int) < params.stakeVersionInterval := by
  exact_mod_cast params.stakeVersionInterval_pos

theorem endsInterval_iff : EndsInterval params node ↔
    (params.stakeValidationHeight : Int) ≤ height node ∧
      (height node + 1 - params.stakeValidationHeight) % params.stakeVersionInterval = 0 := by
  unfold EndsInterval
  dsimp only
  by_cases hle : (params.stakeValidationHeight : Int) ≤ height node
  · rw [calcWantHeight_eq (interval_pos params) (by omega) (by omega)]
    constructor
    · rintro ⟨he, -⟩
      exact ⟨hle, by omega⟩
    · rintro ⟨-, hmod⟩
      exact ⟨by omega, hle⟩
  · exact iff_of_false (fun h => hle h.2) fun h => hle h.1

theorem EndsInterval.ne_nil (h : EndsInterval params node) : node ≠ [] := by
  rintro rfl
  have := h.2
  simp [height] at this
  omega

/-- The node that an interval ends with is its own prior node. -/
theorem EndsInterval.priorNode (h : EndsInterval params node) :
    findStakeVersionPriorNode params node = node := by
  have hle := h.le_height
  unfold findStakeVersionPriorNode
  dsimp only
  rw [if_neg (by omega), ← h.1]
  exact ancestor_of_suffix (suffix_refl node) h.ne_nil

theorem EndsInterval.relativeAncestor (h : EndsInterval params node)
    (hle : (params.stakeValidationHeight : Int) + params.stakeVersionInterval ≤ height node) :
    EndsInterval params (relativeAncestor node params.stakeVersionInterval) := by
  have hheight : height (BlockTree.relativeAncestor node params.stakeVersionInterval) =
      height node - params.stakeVersionInterval := by
    have := interval_pos params
    exact height_ancestor (by omega) (by omega)
  rw [endsInterval_iff] at h ⊢
  rw [hheight]
  refine ⟨by omega, ?_⟩
  rw [show height node - params.stakeVersionInterval + 1 - params.stakeValidationHeight =
    height node + 1 - params.stakeValidationHeight - params.stakeVersionInterval by omega]
  rw [Int.sub_emod_right, h.2]

theorem height_relativeAncestor_lt (hne : node ≠ []) {d : Int} (hd : 0 < d) :
    height (relativeAncestor node d) < height node := by
  unfold relativeAncestor
  by_cases h : 0 ≤ height node - d
  · rw [height_ancestor h (by omega)]
    omega
  · have hnil : ancestor node (height node - d) = [] := if_pos (.inl (by omega))
    have := height_nonneg hne
    rw [hnil]
    simp only [height, length_nil] at this ⊢
    omega

theorem sub_emod_of_emod_eq_zero {x t w : Int} (hx : x % w = 0) (ht : 0 < t) (htw : t ≤ w) :
    (x - t) % w = w - t := by
  obtain ⟨q, rfl⟩ := Int.dvd_of_emod_eq_zero hx
  rw [show w * q - t = w - t + w * (q - 1) by ring, Int.add_mul_emod_self_left,
    Int.emod_eq_of_lt (by omega) (by omega)]

/-- The prior node of the blocks in an interval is the end of the one before. -/
theorem priorNode_of_mem_interval (hend : EndsInterval params node) {b : VoteBlock}
    {parent : VoteNode} (hs : (b :: parent) <:+ node)
    (hmem : height node < height (b :: parent) + params.stakeVersionInterval)
    (hle : (params.stakeValidationHeight : Int) + params.stakeVersionInterval ≤ height node) :
    findStakeVersionPriorNode params parent =
      relativeAncestor node params.stakeVersionInterval := by
  have hw := interval_pos params
  have hback := (hend.relativeAncestor hle).le_height
  rw [BlockTree.relativeAncestor, height_ancestor (by omega) (by omega)] at hback
  have hcons := height_cons b parent
  have hlen : height (b :: parent) ≤ height node := by
    have := hs.length_le
    unfold height
    omega
  have hmod := sub_emod_of_emod_eq_zero (endsInterval_iff.1 hend).2
    (show 0 < height node + 1 - height (b :: parent) by omega) (by omega)
  have hwant : calcWantHeight params.stakeValidationHeight params.stakeVersionInterval
      (height parent + 1) = height node - params.stakeVersionInterval := by
    rw [calcWantHeight_eq hw (by omega) (by omega)]
    rw [show height node + 1 - params.stakeValidationHeight -
      (height node + 1 - height (b :: parent)) =
      height parent + 1 - params.stakeValidationHeight by omega] at hmod
    omega
  unfold findStakeVersionPriorNode
  dsimp only
  rw [if_neg (by omega), hwant]
  exact ancestor_eq_of_suffix ((suffix_cons b parent).trans hs) (by omega) (by omega)

end Intervals

/-! ## The version after an interval -/

section After

variable {params : Params} {node : VoteNode}

theorem voterVersionLoopOf_fuel {fuel : Nat} (fuel' : Nat) (h : node.length < fuel)
    (h' : node.length < fuel') :
    voterVersionLoopOf params fuel node = voterVersionLoopOf params fuel' node := by
  induction fuel generalizing fuel' node with
  | zero => omega
  | succ fuel ih =>
    obtain ⟨fuel', rfl⟩ : ∃ k, fuel' = k + 1 := ⟨fuel' - 1, by omega⟩
    unfold voterVersionLoopOf
    split_ifs with hnode
    · have hlt := height_relativeAncestor_lt hnode.1 (interval_pos params)
      unfold height at hlt
      rw [ih fuel' (by omega) (by omega)]
    · rfl

/-- There are no versions before votes. -/
theorem versionAfter_of_lt (h : height node < params.stakeValidationHeight) :
    versionAfter params node = 0 := by
  unfold versionAfter voterVersionLoopOf
  rw [if_neg fun hn => by omega]
  rfl

/-- **An interval without a majority** leaves the version of the one before. -/
theorem versionAfter_of_error (hend : EndsInterval params node) {err : StakeVersionError}
    (hvotes : votesVersion params node = .error err) : versionAfter params node =
      versionAfter params (relativeAncestor node params.stakeVersionInterval) := by
  have herr : err = .voterVersionMajorityNotFound := by
    unfold votesVersion at hvotes
    split at hvotes
    · cases hvotes
    · cases hvotes
      rfl
  have hlt := height_relativeAncestor_lt hend.ne_nil (interval_pos params)
  unfold versionAfter
  rw [voterVersionLoopOf, if_pos ⟨hend.ne_nil, hend.2⟩, calcVoterVersionIntervalOf, if_pos hend,
    hvotes, herr]
  dsimp only
  unfold height at hlt
  rw [voterVersionLoopOf_fuel ((relativeAncestor node params.stakeVersionInterval).length + 1)
    (by omega) (by omega)]

theorem versionAfter_of_ok (hend : EndsInterval params node) {version : UInt32}
    (hvotes : votesVersion params node = .ok version) :
    versionAfter params node = if version = 0 then 0 else stakeVersionAtOf params version node := by
  unfold versionAfter
  rw [voterVersionLoopOf, if_pos ⟨hend.ne_nil, hend.2⟩, calcVoterVersionIntervalOf, if_pos hend,
    hvotes]
  simp only [hend.ne_nil, or_false]

/-- Enough blocks before the interval are upgraded to version 3. -/
def upgraded (params : Params) (node : VoteNode) : Bool :=
  isMajorityVersion params 3 (ancestor node (calcWantHeight params.stakeValidationHeight
    params.stakeVersionInterval (height node) + 1)) params.blockRejectNumRequired

theorem headersRequired_le (params : Params) :
    headersRequired params ≤ params.stakeVersionInterval := by
  refine Nat.div_le_of_le_mul ?_
  rw [mul_comm]
  exact Nat.mul_le_mul_right _ params.stakeMajorityMultiplier_le

theorem length_interval (hend : EndsInterval params node) :
    (interval params node).length = params.stakeVersionInterval := by
  have hheight := hend.le_height
  rw [interval, length_take, Nat.min_eq_left]
  unfold height at hheight
  omega

/-- If all headers of the interval have one version, the version of the votes replaces it only if it
is later. -/
theorem stakeVersionAtOf_eq (hend : EndsInterval params node) {r : UInt32}
    (hheaders : ∀ b ∈ interval params node, b.stakeVersion = r) (version : UInt32) :
    stakeVersionAtOf params version node =
      if upgraded params node then (if version < r then r else version) else 0 := by
  have hlen := length_interval hend
  have hreq := headersRequired_le params
  have hmaj := params.headers_majority
  change _ < 2 * headersRequired params at hmaj
  obtain ⟨b, parent, rfl⟩ := exists_cons_of_ne_nil hend.ne_nil
  have hreach : headersReach params version (b :: parent) = decide (version ≤ r) := by
    rw [headersReach, decide_eq_decide]
    by_cases hv : version ≤ r
    · refine iff_of_true ?_ hv
      rw [countP_eq_length.2 fun b hb => by simpa [hheaders b hb] using hv, hlen]
      exact hreq
    · refine iff_of_false ?_ hv
      rw [countP_eq_zero.2 fun b hb => by simpa [hheaders b hb] using hv]
      omega
  have hversion : headersVersion params (b :: parent) = .ok r := by
    have hall : (interval params (b :: parent)).map VoteBlock.stakeVersion =
        List.replicate params.stakeVersionInterval r :=
      eq_replicate_iff.2 ⟨by rw [length_map, hlen], by simpa using hheaders⟩
    have hwin := (winner_eq_some (a := r) (headers_majority params (b :: parent)) (.refl _)).2 (by
      rw [hall, mem_replicate, count_replicate_self]
      exact ⟨⟨params.stakeVersionInterval_pos.ne', rfl⟩, hreq⟩)
    rw [headersVersion, hwin]
  unfold stakeVersionAtOf isStakeMajorityVersionOf calcPriorStakeVersionOf upgraded
  rw [hend.priorNode]
  simp only [hreach, hversion, Bool.not_eq_true', decide_eq_true_eq]
  by_cases hup : isMajorityVersion params 3 (ancestor (b :: parent)
      (calcWantHeight params.stakeValidationHeight params.stakeVersionInterval
        (height (b :: parent)) + 1)) params.blockRejectNumRequired = true
  · simp only [hup, Bool.true_eq_false, if_false, if_true]
    by_cases hle : version ≤ r
    · rw [if_pos hle]
    · rw [if_neg hle, if_neg fun hlt => hle (UInt32.le_of_lt hlt)]
  · simp [hup]

end After

/-! ## Along a chain -/

/-- Each header above the stake validation height carries the version that is required of it. -/
def CarriesVersions : Prop :=
  ∀ b parent, (b :: parent) <:+ node → (params.stakeValidationHeight : Int) < height (b :: parent) →
    b.stakeVersion = calcStakeVersionOf params parent

/-- The required version never goes backwards. -/
def NeverBackwards : Prop :=
  ∀ anc anc', anc ≠ [] → anc <:+ anc' → anc' <:+ node →
    calcStakeVersionOf params anc ≤ calcStakeVersionOf params anc'

/-- An interval whose headers have a positive version has no majority of votes, or a majority for a
positive version after enough blocks were upgraded. -/
def KeepsVersion (b : VoteBlock) (parent : VoteNode) : Prop :=
  b.stakeVersion ≠ 0 → ∀ version, votesVersion params (b :: parent) = .ok version →
    version ≠ 0 ∧ upgraded params (b :: parent) = true

section Chain

variable {params : Params} {node : VoteNode} {b : VoteBlock} {parent : VoteNode}

theorem add_one_emod {x w : Int} (hw : 0 < w) (h : (x + 1) % w ≠ 0) : (x + 1) % w = x % w + 1 := by
  have hdiv := Int.emod_add_mul_ediv x w
  have hlt := Int.emod_lt_of_pos x hw
  have hnonneg := Int.emod_nonneg x hw.ne'
  have hmod : (x + 1) % w = (x % w + 1) % w := by
    conv_lhs => rw [show x + 1 = x % w + 1 + w * (x / w) by omega, Int.add_mul_emod_self_left]
  by_cases he : x % w + 1 = w
  · rw [hmod, he, Int.emod_self] at h
    exact absurd rfl h
  · rw [hmod, Int.emod_eq_of_lt (by omega) (by omega)]

theorem versionAfter_nil : versionAfter params [] = 0 := by
  refine versionAfter_of_lt ?_
  have := params.one_lt_validation
  simp only [height, length_nil]
  omega

/-- Before the first interval has ended, no version is required. -/
theorem calcStakeVersionOf_of_low (h : height node + 1 <
    (params.stakeValidationHeight : Int) + params.stakeVersionInterval) :
    calcStakeVersionOf params node = 0 := by
  have hlow : findStakeVersionPriorNode params node = [] := if_pos h
  rw [calcStakeVersionOf_eq, hlow, versionAfter_nil]

/-- **Inside an interval** the required version stays. -/
theorem calcStakeVersionOf_cons_of_not (hend : ¬ EndsInterval params (b :: parent)) :
    calcStakeVersionOf params (b :: parent) = calcStakeVersionOf params parent := by
  have hw := interval_pos params
  have hcons := height_cons b parent
  rw [calcStakeVersionOf_eq, calcStakeVersionOf_eq]
  congr 1
  unfold findStakeVersionPriorNode
  dsimp only
  by_cases hlow : height (b :: parent) + 1 <
      (params.stakeValidationHeight : Int) + params.stakeVersionInterval
  · rw [if_pos hlow, if_pos (by omega)]
  · rw [endsInterval_iff, not_and] at hend
    have hmod := hend (by omega)
    have hge : (params.stakeValidationHeight : Int) + params.stakeVersionInterval ≤
        height parent + 1 := by
      by_contra hlt
      refine hmod ?_
      rw [show height (b :: parent) + 1 - params.stakeValidationHeight =
        params.stakeVersionInterval by omega, Int.emod_self]
    have hsucc := add_one_emod (x := height parent + 1 - params.stakeValidationHeight) hw (by
      rwa [show height parent + 1 - params.stakeValidationHeight + 1 =
        height (b :: parent) + 1 - params.stakeValidationHeight by omega])
    rw [if_neg hlow, if_neg (by omega), calcWantHeight_eq hw (by omega) (by omega),
      calcWantHeight_eq hw (by omega) (by omega)]
    rw [show height (b :: parent) + 1 - params.stakeValidationHeight =
      height parent + 1 - params.stakeValidationHeight + 1 by omega, hsucc]
    have hnonneg := Int.emod_nonneg (height parent + 1 - params.stakeValidationHeight) hw.ne'
    have hlt := Int.emod_lt_of_pos (height parent + 1 - params.stakeValidationHeight) hw
    rw [ancestor_eq_of_suffix (suffix_cons b parent) (by omega) (by omega)]
    congr 1
    omega

/-- At the end of an interval, the version before is that after the interval before. -/
theorem calcStakeVersionOf_of_endsInterval (hend : EndsInterval params (b :: parent)) :
    calcStakeVersionOf params parent =
      versionAfter params (relativeAncestor (b :: parent) params.stakeVersionInterval) := by
  have hw := interval_pos params
  rw [calcStakeVersionOf_eq]
  by_cases hle : (params.stakeValidationHeight : Int) + params.stakeVersionInterval ≤
      height (b :: parent)
  · rw [priorNode_of_mem_interval hend (suffix_refl _) (by omega) hle]
  · -- the first interval
    have hcons := height_cons b parent
    have hheight := hend.le_height
    have hsvh := params.one_lt_validation
    rw [← calcStakeVersionOf_eq, calcStakeVersionOf_of_low (by omega), versionAfter_of_lt]
    have hanc : height (ancestor (b :: parent)
        (height (b :: parent) - params.stakeVersionInterval)) =
        height (b :: parent) - params.stakeVersionInterval := height_ancestor (by omega) (by omega)
    unfold BlockTree.relativeAncestor
    omega

/-- **The end of an interval** of a chain whose headers carry the required versions. -/
theorem le_calcStakeVersionOf_iff (hchain : CarriesVersions params (b :: parent))
    (hend : EndsInterval params (b :: parent))
    (hheight : (params.stakeValidationHeight : Int) < height (b :: parent)) :
    calcStakeVersionOf params parent ≤ calcStakeVersionOf params (b :: parent) ↔
      KeepsVersion params b parent := by
  have hw := interval_pos params
  have hb : b.stakeVersion = calcStakeVersionOf params parent :=
    hchain b parent (suffix_refl _) hheight
  have hlast : calcStakeVersionOf params (b :: parent) = versionAfter params (b :: parent) := by
    rw [calcStakeVersionOf_eq, hend.priorNode]
  rw [KeepsVersion, hb, hlast]
  have hbefore := calcStakeVersionOf_of_endsInterval hend
  by_cases hle : (params.stakeValidationHeight : Int) + params.stakeVersionInterval ≤
      height (b :: parent)
  · have hheaders : ∀ x ∈ interval params (b :: parent),
        x.stakeVersion = calcStakeVersionOf params parent := fun x hx => by
      obtain ⟨p, hs, hmem⟩ := mem_take hx
      rw [hchain x p hs (by omega), calcStakeVersionOf_eq params p,
        priorNode_of_mem_interval hend hs hmem hle, hbefore]
    cases hvotes : votesVersion params (b :: parent) with
    | error err =>
      rw [versionAfter_of_error hend hvotes, ← hbefore]
      exact iff_of_true (UInt32.le_refl _) nofun
    | ok version =>
      rw [versionAfter_of_ok hend hvotes, stakeVersionAtOf_eq hend hheaders]
      generalize calcStakeVersionOf params parent = r
      simp only [Except.ok.injEq, forall_eq', UInt32.le_iff_toNat_le]
      by_cases hr : r = 0
      · simp [hr]
      · have hpos : 0 < r.toNat := Nat.pos_of_ne_zero fun h => hr (UInt32.toNat_inj.1 h)
        by_cases hv : version = 0
        · simp only [hv, if_true, ne_eq, not_true, false_and, imp_false, not_not, hr, iff_false]
          simpa using hpos.ne'
        · cases hup : upgraded params (b :: parent) with
          | true =>
            refine iff_of_true ?_ fun _ => ⟨hv, rfl⟩
            rw [if_neg hv, if_pos rfl]
            split_ifs with hlt
            · exact le_rfl
            · exact Nat.le_of_not_lt fun h => hlt (UInt32.lt_iff_toNat_lt.2 h)
          | false =>
            refine iff_of_false ?_ fun h => by simpa using (h hr).2
            rw [if_neg hv, if_neg (by simp)]
            simpa using hpos.ne'
  · have hcons := height_cons b parent
    rw [calcStakeVersionOf_of_low (show height parent + 1 < _ by omega)]
    exact iff_of_true (UInt32.le_iff_toNat_le.2 (Nat.zero_le _)) fun h => absurd rfl h

theorem neverBackwards_iff : NeverBackwards params node ↔
    ∀ b parent, (b :: parent) <:+ node → parent ≠ [] →
      calcStakeVersionOf params parent ≤ calcStakeVersionOf params (b :: parent) := by
  constructor
  · exact fun h b parent hs hne => h parent (b :: parent) hne (suffix_cons b parent) hs
  · intro h anc anc' hne hs hnode
    exact le_of_suffix (f := fun n => (calcStakeVersionOf params n).toNat)
      (fun b parent hb => h b parent (hb.trans hnode)) hs hne

/-- **The stake version never goes backwards** exactly if no interval sets it back. -/
theorem stakeVersion_monotone_iff (hchain : CarriesVersions params node) :
    NeverBackwards params node ↔
      ∀ b parent, (b :: parent) <:+ node → EndsInterval params (b :: parent) →
        (params.stakeValidationHeight : Int) < height (b :: parent) →
        KeepsVersion params b parent := by
  rw [neverBackwards_iff]
  have hcarries : ∀ {b parent}, (b :: parent) <:+ node → CarriesVersions params (b :: parent) :=
    fun hs b' parent' hs' => hchain b' parent' (hs'.trans hs)
  constructor
  · intro h b parent hs hend hheight
    refine (le_calcStakeVersionOf_iff (hcarries hs) hend hheight).1 (h b parent hs ?_)
    rintro rfl
    have := params.one_lt_validation
    simp [height] at hheight
    omega
  · intro h b parent hs hne
    by_cases hend : EndsInterval params (b :: parent)
    · by_cases hheight : (params.stakeValidationHeight : Int) < height (b :: parent)
      · exact (le_calcStakeVersionOf_iff (hcarries hs) hend hheight).2 (h b parent hs hend hheight)
      · have hcons := height_cons b parent
        have hw := interval_pos params
        rw [calcStakeVersionOf_of_low (show height parent + 1 < _ by omega)]
        exact UInt32.le_iff_toNat_le.2 (Nat.zero_le _)
    · rw [calcStakeVersionOf_cons_of_not hend]
      exact UInt32.le_refl _

end Chain

/-! Chains with the headers that are required. The votes of the first interval are for version 7. -/

namespace VotedChain

/-- The chain of a number of blocks with three equal votes each. -/
def votedChain (version : Nat → UInt32) : Nat → VoteNode
  | 0 => []
  | n + 1 =>
    ⟨Hash.ofNat n, 0, 3, calcStakeVersionOf regNetParams (votedChain version n),
      List.replicate 3 ⟨version n, 1⟩⟩ :: votedChain version n

variable {version : Nat → UInt32}

theorem suffix_votedChain {n : Nat} {anc : VoteNode} (h : anc <:+ votedChain version n) :
    ∃ m ≤ n, anc = votedChain version m := by
  induction n with
  | zero => exact ⟨0, le_rfl, suffix_nil.1 h⟩
  | succ n ih =>
    rcases suffix_cons_iff.1 h with rfl | h
    · exact ⟨n + 1, le_rfl, rfl⟩
    · obtain ⟨m, hle, he⟩ := ih h
      exact ⟨m, by omega, he⟩

theorem suffix_votedChain_of_le {m n : Nat} (h : m ≤ n) :
    votedChain version m <:+ votedChain version n := by
  induction h with
  | refl => exact suffix_refl _
  | step _ ih => exact ih.trans (suffix_cons _ _)

theorem height_votedChain (n : Nat) : height (votedChain version n) = n - 1 := by
  induction n with
  | zero => rfl
  | succ n ih =>
    rw [votedChain, height_cons, ih]
    push_cast
    omega

theorem votedChain_carries (n : Nat) : CarriesVersions regNetParams (votedChain version n) := by
  intro b parent hs _
  obtain ⟨m, -, he⟩ := suffix_votedChain hs
  cases m with
  | zero => cases he
  | succ m =>
    cases he
    rfl

/-- Version 7 first, and version 0 in the second interval. -/
def fallsBack (n : Nat) : UInt32 := if n < 256 then 7 else 0

theorem steady_keeps {b : VoteBlock} {parent : VoteNode}
    (hs : (b :: parent) <:+ votedChain (fun _ => 7) 300)
    (hend : EndsInterval regNetParams (b :: parent)) : KeepsVersion regNetParams b parent := by
  obtain ⟨m, hle, he⟩ := suffix_votedChain hs
  have hmod := endsInterval_iff.1 hend
  rw [he, height_votedChain, show (regNetParams.stakeValidationHeight : Int) = 144 from rfl,
    show (regNetParams.stakeVersionInterval : Int) = 112 from rfl] at hmod
  obtain rfl : m = 256 := by omega
  cases he
  intro hne
  exact absurd (by decide +kernel) hne

end VotedChain

open VotedChain in
/-- With votes for one version only, nothing goes backwards. -/
theorem steadyVersion_monotone : NeverBackwards regNetParams (votedChain (fun _ => 7) 300) ∧
    calcStakeVersionOf regNetParams (votedChain (fun _ => 7) 300) = 7 :=
  ⟨(stakeVersion_monotone_iff (votedChain_carries 300)).2 fun _ _ hs hend _ => steady_keeps hs hend,
    by decide +kernel⟩

open VotedChain in
/-- Votes for version 0 take the required version from 7 back to 0. -/
theorem versionZero_backwards : CarriesVersions regNetParams (votedChain fallsBack 368) ∧
    calcStakeVersionOf regNetParams (votedChain fallsBack 256) = 7 ∧
    calcStakeVersionOf regNetParams (votedChain fallsBack 368) = 0 ∧
    ¬ NeverBackwards regNetParams (votedChain fallsBack 368) := by
  have hseven : calcStakeVersionOf regNetParams (votedChain fallsBack 256) = 7 := by decide +kernel
  have hzero : calcStakeVersionOf regNetParams (votedChain fallsBack 368) = 0 := by decide +kernel
  refine ⟨votedChain_carries 368, hseven, hzero, fun h => ?_⟩
  have hne : votedChain fallsBack (255 + 1) ≠ [] := cons_ne_nil _ _
  have hle := h (votedChain fallsBack 256) (votedChain fallsBack 368) hne
    (suffix_votedChain_of_le (by decide)) (suffix_refl _)
  rw [hseven, hzero] at hle
  exact absurd hle (by decide)

end Fnod
