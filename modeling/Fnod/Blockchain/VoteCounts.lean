import Fnod.Blockchain.ChainView
import Fnod.Blockchain.ThresholdState
import Fnod.Chaincfg.Agenda
import Mathlib.Algebra.BigOperators.Fin
import Mathlib.Algebra.Order.BigOperators.Group.Finset
import Mathlib.Data.List.Induction
import Mathlib.Data.List.Indexes

/-!
# `thresholdstate.go`: the vote counts that are reported

`getVoteCounts` counts the votes of a window for whoever asks. The consensus code counts them on its
own, block by block and with an index that it computes from the bits of a vote.

**Theorem (`getVoteCounts_eq_tallies`).** At the last block of a window, the reported counts are the
tallies that decide about the window, for choices that `validateChoices` accepts. Every vote of the
right version counts for exactly one choice or as invalid. In a window that reaches the quorum at
most one choice other than abstaining meets the threshold; with one or two votes in a window, two
choices can.

Both counts are the numbers of the votes with an index (`tallyOf`), as 32-bit numbers: the index is
the same by `voteIndex_eq`, and the blocks are the same because the last block of a window is a
whole window above the last block of the window before.
-/

namespace Fnod

open BlockTree Except List Option

/-- The deployment of a vote, as threshold states read it. -/
def Vote.deployment (v : Vote) (startTime expireTime : Nat) : ConsensusDeployment where
  mask := v.mask
  choices := v.choices.map fun choice => ⟨choice.isAbstain, choice.isNo⟩
  startTime := startTime
  expireTime := expireTime

/-! ## `getVoteCounts` -/

structure VoteCounts where
  total : UInt32
  totalAbstain : UInt32
  voteChoices : List UInt32
deriving DecidableEq

/-- The choice at an index abstains. -/
def Vote.abstains (v : Vote) (index : Nat) : Bool := (v.choices[index]?).any Choice.isAbstain

/-- The body of the loop over the votes. -/
def countVote (version : UInt32) (v : Vote) (result : VoteCounts) (vote : VoteVersion) :
    VoteCounts :=
  if vote.version ≠ version then result
  else
    let result := { result with total := result.total + 1 }
    match v.voteIndex vote.bits with
    | none => { result with totalAbstain := result.totalAbstain + 1 }
    | some index =>
      let result :=
        if v.abstains index then { result with totalAbstain := result.totalAbstain + 1 } else result
      { result with voteChoices := result.voteChoices.modify index (· + 1) }

/-- The loop over the blocks above a height. -/
def countBlocks (version : UInt32) (v : Vote) (finalHeight : Int) : VoteNode → VoteCounts →
    Panics VoteCounts
  | [], _ => .error .panic
  | b :: parent, result =>
    if height (b :: parent) > finalHeight then
      countBlocks version v finalHeight parent (b.votes.foldl (countVote version v) result)
    else .ok result

/-- `getVoteCounts`, of a node that is not nil. -/
def getVoteCounts (params : Params) (node : VoteNode) (version : UInt32) (v : Vote) :
    Panics VoteCounts :=
  let svh : Int := params.stakeValidationHeight
  let result : VoteCounts := ⟨0, 0, List.replicate v.choices.length 0⟩
  if height node < svh then .ok result
  else
    let finalHeight := calcWantHeight svh (confirmationWindow params) (height node)
    countBlocks version v finalHeight node result

/-! ## The counts as numbers of votes -/

section Tallies

variable (v : Vote) (version : UInt32)

variable (votes : List VoteVersion)

/-- The votes for a choice. -/
def tallyOf (k : Nat) : Nat :=
  votes.countP fun vote => vote.version = version ∧ v.voteIndex vote.bits = some k

/-- The votes that are invalid. -/
def invalidOf : Nat :=
  votes.countP fun vote => vote.version = version ∧ v.voteIndex vote.bits = none

def votesOf : Nat := votes.countP fun vote => vote.version = version

/-- The votes for the choices other than abstaining. -/
def decidedOf : Nat :=
  ∑ k ∈ Finset.range v.choices.length, if v.abstains k then 0 else tallyOf v version votes k

def abstainedOf : Nat :=
  ∑ k ∈ Finset.range v.choices.length, if v.abstains k then tallyOf v version votes k else 0

/-- The tallies of some votes. -/
def talliesOf : List ConditionTally :=
  v.choices.mapIdx fun k choice =>
    ⟨UInt32.ofNat (tallyOf v version votes k), choice.isAbstain, choice.isNo⟩

variable {v version} {votes votes' : List VoteVersion} {vote : VoteVersion} {k : Nat}

theorem voteIndex_lt (h : v.voteIndex vote.bits = some k) : k < v.choices.length :=
  (findIdx?_eq_some_iff_getElem.1 h).1

variable (votes : List VoteVersion) (vote : VoteVersion) (k : Nat)

theorem tallyOf_append : tallyOf v version (votes ++ votes') k =
      tallyOf v version votes k + tallyOf v version votes' k :=
  countP_append

theorem decidedOf_append : decidedOf v version (votes ++ votes') =
      decidedOf v version votes + decidedOf v version votes' := by
  unfold decidedOf
  rw [← Finset.sum_add_distrib]
  refine Finset.sum_congr rfl fun k _ => ?_
  rw [tallyOf_append]
  split_ifs <;> rfl

/-- One vote adds to the choices that have a property if its index has. -/
theorem sum_single (p : Nat → Bool) (vote : VoteVersion) :
    (∑ k ∈ Finset.range v.choices.length, if p k then tallyOf v version [vote] k else 0) =
      if vote.version = version ∧ (v.voteIndex vote.bits).any p then 1 else 0 := by
  by_cases hversion : vote.version = version
  · cases hindex : v.voteIndex vote.bits with
    | none => simp [tallyOf, hindex]
    | some j =>
      have hj : j ∈ Finset.range v.choices.length := Finset.mem_range.2 (voteIndex_lt hindex)
      rw [Finset.sum_eq_single_of_mem j hj]
      · by_cases hp : p j <;> simp [tallyOf, hversion, hindex, hp]
      · intro k _ hne
        simp [tallyOf, hindex, hne.symm]
  · simp [tallyOf, hversion]

theorem tallyOf_concat : tallyOf v version (votes ++ [vote]) k = tallyOf v version votes k +
      if vote.version = version ∧ v.voteIndex vote.bits = some k then 1 else 0 := by
  rw [tallyOf_append]
  simp [tallyOf, countP_cons]

theorem votesOf_concat : votesOf version (votes ++ [vote]) =
      votesOf version votes + if vote.version = version then 1 else 0 := by
  simp [votesOf, countP_cons]

theorem invalidOf_concat : invalidOf v version (votes ++ [vote]) = invalidOf v version votes +
      if vote.version = version ∧ v.voteIndex vote.bits = none then 1 else 0 := by
  simp [invalidOf, countP_cons]

/-- **Every vote counts once**: for one choice, or as invalid. -/
theorem votesOf_eq (votes : List VoteVersion) : votesOf version votes =
      (∑ k ∈ Finset.range v.choices.length, tallyOf v version votes k) +
        invalidOf v version votes := by
  induction votes using reverseRecOn with
  | nil => simp [votesOf, tallyOf, invalidOf]
  | append_singleton votes vote ih =>
    have hsum := @sum_single v version (fun _ => true) vote
    simp only [if_true] at hsum
    simp only [tallyOf_append, Finset.sum_add_distrib]
    rw [votesOf_concat, invalidOf_concat, hsum, ih]
    by_cases hversion : vote.version = version
    · cases hindex : v.voteIndex vote.bits <;> simp [hversion] <;> omega
    · simp [hversion]

theorem length_talliesOf : (talliesOf v version votes).length = v.choices.length := length_mapIdx

theorem getElem?_talliesOf : (talliesOf v version votes)[k]? = (v.choices[k]?).map fun choice =>
      ⟨UInt32.ofNat (tallyOf v version votes k), choice.isAbstain, choice.isNo⟩ :=
  getElem?_mapIdx

theorem talliesOf_concat {idx : Nat}
    (hidx : v.voteIndex vote.bits = if idx < v.choices.length then some idx else none) :
    talliesOf v version (votes ++ [vote]) =
      if version ≠ vote.version then talliesOf v version votes
      else (talliesOf v version votes).modify idx fun t => { t with count := t.count + 1 } := by
  apply ext_getElem?
  intro k
  by_cases hversion : version = vote.version
  · rw [if_neg (not_not_intro hversion), List.getElem?_modify, getElem?_talliesOf,
      getElem?_talliesOf]
    cases hk : v.choices[k]? with
    | none => simp
    | some choice =>
      have hklt := (List.getElem?_eq_some_iff.1 hk).1
      rw [tallyOf_concat, hidx]
      by_cases hkidx : idx = k
      · subst hkidx
        simp [hversion, hklt, UInt32.ofNat_add]
      · have hne : (if idx < v.choices.length then some idx else none) ≠ some k := by
          split_ifs <;> simp [hkidx]
        simp [hkidx, hne]
  · rw [if_pos hversion, getElem?_talliesOf, getElem?_talliesOf]
    simp [tallyOf_concat, Ne.symm hversion]

end Tallies

/-! ## The tallies of consensus -/

section Consensus

variable {v : Vote} {version : UInt32} {s : Nat} {params : Params} {node : VoteNode}
  (startTime expireTime : Nat) {votes : List VoteVersion} {w : WindowCounts}

theorem maskShift_eq {fuel : Nat} {mask : UInt16} (h : shiftLoop fuel mask = some s) :
    maskShift fuel mask = UInt16.ofNat s := by
  induction fuel generalizing mask s with
  | zero => cases h
  | succ fuel ih =>
    unfold shiftLoop at h
    unfold maskShift
    split_ifs at h ⊢ with hodd
    · cases h
      rfl
    · obtain ⟨s', hs', rfl⟩ := map_eq_some_iff.1 h
      rw [ih hs', UInt16.ofNat_add]
      rfl

theorem mask_ne_zero (h : Accepted v s) : v.mask ≠ 0 := by
  intro hzero
  have hshift := h.shifted
  rw [hzero] at hshift
  cases hshift

/-- **The tallies of a block.** -/
theorem condition_eq (h : Accepted v s) (b : VoteBlock) :
    (v.deployment startTime expireTime).condition b version =
      .ok (talliesOf v version b.votes) := by
  have hmask : (v.deployment startTime expireTime).mask ≠ 0 := mask_ne_zero h
  unfold ConsensusDeployment.condition
  rw [if_neg hmask]
  dsimp only
  congr 1
  induction b.votes using reverseRecOn with
  | nil =>
    apply ext_getElem?
    intro k
    simp [talliesOf, tallyOf, Vote.deployment, Function.comp_def]
  | append_singleton votes vote ih =>
    rw [foldl_append, ih, foldl_cons, foldl_nil,
      talliesOf_concat votes vote (voteIndex_eq h vote.bits)]
    show (if version ≠ vote.version then _ else _) = if version ≠ vote.version then _ else _
    have hshift : maskShift 16 (v.deployment startTime expireTime).mask = UInt16.ofNat s :=
      maskShift_eq h.shifted
    rw [hshift]
    rfl

theorem zipWith_talliesOf (votes votes' : List VoteVersion) :
    zipWith (fun n t => ⟨n.count + t.count, t.isAbstain, t.isNo⟩)
      (talliesOf v version votes) (talliesOf v version votes') =
      talliesOf v version (votes ++ votes') := by
  apply ext_getElem?
  intro k
  rw [getElem?_zipWith, getElem?_talliesOf, getElem?_talliesOf, getElem?_talliesOf,
    tallyOf_append, UInt32.ofNat_add]
  cases v.choices[k]? <;> rfl

theorem zipWith_replicate (votes : List VoteVersion) :
    zipWith (fun (n t : ConditionTally) => ⟨n.count + t.count, t.isAbstain, t.isNo⟩)
      (replicate (talliesOf v version votes).length ⟨0, false, false⟩)
      (talliesOf v version votes) = talliesOf v version votes := by
  apply ext_getElem?
  intro k
  rw [getElem?_zipWith, getElem?_replicate]
  split_ifs with hk
  · rw [getElem?_eq_getElem hk]
    simp
  · rw [getElem?_eq_none (Nat.le_of_not_lt hk)]

theorem foldl_decided (l : List (Nat × Choice)) (a : Nat) :
    (l.map fun p => (⟨UInt32.ofNat p.1, p.2.isAbstain, p.2.isNo⟩ : ConditionTally)).foldl
      (fun total t => if t.isAbstain then total else total + t.count) (UInt32.ofNat a) =
      UInt32.ofNat (a + (l.map fun p => if p.2.isAbstain then 0 else p.1).sum) := by
  induction l generalizing a with
  | nil => rfl
  | cons p l ih =>
    rw [map_cons, foldl_cons, map_cons, sum_cons, ← add_assoc]
    split_ifs with hp
    · rw [add_zero, ih]
    · rw [← UInt32.ofNat_add, ih]

theorem foldl_talliesOf (votes : List VoteVersion) (a : Nat) : (talliesOf v version votes).foldl
      (fun total t => if t.isAbstain then total else total + t.count) (UInt32.ofNat a) =
      UInt32.ofNat (a + decidedOf v version votes) := by
  have hmap : talliesOf v version votes =
      (v.choices.mapIdx fun k choice => (tallyOf v version votes k, choice)).map fun p =>
        (⟨UInt32.ofNat p.1, p.2.isAbstain, p.2.isNo⟩ : ConditionTally) := by
    apply ext_getElem?
    intro k
    simp [talliesOf, Function.comp_def]
  rw [hmap, foldl_decided]
  congr 2
  rw [mapIdx_eq_ofFn, map_ofFn, sum_ofFn, decidedOf, Finset.sum_range]
  refine Finset.sum_congr rfl fun k _ => ?_
  simp [Vote.abstains]

/-- The counts are those of some votes. -/
structure CountsOf (v : Vote) (version : UInt32) (votes : List VoteVersion) (w : WindowCounts) :
    Prop where
  counts : w.counts = talliesOf v version votes ∨ w.counts = [] ∧ votes = []
  total : w.totalVotes = UInt32.ofNat (decidedOf v version votes)

theorem addCounts_eq (h : Accepted v s) (hw : CountsOf v version votes w) (b : VoteBlock) :
    addCounts (v.deployment startTime expireTime) version w b =
      .ok ⟨talliesOf v version (votes ++ b.votes),
        UInt32.ofNat (decidedOf v version (votes ++ b.votes))⟩ := by
  unfold addCounts
  rw [condition_eq startTime expireTime h b, ok_bind, hw.total, foldl_talliesOf, decidedOf_append]
  dsimp only
  congr 2
  rcases hw.counts with hcounts | ⟨hcounts, rfl⟩
  · have hlen : w.counts.length ≠ 0 := by
      rw [hcounts, length_talliesOf]
      have hone := h.oneAbstain
      intro hzero
      rw [eq_nil_of_length_eq_zero hzero] at hone
      cases hone
    rw [if_neg hlen, hcounts, zipWith_talliesOf]
  · rw [hcounts, if_pos length_nil, nil_append]
    exact zipWith_replicate b.votes

/-- **The tallies of a window.** -/
theorem countWindow_eq (h : Accepted v s) (n : Nat)
    (hw : CountsOf v version votes w) (hlen : n ≤ node.length) :
    ∃ w', countWindow (v.deployment startTime expireTime) version n w node = .ok w' ∧
      CountsOf v version (votes ++ (node.take n).flatMap VoteBlock.votes) w' ∧
      (0 < n → w'.counts =
        talliesOf v version (votes ++ (node.take n).flatMap VoteBlock.votes)) := by
  induction n generalizing votes w node with
  | zero => exact ⟨w, rfl, by simpa using hw, fun hpos => absurd hpos (lt_irrefl 0)⟩
  | succ n ih =>
    cases node with
    | nil => cases hlen
    | cons b parent =>
      rw [countWindow, addCounts_eq startTime expireTime h hw b, ok_bind]
      have hnext : CountsOf v version (votes ++ b.votes) ⟨talliesOf v version (votes ++ b.votes),
        UInt32.ofNat (decidedOf v version (votes ++ b.votes))⟩ := ⟨.inl rfl, rfl⟩
      obtain ⟨w', hw', hcounts, hpos⟩ := ih hnext (Nat.le_of_succ_le_succ hlen)
      rw [take_succ_cons, flatMap_cons, ← append_assoc]
      refine ⟨w', hw', hcounts, fun _ => ?_⟩
      by_cases hn : n = 0
      · subst hn
        cases hw'
        simp
      · exact hpos (pos_of_ne_zero hn)

end Consensus

/-! ## The reported counts -/

section Reported

variable {v : Vote} {version : UInt32} {params : Params} {node : VoteNode}

/-- The counts that are reported of some votes. -/
def reportOf (v : Vote) (version : UInt32) (votes : List VoteVersion) : VoteCounts where
  total := UInt32.ofNat (votesOf version votes)
  totalAbstain := UInt32.ofNat (abstainedOf v version votes + invalidOf v version votes)
  voteChoices := (List.range v.choices.length).map fun k => UInt32.ofNat (tallyOf v version votes k)

variable (votes : List VoteVersion) (vote : VoteVersion)

theorem abstainedOf_concat : abstainedOf v version (votes ++ [vote]) = abstainedOf v version votes +
      if vote.version = version ∧ (v.voteIndex vote.bits).any v.abstains then 1 else 0 := by
  rw [← sum_single, abstainedOf, abstainedOf, ← Finset.sum_add_distrib]
  refine Finset.sum_congr rfl fun k _ => ?_
  rw [tallyOf_append]
  split_ifs <;> rfl

theorem voteChoices_concat : (reportOf v version (votes ++ [vote])).voteChoices =
      if vote.version = version then
        match v.voteIndex vote.bits with
        | none => (reportOf v version votes).voteChoices
        | some index => (reportOf v version votes).voteChoices.modify index (· + 1)
      else (reportOf v version votes).voteChoices := by
  split_ifs with hversion
  · cases hindex : v.voteIndex vote.bits with
    | none => simp [reportOf, tallyOf_concat, hindex]
    | some index =>
      apply ext_getElem?
      intro k
      rw [reportOf, reportOf, getElem?_modify, getElem?_map, getElem?_map]
      by_cases hlt : k < v.choices.length
      · rw [getElem?_range hlt]
        by_cases hk : index = k
        · simp [tallyOf_concat, hindex, hversion, hk]
        · simp [tallyOf_concat, hindex, hk]
      · rw [getElem?_eq_none (by simpa using hlt)]
        rfl
  · simp [reportOf, tallyOf_concat, hversion]

theorem countVote_eq :
    countVote version v (reportOf v version votes) vote = reportOf v version (votes ++ [vote]) := by
  have hreport : reportOf v version (votes ++ [vote]) =
      ⟨UInt32.ofNat (votesOf version (votes ++ [vote])),
        UInt32.ofNat (abstainedOf v version (votes ++ [vote]) +
          invalidOf v version (votes ++ [vote])),
        (reportOf v version (votes ++ [vote])).voteChoices⟩ := rfl
  rw [hreport, votesOf_concat, abstainedOf_concat, invalidOf_concat, voteChoices_concat, countVote]
  by_cases hversion : vote.version = version
  · cases hindex : v.voteIndex vote.bits with
    | none => simp [hversion, reportOf, UInt32.ofNat_add, UInt32.add_assoc]
    | some index =>
      by_cases habstains : v.abstains index = true
      · simp [hversion, habstains, reportOf, UInt32.ofNat_add, UInt32.add_assoc, UInt32.add_comm]
      · simp [hversion, habstains, reportOf, UInt32.ofNat_add]
  · simp [hversion, reportOf]

theorem foldl_countVote (votes' : List VoteVersion) :
    votes'.foldl (countVote version v) (reportOf v version votes) =
      reportOf v version (votes ++ votes') := by
  induction votes' generalizing votes with
  | nil => rw [foldl_nil, append_nil]
  | cons vote votes' ih =>
    rw [foldl_cons, countVote_eq, ih, append_assoc]
    rfl

/-- **The report of the blocks above a height.** -/
theorem countBlocks_eq (n : Nat) (votes : List VoteVersion) {finalHeight : Int}
    (hlen : n < node.length) (hheight : height node = finalHeight + n) :
    countBlocks version v finalHeight node (reportOf v version votes) =
      .ok (reportOf v version (votes ++ (node.take n).flatMap VoteBlock.votes)) := by
  induction n generalizing node votes with
  | zero =>
    obtain ⟨b, parent, rfl⟩ := exists_cons_of_ne_nil (length_pos_iff.1 hlen)
    rw [countBlocks, if_neg (by omega)]
    simp
  | succ n ih =>
    obtain ⟨b, parent, rfl⟩ := exists_cons_of_ne_nil (length_pos_iff.1 (Nat.zero_lt_of_lt hlen))
    rw [height_cons] at hheight
    rw [length_cons] at hlen
    rw [countBlocks, if_pos (by rw [height_cons]; omega), foldl_countVote,
      ih (votes ++ b.votes) (by omega) (by push_cast at hheight; omega), take_succ_cons,
      flatMap_cons, append_assoc]

def EndsWindow (params : Params) (node : VoteNode) : Prop :=
  (params.stakeValidationHeight : Int) ≤ height node ∧
    confirmationWindow params ∣ height node + 1 - params.stakeValidationHeight

/-- The votes of the window that a node ends. -/
def windowVotes (params : Params) (node : VoteNode) : List VoteVersion :=
  (node.take params.ruleChangeActivationInterval).flatMap VoteBlock.votes

theorem EndsWindow.interval_lt (h : EndsWindow params node) :
    params.ruleChangeActivationInterval < node.length := by
  have hle := Int.le_of_dvd (by have := h.1; omega) h.2
  have hone := params.one_lt_validation
  unfold confirmationWindow height at hle
  omega

theorem EndsWindow.calcWantHeight_eq (h : EndsWindow params node) :
    calcWantHeight params.stakeValidationHeight (confirmationWindow params) (height node) =
      height node - confirmationWindow params := by
  have hpos := confirmationWindow_pos params
  rw [Fnod.calcWantHeight_eq hpos (Int.natCast_nonneg _) h.1]
  have hmod : (height node - params.stakeValidationHeight) % confirmationWindow params =
      confirmationWindow params - 1 := by
    obtain ⟨c, hc⟩ := h.2
    rw [show height node - params.stakeValidationHeight =
      confirmationWindow params - 1 + confirmationWindow params * (c - 1) by linarith,
      Int.add_mul_emod_self_left, Int.emod_eq_of_lt (by omega) (by omega)]
  omega

/-- **The report at the end of a window.** -/
theorem getVoteCounts_eq (h : EndsWindow params node) :
    getVoteCounts params node version v = .ok (reportOf v version (windowVotes params node)) := by
  have hzero : (⟨0, 0, replicate v.choices.length 0⟩ : VoteCounts) =
      reportOf v version [] := by
    simp [reportOf, votesOf, abstainedOf, invalidOf, tallyOf]
  unfold getVoteCounts
  dsimp only
  rw [if_neg (not_lt.2 h.1), h.calcWantHeight_eq, hzero,
    countBlocks_eq params.ruleChangeActivationInterval [] h.interval_lt
      (by unfold confirmationWindow; omega)]
  rfl

end Reported

/-! ## At most one choice -/

/-- Parameters under which a quorum makes sure that at most one choice meets the threshold. -/
structure Decisive (params : Params) : Prop where
  divisor_pos : 0 < params.ruleChangeActivationDivisor.toNat
  small : params.ruleChangeActivationInterval * params.ticketsPerBlock *
    params.ruleChangeActivationMultiplier.toNat < 2 ^ 32
  quorum : 2 * params.ruleChangeActivationDivisor.toNat ≤ params.ruleChangeActivationQuorum.toNat *
    (2 * params.ruleChangeActivationMultiplier.toNat - params.ruleChangeActivationDivisor.toNat) + 1

theorem decisive_networks :
    ∀ params ∈ [mainNetParams, testNetParams, simNetParams, regNetParams], Decisive params := by
  have hall : Decisive mainNetParams ∧ Decisive testNetParams ∧ Decisive simNetParams ∧
      Decisive regNetParams :=
    ⟨⟨by decide, by decide, by decide⟩, ⟨by decide, by decide, by decide⟩,
      ⟨by decide, by decide, by decide⟩, ⟨by decide, by decide, by decide⟩⟩
  simpa using hall

/-- Two choices over the threshold need more votes than there are. -/
theorem lt_two_thresholds {t m d q : Nat} (hd : 0 < d) (hq : 2 * d ≤ q * (2 * m - d) + 1)
    (ht : q ≤ t) : t < 2 * (t * m / d) := by
  have hfloor := Nat.lt_mul_div_succ (t * m) hd
  have hmul : q * (2 * m - d) ≤ t * (2 * m - d) := Nat.mul_le_mul_right _ ht
  have hsub : t * (2 * m - d) = 2 * (t * m) - t * d := by
    rw [Nat.mul_sub, Nat.mul_left_comm]
  by_contra hge
  have hle : d * (2 * (t * m / d)) ≤ t * d := by
    rw [Nat.mul_comm t d]
    exact Nat.mul_le_mul_left d (Nat.le_of_not_lt hge)
  rw [Nat.mul_left_comm] at hle
  rw [Nat.mul_add, Nat.mul_one] at hfloor
  omega

section AtMostOne

variable {v : Vote} {version : UInt32} {params : Params} {node : VoteNode}
  {votes : List VoteVersion}

/-- Two choices together have at most all votes. -/
theorem tallyOf_add_le {j k : Nat} (hne : j ≠ k) (hj : j < v.choices.length)
    (hk : k < v.choices.length) (hja : v.abstains j = false) (hka : v.abstains k = false) :
    tallyOf v version votes j + tallyOf v version votes k ≤ decidedOf v version votes := by
  have hsub : ({j, k} : Finset Nat) ⊆ Finset.range v.choices.length := by
    intro i hi
    rcases Finset.mem_insert.1 hi with rfl | hi
    · exact Finset.mem_range.2 hj
    · rw [Finset.mem_singleton.1 hi]
      exact Finset.mem_range.2 hk
  have hle := Finset.sum_le_sum_of_subset (f := fun i => if v.abstains i then 0
    else tallyOf v version votes i) hsub
  rw [Finset.sum_pair hne] at hle
  simpa [decidedOf, hja, hka] using hle

theorem decidedOf_le_length : decidedOf v version votes ≤ votes.length := by
  have hle : decidedOf v version votes ≤
      ∑ k ∈ Finset.range v.choices.length, tallyOf v version votes k := by
    refine Finset.sum_le_sum fun k _ => ?_
    split_ifs
    · exact Nat.zero_le _
    · exact Nat.le_refl _
  have hvotes := @votesOf_eq v version votes
  have hcount : votesOf version votes ≤ votes.length := countP_le_length
  omega

theorem length_windowVotes_le (h : ∀ b ∈ node, b.votes.length ≤ params.ticketsPerBlock) :
    (windowVotes params node).length ≤
      params.ruleChangeActivationInterval * params.ticketsPerBlock := by
  have hsum : ((node.take params.ruleChangeActivationInterval).map fun b => b.votes.length).sum ≤
      (node.take params.ruleChangeActivationInterval).length * params.ticketsPerBlock := by
    rw [← smul_eq_mul, ← length_map (fun b : VoteBlock => b.votes.length)]
    refine sum_le_card_nsmul _ _ ?_
    intro n hn
    obtain ⟨b, hb, rfl⟩ := mem_map.1 hn
    exact h b (mem_of_mem_take hb)
  have htake : (node.take params.ruleChangeActivationInterval).length ≤
      params.ruleChangeActivationInterval := length_take_le _ _
  rw [windowVotes, length_flatMap]
  exact hsum.trans (Nat.mul_le_mul_right _ htake)

theorem Decisive.multiplier_pos (h : Decisive params) :
    0 < params.ruleChangeActivationMultiplier.toNat := by
  by_contra hzero
  have hquorum := h.quorum
  have hpos := h.divisor_pos
  rw [Nat.eq_zero_of_not_pos hzero, mul_zero, Nat.zero_sub, mul_zero] at hquorum
  omega

theorem Decisive.toNat_threshold (h : Decisive params) {t : Nat}
    (ht : t ≤ params.ruleChangeActivationInterval * params.ticketsPerBlock) :
    t < 2 ^ 32 ∧ (ruleChangeActivationThreshold params (UInt32.ofNat t)).toNat =
      t * params.ruleChangeActivationMultiplier.toNat /
        params.ruleChangeActivationDivisor.toNat := by
  have hmul := Nat.mul_le_mul_right params.ruleChangeActivationMultiplier.toNat ht
  have hsmall := h.small
  have hle := Nat.le_mul_of_pos_right t h.multiplier_pos
  have hlt : t < 2 ^ 32 := by omega
  refine ⟨hlt, ?_⟩
  rw [ruleChangeActivationThreshold, UInt32.toNat_div, UInt32.toNat_mul, UInt32.toNat_ofNat',
    Nat.mod_eq_of_lt hlt, Nat.mod_eq_of_lt (by omega)]

/-- **At most one choice**: of the tallies of a window with a quorum, at most one other than
abstaining meets the threshold. -/
theorem meets_threshold_unique (h : Decisive params)
    (hlen : votes.length ≤ params.ruleChangeActivationInterval * params.ticketsPerBlock)
    (hquorum : params.ruleChangeActivationQuorum ≤ UInt32.ofNat (decidedOf v version votes))
    {j k : Nat} {t t' : ConditionTally} (hj : (talliesOf v version votes)[j]? = some t)
    (hk : (talliesOf v version votes)[k]? = some t') (hja : t.isAbstain = false)
    (hka : t'.isAbstain = false)
    (htj : ruleChangeActivationThreshold params (UInt32.ofNat (decidedOf v version votes)) ≤
      t.count)
    (htk : ruleChangeActivationThreshold params (UInt32.ofNat (decidedOf v version votes)) ≤
      t'.count) : j = k := by
  by_contra hne
  rw [getElem?_talliesOf] at hj hk
  obtain ⟨c, hcj, rfl⟩ := map_eq_some_iff.1 hj
  obtain ⟨c', hck, rfl⟩ := map_eq_some_iff.1 hk
  obtain ⟨hlt, hthreshold⟩ := h.toNat_threshold ((@decidedOf_le_length v version votes).trans hlen)
  have hsum := @tallyOf_add_le v version votes j k hne (List.getElem?_eq_some_iff.1 hcj).1
    (List.getElem?_eq_some_iff.1 hck).1 (by simpa [Vote.abstains, hcj] using hja)
    (by simpa [Vote.abstains, hck] using hka)
  have htwo := lt_two_thresholds h.divisor_pos h.quorum (t := decidedOf v version votes)
    (by
      have hq := UInt32.le_iff_toNat_le.1 hquorum
      rwa [UInt32.toNat_ofNat', Nat.mod_eq_of_lt hlt] at hq)
  have hcount : ∀ {i : Nat}, tallyOf v version votes i ≤ decidedOf v version votes →
      ruleChangeActivationThreshold params (UInt32.ofNat (decidedOf v version votes)) ≤
        UInt32.ofNat (tallyOf v version votes i) →
      decidedOf v version votes * params.ruleChangeActivationMultiplier.toNat /
        params.ruleChangeActivationDivisor.toNat ≤ tallyOf v version votes i := by
    intro i hi hti
    have hnat := UInt32.le_iff_toNat_le.1 hti
    rwa [hthreshold, UInt32.toNat_ofNat', Nat.mod_eq_of_lt (by omega)] at hnat
  have hj' := hcount (by omega) htj
  have hk' := hcount (by omega) htk
  omega

end AtMostOne

/-! ## The claim of the report -/

section Main

variable {v : Vote} {version : UInt32} {s : Nat} {params : Params} {node : VoteNode}

/-- What is compared with the quorum is the total: no choice is both to abstain and no. -/
theorem foldl_nonAbstain (h : Accepted v s) (votes : List VoteVersion) :
    (talliesOf v version votes).foldl
      (fun total t => if t.isAbstain && !t.isNo then total else total + t.count) 0 =
      UInt32.ofNat (decidedOf v version votes) := by
  have htotal := @foldl_talliesOf v version votes 0
  rw [zero_add] at htotal
  rw [← htotal]
  refine foldl_ext _ _ _ ?_
  intro total t ht
  obtain ⟨k, hk⟩ := mem_iff_getElem?.1 ht
  rw [getElem?_talliesOf] at hk
  obtain ⟨choice, hchoice, rfl⟩ := map_eq_some_iff.1 hk
  have hflags := h.flags choice (mem_of_getElem? hchoice)
  cases habstain : choice.isAbstain <;> cases hno : choice.isNo <;> simp_all

section

variable (h : Accepted v s) (hlen : params.ruleChangeActivationInterval ≤ node.length)

include h hlen

theorem countWindow_window (startTime expireTime : Nat) :
    countWindow (v.deployment startTime expireTime) version params.ruleChangeActivationInterval
      ⟨[], 0⟩ node = .ok ⟨talliesOf v version (windowVotes params node),
        UInt32.ofNat (decidedOf v version (windowVotes params node))⟩ := by
  have hnone : CountsOf v version [] ⟨[], 0⟩ := ⟨.inr ⟨rfl, rfl⟩, by simp [decidedOf, tallyOf]⟩
  obtain ⟨⟨counts, total⟩, hw, hcounts, hpos⟩ :=
    countWindow_eq startTime expireTime h params.ruleChangeActivationInterval hnone hlen
  rw [nil_append] at hcounts hpos
  have htotal := hcounts.total
  have htallies := hpos params.ruleChangeActivationInterval_pos
  dsimp only at htotal htallies
  rw [hw, htotal, htallies]
  rfl

theorem stepStarted_eq {startTime expireTime : Nat} (hexpire : calcPastMedianTime node < expireTime)
    (t : ThresholdStateTuple) :
    stepStarted params (v.deployment startTime expireTime) version node t =
      let tallies := talliesOf v version (windowVotes params node)
      let total := UInt32.ofNat (decidedOf v version (windowVotes params node))
      .ok (if total < params.ruleChangeActivationQuorum then t
        else decideChoice (ruleChangeActivationThreshold params total) t 0 tallies) := by
  have hopen : ¬ (v.deployment startTime expireTime).expireTime ≤ calcPastMedianTime node :=
    not_le.2 hexpire
  unfold stepStarted
  rw [if_neg hopen, countWindow_window h hlen, ok_bind]
  dsimp only
  rw [foldl_nonAbstain h]
  split_ifs <;> rfl

end

/-- **Theorem.** At the last block of a window, the reported counts are the tallies that decide
about the window. Every vote of the version counts for one choice or as invalid. If there is a
quorum, at most one choice other than abstaining meets the threshold. -/
theorem getVoteCounts_eq_tallies {toLower : String → String}
    (hv : validateChoices toLower v.mask v.choices = .ok ()) (hend : EndsWindow params node)
    (version : UInt32) (startTime expireTime : Nat) : ∃ counts w,
      getVoteCounts params node version v = .ok counts ∧
      countWindow (v.deployment startTime expireTime) version params.ruleChangeActivationInterval
        ⟨[], 0⟩ node = .ok w ∧
      (calcPastMedianTime node < expireTime → ∀ t,
        stepStarted params (v.deployment startTime expireTime) version node t =
          .ok (if w.totalVotes < params.ruleChangeActivationQuorum then t
            else decideChoice (ruleChangeActivationThreshold params w.totalVotes) t 0 w.counts)) ∧
      counts.voteChoices = w.counts.map ConditionTally.count ∧
      (∀ k < v.choices.length, counts.voteChoices[k]? =
        some (UInt32.ofNat (tallyOf v version (windowVotes params node) k))) ∧
      counts.total = UInt32.ofNat (votesOf version (windowVotes params node)) ∧
      votesOf version (windowVotes params node) =
        (∑ k ∈ Finset.range v.choices.length, tallyOf v version (windowVotes params node) k) +
          invalidOf v version (windowVotes params node) ∧
      (Decisive params → (∀ b ∈ node, b.votes.length ≤ params.ticketsPerBlock) →
        params.ruleChangeActivationQuorum ≤ w.totalVotes →
        ∀ (j k : Nat) (t t' : ConditionTally), w.counts[j]? = some t →
          w.counts[k]? = some t' → t.isAbstain = false → t'.isAbstain = false →
          ruleChangeActivationThreshold params w.totalVotes ≤ t.count →
          ruleChangeActivationThreshold params w.totalVotes ≤ t'.count → j = k) := by
  obtain ⟨s, h⟩ := accepted_of_validateChoices hv
  have hlen := le_of_lt hend.interval_lt
  refine ⟨_, _, getVoteCounts_eq hend, countWindow_window h hlen startTime expireTime,
    fun hexpire t => stepStarted_eq h hlen hexpire t, ?_, ?_, rfl, votesOf_eq _, ?_⟩
  · apply ext_getElem?
    intro k
    rw [List.getElem?_map, getElem?_talliesOf, reportOf, List.getElem?_map]
    by_cases hk : k < v.choices.length
    · rw [List.getElem?_range hk, List.getElem?_eq_getElem hk]
      rfl
    · rw [List.getElem?_eq_none (by simpa using hk), List.getElem?_eq_none (Nat.le_of_not_lt hk)]
      rfl
  · intro k hk
    rw [reportOf, List.getElem?_map, List.getElem?_range hk]
    rfl
  · intro hdecisive hvotes hquorum j k t t' hj hk hja hka htj htk
    exact meets_threshold_unique hdecisive (length_windowVotes_le hvotes) hquorum hj hk hja hka htj
      htk

end Main

/-! Almost all votes abstain. -/

namespace FewVotes

deriving instance DecidableEq for WindowCounts

/-- Abstain, no and yes. -/
def vote : Vote :=
  ⟨6, [⟨"abstain", 0, true, false⟩, ⟨"no", 2, false, true⟩, ⟨"yes", 4, false, false⟩]⟩

/-- The last block of the window has one vote against and one vote for the change. -/
def block (height : Nat) : VoteBlock :=
  ⟨default, 50, 5, 5,
    if height = 463 then [⟨5, 3⟩, ⟨5, 5⟩, ⟨5, 1⟩] else List.replicate 5 ⟨5, 1⟩⟩

end FewVotes

open FewVotes in
/-- A window in which every vote is for the change: no other choice meets the threshold. -/
theorem getVoteCounts_yesVotes : validateChoices id vote.mask vote.choices = .ok () ∧
    EndsWindow regNetParams (YesVotes.chain 464) ∧ Decisive regNetParams ∧
    ∃ counts w, getVoteCounts regNetParams (YesVotes.chain 464) 5 vote = .ok counts ∧
      countWindow (vote.deployment 10 100) 5 regNetParams.ruleChangeActivationInterval ⟨[], 0⟩
        (YesVotes.chain 464) = .ok w ∧
      counts.voteChoices = [0, 0, 1600] ∧ w.counts.map ConditionTally.count = [0, 0, 1600] ∧
      regNetParams.ruleChangeActivationQuorum ≤ w.totalVotes ∧
      ∀ (k : Nat) (t : ConditionTally), w.counts[k]? = some t → t.isAbstain = false →
        ruleChangeActivationThreshold regNetParams w.totalVotes ≤ t.count → k = 2 := by
  have hv : validateChoices id vote.mask vote.choices = .ok () := by decide +kernel
  have hend : EndsWindow regNetParams (YesVotes.chain 464) := by
    unfold EndsWindow height
    rw [length_straight]
    decide
  have hdecisive : Decisive regNetParams := decisive_networks _ (by simp)
  have hcounts : getVoteCounts regNetParams (YesVotes.chain 464) 5 vote =
      .ok ⟨1600, 0, [0, 0, 1600]⟩ := by decide +kernel
  have hw : countWindow (vote.deployment 10 100) 5 regNetParams.ruleChangeActivationInterval ⟨[], 0⟩
      (YesVotes.chain 464) =
        .ok ⟨[⟨0, true, false⟩, ⟨0, false, true⟩, ⟨1600, false, false⟩], 1600⟩ := by decide +kernel
  obtain ⟨counts, w, hcounts', hw', -, hchoices, -, -, -, hunique⟩ :=
    getVoteCounts_eq_tallies hv hend 5 10 100
  rw [hcounts] at hcounts'
  rw [hw] at hw'
  cases hcounts'
  cases hw'
  refine ⟨hv, hend, hdecisive, _, _, hcounts, hw, rfl, hchoices.symm, by decide, ?_⟩
  intro k t hk hkabstain hmeets
  exact hunique hdecisive (by decide +kernel) (by decide) k 2 t ⟨1600, false, false⟩ hk rfl
    hkabstain rfl hmeets (by decide)

open FewVotes in
/-- **Two choices meet the threshold** of a window with two votes that do not abstain. -/
theorem fewVotes_two_meet : validateChoices id vote.mask vote.choices = .ok () ∧
    VoteTree regNetParams (Straight block 464) ∧ EndsWindow regNetParams (straight block 464) ∧
    ∃ w, countWindow (vote.deployment 10 100) 5 regNetParams.ruleChangeActivationInterval ⟨[], 0⟩
        (straight block 464) = .ok w ∧
      ∃ t t', w.counts[1]? = some t ∧ w.counts[2]? = some t' ∧
        t.isAbstain = false ∧ t'.isAbstain = false ∧
        ruleChangeActivationThreshold regNetParams w.totalVotes ≤ t.count ∧
        ruleChangeActivationThreshold regNetParams w.totalVotes ≤ t'.count := by
  refine ⟨by decide +kernel, straight_tree (by decide) ?_, ?_, ?_⟩
  · intro n _ _
    unfold block
    split_ifs <;> decide
  · unfold EndsWindow height
    rw [length_straight]
    decide
  · exact ⟨⟨[⟨1596, true, false⟩, ⟨1, false, true⟩, ⟨1, false, false⟩], 2⟩, by decide +kernel, _, _,
      rfl, rfl, rfl, rfl, by decide, by decide⟩

end Fnod
