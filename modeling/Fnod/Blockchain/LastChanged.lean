import Fnod.Blockchain.ThresholdState

/-!
# `thresholdstate.go`: when the state of a vote changed

`stateLastChanged` looks for the block at which the state of a rule change took effect. It goes back
from the first block of the window, window by window, until it meets another state.

**Theorem (`stateLastChanged_exact`).** Whatever was asked before, the answer is nil if and only if
all blocks down to the genesis block have the state of the block, and otherwise it is the first
block of a window such that all blocks from there have this state, and the block before it has not.

The walk goes on below the window in which votes are counted first. It ends there without a look at
the lowest blocks, which is right because the state of all of these is defined
(`stateOf_of_low`).
-/

namespace Fnod

open BlockTree Except List Memo

section Functions

variable (params : Params) (orders : Orders) (version : UInt32) (k : Nat) (d : ConsensusDeployment)

/-- The loop of `stateLastChanged`. A node is always lower than the one before, so its length is
fuel enough. -/
def lastChangedLoop (curState : ThresholdState) : Nat → VoteNode → VoteNode →
    VotingCaches → Except ThresholdError VoteNode × VotingCaches
  | 0, _, _ => fun c => (.ok [], c)
  | fuel + 1, node, priorStateChangeNode =>
    if node = [] ∨ node.tail = [] then fun c => (.ok [], c)
    else
      andThen (nextThresholdState params orders version k d node.tail) fun
        | .error err => fun c => (.error err, c)
        | .ok stateTuple =>
          if stateTuple.state ≠ curState then fun c => (.ok priorStateChangeNode, c)
          else
            lastChangedLoop curState fuel (relativeAncestor node (confirmationWindow params)) node

def stateLastChanged (node : VoteNode) :
    VotingCaches → Except ThresholdError VoteNode × VotingCaches :=
  let svh : Int := params.stakeValidationHeight
  if node = [] ∨ height node < svh + confirmationWindow params then fun c => (.ok [], c)
  else
    andThen (nextThresholdState params orders version k d node.tail) fun
      | .error err => fun c => (.error err, c)
      | .ok curState =>
        let finalNodeHeight := calcWantHeight svh (confirmationWindow params) (height node)
        let node := ancestor node (finalNodeHeight + 1)
        lastChangedLoop params orders version k d curState.state (node.length + 1) node node

end Functions

/-! ## The plain recursion -/

section Plain

variable (params : Params) (version : UInt32) (d : ConsensusDeployment)

def stateOf (node : VoteNode) : Except ThresholdError ThresholdState :=
  (nextThresholdStateOf params version d node.tail).map ThresholdStateTuple.state

/-- The loop without tables. -/
def lastChangedLoopOf (curState : ThresholdState) : Nat → VoteNode → VoteNode →
    Except ThresholdError VoteNode
  | 0, _, _ => .ok []
  | fuel + 1, node, priorStateChangeNode =>
    if node = [] ∨ node.tail = [] then .ok []
    else do
      let state ← stateOf params version d node
      if state ≠ curState then .ok priorStateChangeNode
      else lastChangedLoopOf curState fuel (relativeAncestor node (confirmationWindow params)) node

/-- `stateLastChanged` without tables. -/
def stateLastChangedOf (node : VoteNode) : Except ThresholdError VoteNode :=
  let svh : Int := params.stakeValidationHeight
  if node = [] ∨ height node < svh + confirmationWindow params then .ok []
  else do
    let curState ← stateOf params version d node
    let finalNodeHeight := calcWantHeight svh (confirmationWindow params) (height node)
    let node := ancestor node (finalNodeHeight + 1)
    lastChangedLoopOf params version d curState (node.length + 1) node node

end Plain

section Tables

variable {params : Params} {deployments : UInt32 → List ConsensusDeployment} {T : VoteNode → Prop}
  {version : UInt32} {k : Nat} {d : ConsensusDeployment} {node prior : VoteNode}

theorem VoteTree.tail (ht : VoteTree params T) (h : T node) (hne : node.tail ≠ []) : T node.tail :=
  ht.of_suffix h (tail_suffix node) hne

section

variable (ht : VoteTree params T) (hd : (deployments version)[k]? = some d) (orders : Orders)

include ht hd orders

theorem lastChangedLoop_answers (curState : ThresholdState) (fuel : Nat) (h : node ≠ [] → T node) :
    Answers (VotingCachesRight params deployments T)
      (lastChangedLoop params orders version k d curState fuel node prior)
      (lastChangedLoopOf params version d curState fuel node prior) := by
  induction fuel generalizing node prior with
  | zero => exact .pure _
  | succ fuel ih =>
    unfold lastChangedLoop lastChangedLoopOf
    split_ifs with hstop
    · exact .pure _
    push Not at hstop
    have hT := h hstop.1
    refine (nextThresholdState_answers ht hd (fun hne => ht.tail hT hne) orders).andThen ?_
    unfold stateOf
    cases nextThresholdStateOf params version d node.tail with
    | error err => exact .pure _
    | ok stateTuple =>
      show Answers _ (if stateTuple.state ≠ curState then _ else _)
        (if stateTuple.state ≠ curState then _ else _)
      split_ifs
      · exact .pure _
      · exact ih fun hne => ht.of_suffix hT (ancestor_suffix _ _) hne

/-- The tables do not matter. -/
theorem stateLastChanged_answers (h : node ≠ [] → T node) :
    Answers (VotingCachesRight params deployments T)
      (stateLastChanged params orders version k d node)
      (stateLastChangedOf params version d node) := by
  unfold stateLastChanged stateLastChangedOf
  dsimp only
  split_ifs with hlow
  · exact .pure _
  push Not at hlow
  have hT := h hlow.1
  refine (nextThresholdState_answers ht hd (fun hne => ht.tail hT hne) orders).andThen ?_
  unfold stateOf
  cases nextThresholdStateOf params version d node.tail with
  | error err => exact .pure _
  | ok stateTuple =>
    exact lastChangedLoop_answers ht hd orders _ _ fun hne =>
      ht.of_suffix hT (ancestor_suffix _ _) hne

end

end Tables

/-! ## The walk is exact -/

section Exact

variable (params : Params) (version : UInt32) (d : ConsensusDeployment)

/-- The block at which the state took effect that a later block has: the first block of a window
from which on all blocks have this state, while the block before has another. -/
structure TookEffect (node start : VoteNode) : Prop where
  onChain : start <:+ node
  parent : start.tail ≠ []
  window : confirmationWindow params ∣ height start - params.stakeValidationHeight
  since : ∀ m, start <:+ m → m <:+ node → stateOf params version d m = stateOf params version d node
  before : stateOf params version d start.tail ≠ stateOf params version d node

/-- What the walk from a block may return. -/
def LastChange (node : VoteNode) : Except ThresholdError VoteNode → Prop
  | .error err => d.mask = 0 ∧ err = .invalidMask
  | .ok start =>
    (start = [] ∧ ∀ m, m ≠ [] → m <:+ node →
        stateOf params version d m = stateOf params version d node) ∨
      TookEffect params version d node start

variable {params version d} {node prior m : VoteNode}

theorem height_tail (hne : node ≠ []) : height node.tail + 1 = height node := by
  obtain ⟨b, parent, rfl⟩ := exists_cons_of_ne_nil hne
  exact (height_cons b parent).symm

/-- The state is defined below the second window. -/
theorem stateOf_of_low (hne : node ≠ [])
    (h : height node < params.stakeValidationHeight + confirmationWindow params) :
    stateOf params version d node = .ok .defined := by
  have hnot : ¬ PastFirstWindow params node.tail := by
    unfold PastFirstWindow
    rw [height_tail hne]
    omega
  rw [stateOf, nextThresholdStateOf_of_not hnot]
  rfl

theorem stateOf_window (hne : node ≠ []) (hs : node <:+ m)
    (h : confirmationWindow params ∣ height node - params.stakeValidationHeight)
    (hlt : height m < height node + confirmationWindow params) :
    stateOf params version d m = stateOf params version d node := by
  have hpos := confirmationWindow_pos params
  have hle := hs.length_le
  have hm : m ≠ [] := fun hnil => hne (suffix_nil.1 (hnil ▸ hs))
  have htail : node.tail <:+ m.tail := by
    obtain ⟨above, rfl⟩ := hs
    cases above with
    | nil => exact suffix_refl _
    | cons b above => exact (tail_suffix node).trans (suffix_append above node)
  have hwindow : windowOf params node.tail = windowOf params m.tail := by
    obtain ⟨w, hw⟩ := h
    unfold windowOf
    have hsum : height m - (params.stakeValidationHeight : Int) =
        height m - height node + confirmationWindow params * w := by omega
    have hzero : (height m - height node) / confirmationWindow params = 0 :=
      Int.ediv_eq_zero_of_lt (by unfold height; omega) (by omega)
    rw [height_tail hne, height_tail hm, hw, Int.mul_ediv_cancel_left _ (ne_of_gt hpos), hsum,
      Int.add_mul_ediv_left _ _ (ne_of_gt hpos), hzero, zero_add]
  rw [stateOf, stateOf, nextThresholdStateOf_window htail hwindow]

theorem stateOf_error {err : ThresholdError} (h : stateOf params version d node = .error err) :
    d.mask = 0 ∧ err = .invalidMask := by
  unfold stateOf at h
  cases hstate : nextThresholdStateOf params version d node.tail with
  | ok t =>
    rw [hstate] at h
    cases h
  | error err' =>
    rw [hstate] at h
    cases h
    exact nextThresholdStateOf_error hstate

theorem height_relativeAncestor (hle : confirmationWindow params ≤ height node) :
    height (relativeAncestor node (confirmationWindow params)) =
      height node - confirmationWindow params := by
  have hpos := confirmationWindow_pos params
  exact height_ancestor (by omega) (by omega)

theorem ne_nil_of_height (h : 0 ≤ height node) : node ≠ [] := by
  rintro rfl
  rw [height, length_nil] at h
  omega

/-- The walk ends in the blocks below the first whole window. -/
theorem height_le_of_end (h : relativeAncestor node (confirmationWindow params) = [] ∨
    (relativeAncestor node (confirmationWindow params)).tail = []) :
    height node ≤ confirmationWindow params := by
  by_contra hhigh
  have hheight : height (relativeAncestor node (confirmationWindow params)) =
      height node - confirmationWindow params := height_relativeAncestor (by omega)
  have hne : relativeAncestor node (confirmationWindow params) ≠ [] := ne_nil_of_height (by omega)
  have htail := height_tail hne
  exact h.elim hne (ne_nil_of_height (by omega))

/-- **The walk** from a block whose state holds from there to the node. -/
theorem lastChangedLoopOf_spec {cur : ThresholdState} {fuel : Nat}
    (hcur : stateOf params version d node = .ok cur) (hs : prior <:+ node) (hne : prior ≠ [])
    (hwindow : confirmationWindow params ∣ height prior - params.stakeValidationHeight)
    (hsame : ∀ m, prior <:+ m → m <:+ node → stateOf params version d m = .ok cur)
    (hfuel : prior.length ≤ fuel) :
    LastChange params version d node (lastChangedLoopOf params version d cur fuel
      (relativeAncestor prior (confirmationWindow params)) prior) := by
  have hW := confirmationWindow_pos params
  have hsvh := params.one_lt_validation
  induction fuel generalizing prior with
  | zero =>
    have := length_pos_iff.2 hne
    omega
  | succ fuel ih =>
    unfold lastChangedLoopOf
    by_cases hend : relativeAncestor prior (confirmationWindow params) = [] ∨
        (relativeAncestor prior (confirmationWindow params)).tail = []
    · -- the lowest blocks are not looked at: their state is defined, and so is that of `prior`
      rw [if_pos hend]
      have hlow := height_le_of_end hend
      have hdefined : stateOf params version d prior = .ok .defined := stateOf_of_low hne (by omega)
      refine .inl ⟨rfl, fun m hm hmnode => ?_⟩
      rw [hcur, ← hsame prior (suffix_refl _) hs]
      rcases suffix_or_suffix_of_suffix hmnode hs with hbelow | habove
      · have hle := hbelow.length_le
        rw [hdefined]
        refine stateOf_of_low hm ?_
        unfold height at hlow ⊢
        omega
      · rw [hsame m habove hmnode, hsame prior (suffix_refl _) hs]
    rw [if_neg hend]
    push Not at hend
    obtain ⟨hfirst, -⟩ := hend
    have hle : confirmationWindow params ≤ height prior := by
      by_contra hlt
      exact hfirst (if_pos (.inl (by omega)))
    have hheight := height_relativeAncestor hle
    have hbelow : relativeAncestor prior (confirmationWindow params) <:+ prior :=
      ancestor_suffix _ _
    generalize relativeAncestor prior (confirmationWindow params) = first at *
    have hfirstWindow : confirmationWindow params ∣
        height first - params.stakeValidationHeight := by
      have hsub : height first - (params.stakeValidationHeight : Int) =
          height prior - params.stakeValidationHeight - confirmationWindow params := by omega
      rw [hsub]
      exact Int.dvd_sub hwindow (Int.dvd_refl _)
    -- the blocks from `first` to the one before `prior` are a window
    have hblocks : ∀ m, first <:+ m → m <:+ prior → m ≠ prior →
        stateOf params version d m = stateOf params version d first := by
      intro m hm hmprior hmne
      have hlt := height_lt_of_suffix hmprior hmne
      exact stateOf_window hfirst hm hfirstWindow (by omega)
    cases hstate : stateOf params version d first with
    | error err => exact stateOf_error hstate
    | ok state =>
      rw [ok_bind]
      split_ifs with hchange
      · have htail := height_tail hne
        have hparent : prior.tail ≠ [] := ne_nil_of_height (by have := height_nonneg hfirst; omega)
        have hstep : first <:+ prior.tail :=
          suffix_of_suffix_length_le hbelow (tail_suffix prior) (by
            unfold height at hheight htail
            omega)
        refine .inr ⟨hs, hparent, hwindow, fun m hm hmnode => ?_, ?_⟩
        · rw [hsame m hm hmnode, hcur]
        · rw [hblocks _ hstep (tail_suffix prior) ?_, hstate, hcur]
          · exact fun h => hchange (Except.ok.inj h)
          · intro heq
            rw [heq] at htail
            omega
      · obtain rfl : state = cur := not_not.1 hchange
        refine ih (hbelow.trans hs) hfirst hfirstWindow (fun m hm hmnode => ?_) ?_
        · rcases suffix_or_suffix_of_suffix hmnode hs with hmprior | hpriorm
          · by_cases hmne : m = prior
            · exact hmne ▸ hsame prior (suffix_refl _) hs
            · rw [hblocks m hm hmprior hmne, hstate]
          · exact hsame m hpriorm hmnode
        · unfold height at hheight
          omega

/-- **The answer without tables.** -/
theorem stateLastChangedOf_spec (node : VoteNode) :
    LastChange params version d node (stateLastChangedOf params version d node) := by
  have hW := confirmationWindow_pos params
  unfold stateLastChangedOf
  dsimp only
  by_cases hlow : node = [] ∨ height node < params.stakeValidationHeight + confirmationWindow params
  · rw [if_pos hlow]
    refine .inl ⟨rfl, fun m hm hmnode => ?_⟩
    have hne : node ≠ [] := fun hnil => hm (suffix_nil.1 (hnil ▸ hmnode))
    have hheight := hlow.resolve_left hne
    have hle := hmnode.length_le
    rw [stateOf_of_low hne hheight, stateOf_of_low hm]
    unfold height at hheight ⊢
    omega
  rw [if_neg hlow]
  push Not at hlow
  obtain ⟨hne, hhigh⟩ := hlow
  cases hcur : stateOf params version d node with
  | error err => exact stateOf_error hcur
  | ok cur =>
    rw [ok_bind]
    -- the first block of the window of the node
    have hpast : PastFirstWindow params node.tail := by
      unfold PastFirstWindow
      rwa [height_tail hne]
    have hend := windowEnd_le hpast
    have hwant := calcWantHeight_window hpast
    rw [height_tail hne] at hwant
    have htail := height_tail hne
    have hmod := Int.emod_lt_of_pos (height node - params.stakeValidationHeight) hW
    have hdiv := Int.emod_add_mul_ediv (height node - params.stakeValidationHeight)
      (confirmationWindow params)
    have hnum : windowOf params node.tail =
        (height node - params.stakeValidationHeight) / confirmationWindow params := by
      rw [windowOf, htail]
    rw [hwant, sub_add_cancel]
    have hheight : height (ancestor node (params.stakeValidationHeight +
        confirmationWindow params * windowOf params node.tail)) = params.stakeValidationHeight +
        confirmationWindow params * windowOf params node.tail :=
      height_ancestor (by omega) (by omega)
    have hs : ancestor node (params.stakeValidationHeight +
      confirmationWindow params * windowOf params node.tail) <:+ node := ancestor_suffix _ _
    generalize ancestor node (params.stakeValidationHeight +
      confirmationWindow params * windowOf params node.tail) = start at *
    have hstart : start ≠ [] := ne_nil_of_height (by omega)
    have hparent : start.tail ≠ [] := by
      have := height_tail hstart
      exact ne_nil_of_height (by omega)
    have hwindow : confirmationWindow params ∣ height start - params.stakeValidationHeight :=
      ⟨windowOf params node.tail, by omega⟩
    have hsame : ∀ m, start <:+ m → m <:+ node → stateOf params version d m = .ok cur := by
      intro m hm hmnode
      have hle := hmnode.length_le
      have hnodeState : stateOf params version d node = stateOf params version d start :=
        stateOf_window hstart hs hwindow (by rw [hheight, hnum]; omega)
      rw [← hcur, hnodeState]
      refine stateOf_window hstart hm hwindow ?_
      have hheights : height m ≤ height node := by
        unfold height
        omega
      rw [hheight, hnum]
      omega
    unfold lastChangedLoopOf
    rw [if_neg (by simp [hstart, hparent]), hsame start (suffix_refl _) hs, ok_bind,
      if_neg (not_not_intro rfl)]
    exact lastChangedLoopOf_spec hcur hs hstart hwindow hsame le_rfl

end Exact

/-- **`stateLastChanged` is exact**, whatever was asked before. An error comes from an invalid mask.
Otherwise the answer is nil exactly if all blocks back to the first have the state of the node, and
a block that is returned is the one at which this state took effect. -/
theorem stateLastChanged_exact {params : Params} {deployments : UInt32 → List ConsensusDeployment}
    {T : VoteNode → Prop} (ht : VoteTree params T) {version : UInt32} {k : Nat}
    {d : ConsensusDeployment} (hd : (deployments version)[k]? = some d) {node : VoteNode}
    (h : node ≠ [] → T node) (orders : Orders) {c : VotingCaches}
    (hc : Reached newVotingCaches (VotingQuery params deployments T) c) :
    (∀ err, (stateLastChanged params orders version k d node c).1 = .error err →
      d.mask = 0 ∧ err = .invalidMask) ∧
    (∀ start, (stateLastChanged params orders version k d node c).1 = .ok start →
      (start = [] ↔ ∀ m, m ≠ [] → m <:+ node →
        stateOf params version d m = stateOf params version d node) ∧
      (start ≠ [] → TookEffect params version d node start)) := by
  have hright := hc.sound newVotingCaches_right fun q hq s hs => hq.sound ht hs
  rw [(stateLastChanged_answers ht hd orders h c hright).1]
  have hspec : LastChange params version d node (stateLastChangedOf params version d node) :=
    stateLastChangedOf_spec node
  refine ⟨fun err herr => ?_, fun start hok => ?_⟩
  · rwa [herr] at hspec
  · rw [hok] at hspec
    rcases hspec with ⟨hnil, hall⟩ | heffect
    · exact ⟨iff_of_true hnil hall, fun hne => absurd hnil hne⟩
    · have hne : start ≠ [] := fun hnil => heffect.parent (by rw [hnil]; rfl)
      refine ⟨iff_of_false hne fun hall => ?_, fun _ => heffect⟩
      exact heffect.before
        (hall start.tail heffect.parent ((tail_suffix start).trans heffect.onChain))

open YesVotes in
/-- The choice of the votes is locked in from the third window on. -/
theorem lockedIn_tookEffect : VoteTree regNetParams (Straight (fun _ => block) 1104) ∧
    (stateLastChanged regNetParams SteadyVotes.orders 5 0 deployment (chain 1104)
      newVotingCaches).1 = .ok (chain 785) ∧
    TookEffect regNetParams 5 deployment (chain 1104) (chain 785) := by
  have hd : (deployments 5)[0]? = some deployment := rfl
  have hok : (stateLastChanged regNetParams SteadyVotes.orders 5 0 deployment (chain 1104)
      newVotingCaches).1 = .ok (chain 785) := by decide +kernel
  refine ⟨tree, hok, ?_⟩
  exact ((stateLastChanged_exact tree hd (fun _ => ⟨1104, by decide, le_rfl, rfl⟩)
    SteadyVotes.orders .start).2 _ hok).2 (cons_ne_nil _ _)

end Fnod
