import Fnod.Blockchain.VersionHistory
import Fnod.Lib.Sim
import Mathlib.Data.List.Sort

/-!
# `thresholdstate.go`: votes on rule changes

A rule change goes through states, from window to window of blocks. The state of a window depends on
the state of the window before and on the last block of the window; states are kept in a table under
the hashes of these blocks. A query walks back to the first window whose state is known, and then
forward again.

**Theorem (`thresholdState_pure`).** Whatever was asked before, `nextThresholdState` returns what
the plain recursion over windows gives. The state is the same for all blocks of a window. If past
median times never decrease, the states of a chain change as `Follows` says: voting may start, or
the rule change fails at once if it has expired before; voting ends with a failure or a choice that
is locked in; one window later this choice is active; and active and failed rule changes stay as
they are.

The walk leaves a list of windows whose states are pending (`Pending`), each of which is a step from
the one before. The stake version that a step asks for has tables of its own, which
`calcStakeVersion_answers` is about.
-/

namespace Fnod

open BlockTree Except List Memo

inductive ThresholdState
  | defined
  | started
  | lockedIn
  | active
  | failed
deriving DecidableEq

def invalidChoice : UInt32 := 0xffffffff

structure ThresholdStateTuple where
  state : ThresholdState
  choice : UInt32
deriving DecidableEq

/-- The flags of a choice of a vote. -/
structure VoteChoice where
  isAbstain : Bool
  isNo : Bool
deriving DecidableEq

/-- `ConsensusDeployment`, with the mask and the choices of its vote. -/
structure ConsensusDeployment where
  mask : UInt16
  choices : List VoteChoice
  startTime : Nat
  expireTime : Nat

/-- `thresholdConditionTally`. -/
structure ConditionTally where
  count : UInt32
  isAbstain : Bool
  isNo : Bool
deriving DecidableEq

/-- An invalid mask, a window that reaches below the genesis block (a nil pointer), and the failed
look-up after the walk. With an error the tuple is `ThresholdFailed` without a choice. -/
inductive ThresholdError
  | invalidMask
  | nilNode
  | cacheLookup
deriving DecidableEq

def medianTimeBlocks : Nat := 11

def calcPastMedianTime (node : VoteNode) : Nat :=
  let timestamps := ((node.take medianTimeBlocks).map VoteBlock.timestamp).insertionSort (· ≤ ·)
  timestamps.getD (timestamps.length / 2) 0

/-! ## Tallies -/

/-- The first loop of `Condition`: the position of the lowest bit of a mask. -/
def maskShift : Nat → UInt16 → UInt16
  | 0, _ => 0
  | n + 1, mask => if mask &&& 1 = 1 then 0 else maskShift n (mask >>> 1) + 1

variable (params : Params) (version : UInt32) (d : ConsensusDeployment)

def ConsensusDeployment.condition (node : VoteBlock) (version : UInt32) :
    Except ThresholdError (List ConditionTally) :=
  if d.mask = 0 then .error .invalidMask
  else
    let shift := maskShift 16 d.mask
    let tally := d.choices.map fun choice => ⟨0, choice.isAbstain, choice.isNo⟩
    .ok (node.votes.foldl (fun tally vote =>
      if version ≠ vote.version then tally
      else
        -- an index that is out of range is an invalid choice
        let idx := (d.mask &&& vote.bits) >>> shift
        tally.modify idx.toNat fun t => { t with count := t.count + 1 }) tally)

/-- The counts of a window so far. -/
structure WindowCounts where
  counts : List ConditionTally
  totalVotes : UInt32

/-- One turn of the counting loop. -/
def addCounts (version : UInt32) (w : WindowCounts) (node : VoteBlock) :
    Except ThresholdError WindowCounts := do
  let c ← d.condition node version
  let counts := if w.counts.length = 0 then List.replicate c.length ⟨0, false, false⟩ else w.counts
  .ok {
    counts := List.zipWith (fun n t => ⟨n.count + t.count, t.isAbstain, t.isNo⟩) counts c
    totalVotes := c.foldl (fun total t => if t.isAbstain then total else total + t.count)
      w.totalVotes }

/-- The counting loop, over a number of blocks. -/
def countWindow (version : UInt32) :
    Nat → WindowCounts → VoteNode → Except ThresholdError WindowCounts
  | 0, w, _ => .ok w
  | _ + 1, _, [] => .error .nilNode
  | n + 1, w, b :: parent => do
    let w ← addCounts d version w b
    countWindow version n w parent

/-- The loop over the choices: the first one over the threshold decides, unless it abstains. -/
def decideChoice (threshold : UInt32) (stateTuple : ThresholdStateTuple) :
    Nat → List ConditionTally → ThresholdStateTuple
  | _, [] => stateTuple
  | k, v :: counts =>
    if v.count < threshold then decideChoice threshold stateTuple (k + 1) counts
    else if !v.isAbstain && !v.isNo then ⟨.lockedIn, UInt32.ofNat k⟩
    else if !v.isAbstain && v.isNo then ⟨.failed, UInt32.ofNat k⟩
    else if v.isAbstain && !v.isNo then decideChoice threshold stateTuple (k + 1) counts
    else ⟨.failed, UInt32.ofNat k⟩

section Functions

variable (params : Params)

/-- The length of a window. -/
def confirmationWindow : Int := params.ruleChangeActivationInterval

def ruleChangeActivationThreshold (totalVotes : UInt32) : UInt32 :=
  totalVotes * params.ruleChangeActivationMultiplier / params.ruleChangeActivationDivisor

/-- The case of a started vote. -/
def stepStarted (d : ConsensusDeployment) (version : UInt32) (node : VoteNode)
    (stateTuple : ThresholdStateTuple) : Except ThresholdError ThresholdStateTuple :=
  if d.expireTime ≤ calcPastMedianTime node then .ok { stateTuple with state := .failed }
  else do
    let w ← countWindow d version params.ruleChangeActivationInterval ⟨[], 0⟩ node
    let totalNonAbstainVotes := w.counts.foldl (fun total v =>
      if v.isAbstain && !v.isNo then total else total + v.count) 0
    if totalNonAbstainVotes < params.ruleChangeActivationQuorum then .ok stateTuple
    else
      let threshold := ruleChangeActivationThreshold params w.totalVotes
      .ok (decideChoice threshold stateTuple 0 w.counts)

/-- The state after a window, from the state before and the stake version after its last block. -/
def stepState (d : ConsensusDeployment) (version : UInt32) (stakeVersion : UInt32) (node : VoteNode)
    (stateTuple : ThresholdStateTuple) : Except ThresholdError ThresholdStateTuple :=
  match stateTuple.state with
  | .defined =>
    if height node < params.stakeValidationHeight then .ok stateTuple
    else if d.expireTime ≤ calcPastMedianTime node then .ok { stateTuple with state := .failed }
    else if stakeVersion < version then .ok stateTuple
    else if !isMajorityVersion params version.toInt32.toInt node params.blockRejectNumRequired then
      .ok stateTuple
    else if d.startTime ≤ calcPastMedianTime node then .ok { stateTuple with state := .started }
    else .ok stateTuple
  | .started => stepStarted params d version node stateTuple
  | .lockedIn => .ok { stateTuple with state := .active }
  | .active => .ok stateTuple
  | .failed => .ok stateTuple

end Functions

/-! ## The tables -/

/-- The tables of stake versions, and those of the deployments: by version and position in the list
of deployments of the version. -/
structure VotingCaches where
  stake : StakeCaches
  thresholds : UInt32 → Nat → Hash → Option ThresholdStateTuple

/-- `newThresholdCaches`, and the empty tables of stake versions. -/
def newVotingCaches : VotingCaches := ⟨newStakeCaches, fun _ _ _ => none⟩

/-- `Update` of the cache of a deployment. -/
def VotingCaches.update (c : VotingCaches) (version : UInt32) (k : Nat) (hash : Hash)
    (stateTuple : ThresholdStateTuple) : VotingCaches :=
  { c with thresholds := fun v i h =>
      if v = version ∧ i = k ∧ h = hash then some stateTuple else c.thresholds v i h }

def askStake {α : Type} (q : StakeCaches → α × StakeCaches) (c : VotingCaches) : α × VotingCaches :=
  ((q c.stake).1, { c with stake := (q c.stake).2 })

section Cached

variable (params : Params) (orders : Orders) (version : UInt32) (k : Nat) (d : ConsensusDeployment)

/-- The first loop of `nextThresholdState`: the node where it stops, and the nodes whose states are
needed, oldest first. -/
def walkBack : Nat → VoteNode → List VoteNode → VotingCaches →
    (VoteNode × List VoteNode) × VotingCaches
  | 0, prevNode, neededStates, c => ((prevNode, neededStates), c)
  | fuel + 1, prevNode, neededStates, c =>
    if prevNode = [] then ((prevNode, neededStates), c)
    else if (c.thresholds version k prevNode.hash).isSome then ((prevNode, neededStates), c)
    else if calcPastMedianTime prevNode < d.startTime then
      ((prevNode, neededStates), c.update version k prevNode.hash ⟨.defined, invalidChoice⟩)
    else
      walkBack fuel (relativeAncestor prevNode (confirmationWindow params))
        (prevNode :: neededStates) c

/-- The body of the second loop. The stake version is asked for only where it is needed. -/
def stepCached (node : VoteNode) (stateTuple : ThresholdStateTuple) :
    VotingCaches → Except ThresholdError ThresholdStateTuple × VotingCaches :=
  if stateTuple.state = .defined ∧ (params.stakeValidationHeight : Int) ≤ height node ∧
      calcPastMedianTime node < d.expireTime then
    andThen (askStake (calcStakeVersion params orders node)) fun stakeVersion c =>
      (stepState params d version stakeVersion node stateTuple, c)
  else fun c => (stepState params d version 0 node stateTuple, c)

/-- The second loop. -/
def walkForward : List VoteNode → ThresholdStateTuple → VotingCaches →
    Except ThresholdError ThresholdStateTuple × VotingCaches
  | [], stateTuple => fun c => (.ok stateTuple, c)
  | node :: neededStates, stateTuple =>
    andThen (stepCached params orders version d node stateTuple) fun
      | .error err => fun c => (.error err, c)
      | .ok stateTuple => fun c =>
        walkForward neededStates stateTuple (c.update version k node.hash stateTuple)

def nextThresholdState (prevNode : VoteNode) :
    VotingCaches → Except ThresholdError ThresholdStateTuple × VotingCaches :=
  let svh : Int := params.stakeValidationHeight
  if prevNode = [] ∨ height prevNode + 1 < svh + confirmationWindow params then
    fun c => (.ok ⟨.defined, invalidChoice⟩, c)
  else
    let wantHeight := calcWantHeight svh (confirmationWindow params) (height prevNode + 1)
    let node := ancestor prevNode wantHeight
    andThen (walkBack params version k d (node.length + 1) node []) fun
      | (node, neededStates) => fun c =>
        if node = [] then
          walkForward params orders version k d neededStates ⟨.defined, invalidChoice⟩ c
        else
          match c.thresholds version k node.hash with
          | none => (.error .cacheLookup, c)
          | some stateTuple => walkForward params orders version k d neededStates stateTuple c

end Cached

/-! ## The plain recursion -/

section Plain

variable (params : Params) (version : UInt32) (d : ConsensusDeployment)

/-- One step of the recursion. -/
def stepOf (node : VoteNode) (stateTuple : ThresholdStateTuple) :
    Except ThresholdError ThresholdStateTuple :=
  stepState params d version (calcStakeVersionOf params node) node stateTuple

/-- The state after a window, by its last block; the length of the node is fuel enough. -/
def thresholdStateLoop : Nat → VoteNode → Except ThresholdError ThresholdStateTuple
  | 0, _ => .ok ⟨.defined, invalidChoice⟩
  | fuel + 1, node =>
    if node = [] ∨ calcPastMedianTime node < d.startTime then .ok ⟨.defined, invalidChoice⟩
    else
      thresholdStateLoop fuel (relativeAncestor node (confirmationWindow params)) >>=
        stepOf params version d node

/-- The state after a window. -/
def thresholdStateOf (node : VoteNode) : Except ThresholdError ThresholdStateTuple :=
  thresholdStateLoop params version d (node.length + 1) node

/-- The state for the block after a node. -/
def nextThresholdStateOf (prevNode : VoteNode) : Except ThresholdError ThresholdStateTuple :=
  let svh : Int := params.stakeValidationHeight
  if prevNode = [] ∨ height prevNode + 1 < svh + confirmationWindow params then
    .ok ⟨.defined, invalidChoice⟩
  else
    thresholdStateOf params version d
      (ancestor prevNode (calcWantHeight svh (confirmationWindow params) (height prevNode + 1)))

end Plain

section Recursion

variable {params : Params} {version : UInt32} {d : ConsensusDeployment} {node : VoteNode}

theorem confirmationWindow_pos (params : Params) : 0 < confirmationWindow params := by
  have := params.ruleChangeActivationInterval_pos
  unfold confirmationWindow
  omega

theorem thresholdStateLoop_fuel {fuel : Nat} (fuel' : Nat) (h : node.length < fuel)
    (h' : node.length < fuel') : thresholdStateLoop params version d fuel node =
      thresholdStateLoop params version d fuel' node := by
  induction fuel generalizing fuel' node with
  | zero => omega
  | succ fuel ih =>
    obtain ⟨fuel', rfl⟩ : ∃ m, fuel' = m + 1 := ⟨fuel' - 1, by omega⟩
    unfold thresholdStateLoop
    split_ifs with hstop
    · rfl
    · have hne : node ≠ [] := fun hnil => hstop (.inl hnil)
      have hlt := height_relativeAncestor_lt hne (confirmationWindow_pos params)
      unfold height at hlt
      rw [ih fuel' (by omega) (by omega)]

/-- Before the start time, the rule change is defined. -/
theorem thresholdStateOf_of_stop (h : node = [] ∨ calcPastMedianTime node < d.startTime) :
    thresholdStateOf params version d node = .ok ⟨.defined, invalidChoice⟩ := by
  rw [thresholdStateOf, thresholdStateLoop, if_pos h]

/-- **The recursion over windows.** -/
theorem thresholdStateOf_eq (hne : node ≠ []) (hstart : d.startTime ≤ calcPastMedianTime node) :
    thresholdStateOf params version d node =
      (thresholdStateOf params version d (relativeAncestor node (confirmationWindow params)) >>=
        stepOf params version d node) := by
  have hlt := height_relativeAncestor_lt hne (confirmationWindow_pos params)
  unfold height at hlt
  rw [thresholdStateOf, thresholdStateLoop, if_neg (by simp only [hne, false_or]; omega),
    thresholdStateOf, thresholdStateLoop_fuel _ (by omega) (Nat.lt_succ_self _)]

end Recursion

/-! ## The tables are sound -/

/-- Every entry for a block of the tree is what the plain recursion gives. -/
structure VotingCachesRight (deployments : UInt32 → List ConsensusDeployment)
    (T : VoteNode → Prop) (c : VotingCaches) : Prop where
  stake : StakeCachesRight params T c.stake
  thresholds : ∀ {version k d node t}, (deployments version)[k]? = some d → T node →
    c.thresholds version k node.hash = some t → thresholdStateOf params version d node = .ok t

/-- The states of these windows are to be computed, from that of an older one. -/
inductive Pending (T : VoteNode → Prop) : VoteNode → List VoteNode → VoteNode → Prop
  | done {node : VoteNode} : Pending T node [] node
  | step {older node last : VoteNode} {needed : List VoteNode} : T node →
      thresholdStateOf params version d node =
        (thresholdStateOf params version d older >>= stepOf params version d node) →
      Pending T node needed last →
      Pending T older (node :: needed) last

section Sound

variable {params : Params} {deployments : UInt32 → List ConsensusDeployment} {T : VoteNode → Prop}
  {version : UInt32} {k : Nat} {d : ConsensusDeployment} {node : VoteNode}

theorem newVotingCaches_right : VotingCachesRight params deployments T newVotingCaches :=
  ⟨newStakeCaches_right, fun _ _ h => nomatch h⟩

theorem askStake_answers {α : Type} {q : StakeCaches → α × StakeCaches} {v : α}
    (h : Answers (StakeCachesRight params T) q v) :
    Answers (VotingCachesRight params deployments T) (askStake q) v := fun c hc =>
  ⟨(h c.stake hc.stake).1, ⟨(h c.stake hc.stake).2, hc.thresholds⟩⟩

section

variable (ht : VoteTree params T) {t : ThresholdStateTuple} {c : VotingCaches} {last : VoteNode}
  {needed : List VoteNode}

include ht

theorem VotingCachesRight.update (hd : (deployments version)[k]? = some d) (h : T node)
    (hstate : thresholdStateOf params version d node = .ok t)
    (hc : VotingCachesRight params deployments T c) :
    VotingCachesRight params deployments T (c.update version k node.hash t) := by
  refine ⟨hc.stake, fun {version' k' d' node' t'} hd' hT ht' => ?_⟩
  unfold VotingCaches.update at ht'
  dsimp only at ht'
  split_ifs at ht' with hkey
  · obtain ⟨rfl, rfl, hhash⟩ := hkey
    cases hd.symm.trans hd'
    cases ht'
    rw [ht.hash_inj hT h hhash, hstate]
  · exact hc.thresholds hd' hT ht'

theorem stepCached_answers (h : T node) (orders : Orders) (t : ThresholdStateTuple) :
    Answers (VotingCachesRight params deployments T) (stepCached params orders version d node t)
      (stepOf params version d node t) := by
  unfold stepCached stepOf
  split_ifs with hask
  · exact (askStake_answers (calcStakeVersion_answers ht h orders)).andThen (.pure _)
  · -- the stake version is not looked at
    have hcongr : stepState params d version 0 node t =
        stepState params d version (calcStakeVersionOf params node) node t := by
      unfold stepState
      cases hstate : t.state with
      | defined =>
        by_cases hlow : height node < params.stakeValidationHeight
        · rw [if_pos hlow, if_pos hlow]
        · have hexp : d.expireTime ≤ calcPastMedianTime node := by
            by_contra hlt
            exact hask ⟨hstate, by omega, by omega⟩
          rw [if_neg hlow, if_pos hexp, if_neg hlow, if_pos hexp]
      | started => rfl
      | lockedIn => rfl
      | active => rfl
      | failed => rfl
    rw [← hcongr]
    exact .pure _

section

variable (hd : (deployments version)[k]? = some d)

include hd

/-- **The way forward** computes the pending states. -/
theorem walkForward_spec (orders : Orders) {older : VoteNode}
    (hpending : Pending params version d T older needed last)
    (hstate : thresholdStateOf params version d older = .ok t) :
    Answers (VotingCachesRight params deployments T)
      (walkForward params orders version k d needed t)
      (thresholdStateOf params version d last) := by
  induction hpending generalizing t with
  | done =>
    rw [hstate]
    exact .pure _
  | @step older node last needed hT hstep hrest ih =>
    unfold walkForward
    rw [hstate, ok_bind] at hstep
    refine (stepCached_answers ht hT orders t).andThen ?_
    rw [← hstep]
    cases hnode : thresholdStateOf params version d node with
    | ok t' => exact fun c hc => ih hnode _ (hc.update ht hd hT hnode)
    | error err =>
      -- an error stays to the last window
      have hlast : thresholdStateOf params version d last = .error err := by
        clear ih hstep hT
        induction hrest with
        | done => exact hnode
        | step _ hstep' _ ih' =>
          rw [hnode] at hstep'
          exact ih' hstep'
      rw [hlast]
      exact .pure _

/-- **The way back** stops at a known state and leaves the states above it pending. -/
theorem walkBack_spec {fuel : Nat} (hfuel : node.length < fuel) (h : node ≠ [] → T node)
    (hpending : Pending params version d T node needed last)
    (hc : VotingCachesRight params deployments T c) :
    ∃ stop needed' c', walkBack params version k d fuel node needed c = ((stop, needed'), c') ∧
      VotingCachesRight params deployments T c' ∧ Pending params version d T stop needed' last ∧
      (stop ≠ [] → ∃ t, c'.thresholds version k stop.hash = some t ∧
        thresholdStateOf params version d stop = .ok t) := by
  induction fuel generalizing node needed with
  | zero => omega
  | succ fuel ih =>
    unfold walkBack
    split_ifs with hnil hknown hstart
    · exact ⟨node, needed, c, rfl, hc, hpending, fun hne => absurd hnil hne⟩
    · obtain ⟨t, hsome⟩ := Option.isSome_iff_exists.1 hknown
      refine ⟨node, needed, c, rfl, hc, hpending, fun hne => ?_⟩
      exact ⟨t, hsome, hc.thresholds hd (h hne) hsome⟩
    · have hstate : thresholdStateOf params version d node = .ok ⟨.defined, invalidChoice⟩ :=
        thresholdStateOf_of_stop (.inr hstart)
      refine ⟨node, needed, _, rfl, hc.update ht hd (h hnil) hstate, hpending, fun _ => ?_⟩
      refine ⟨_, ?_, hstate⟩
      simp [VotingCaches.update]
    · have hlt := height_relativeAncestor_lt hnil (confirmationWindow_pos params)
      unfold height at hlt
      refine ih (by omega) (fun hne => ?_) (.step (h hnil) ?_ hpending)
      · exact ht.of_suffix (h hnil) (ancestor_suffix _ _) hne
      · exact thresholdStateOf_eq hnil (by omega)

/-- **`nextThresholdState`** answers what the plain recursion gives. -/
theorem nextThresholdState_answers (h : node ≠ [] → T node) (orders : Orders) :
    Answers (VotingCachesRight params deployments T)
      (nextThresholdState params orders version k d node)
      (nextThresholdStateOf params version d node) := by
  unfold nextThresholdState nextThresholdStateOf
  dsimp only
  split_ifs with hlow
  · exact .pure _
  · intro c hc
    have hT := h fun hnil => hlow (.inl hnil)
    generalize hwant : ancestor node (calcWantHeight params.stakeValidationHeight
      (confirmationWindow params) (height node + 1)) = last
    obtain ⟨stop, needed, c', hwalk, hc', hpending, hstop⟩ := walkBack_spec ht hd
      (Nat.lt_succ_self last.length)
      (fun hne => ht.of_suffix hT (hwant ▸ ancestor_suffix _ _) hne) .done hc
    unfold andThen
    rw [hwalk]
    dsimp only
    by_cases hnil : stop = []
    · rw [if_pos hnil]
      exact walkForward_spec ht hd orders hpending (thresholdStateOf_of_stop (.inl hnil)) c' hc'
    · obtain ⟨t, hlook, hstate⟩ := hstop hnil
      rw [if_neg hnil, hlook]
      exact walkForward_spec ht hd orders hpending hstate c' hc'

end

end

end Sound

/-! ## From window to window -/

/-- How the state of a window follows from that of the window before. -/
inductive Follows : ThresholdStateTuple → ThresholdStateTuple → Prop
  | wait : Follows ⟨.defined, invalidChoice⟩ ⟨.defined, invalidChoice⟩
  | start : Follows ⟨.defined, invalidChoice⟩ ⟨.started, invalidChoice⟩
  | expireUnstarted : Follows ⟨.defined, invalidChoice⟩ ⟨.failed, invalidChoice⟩
  | vote : Follows ⟨.started, invalidChoice⟩ ⟨.started, invalidChoice⟩
  | expire : Follows ⟨.started, invalidChoice⟩ ⟨.failed, invalidChoice⟩
  | reject (choice : UInt32) : Follows ⟨.started, invalidChoice⟩ ⟨.failed, choice⟩
  | lockIn (choice : UInt32) : Follows ⟨.started, invalidChoice⟩ ⟨.lockedIn, choice⟩
  | activate (choice : UInt32) : Follows ⟨.lockedIn, choice⟩ ⟨.active, choice⟩
  | active (choice : UInt32) : Follows ⟨.active, choice⟩ ⟨.active, choice⟩
  | failed (choice : UInt32) : Follows ⟨.failed, choice⟩ ⟨.failed, choice⟩

/-- There is no choice before the vote is decided. -/
def Undecided (t : ThresholdStateTuple) : Prop :=
  t.state = .defined ∨ t.state = .started → t.choice = invalidChoice

/-- Along the ancestors, past median times never decrease. -/
def MedianTimesGrow (node : VoteNode) : Prop :=
  ∀ b parent, b :: parent <:+ node → parent ≠ [] →
    calcPastMedianTime parent ≤ calcPastMedianTime (b :: parent)

theorem Follows.undecided {t t' : ThresholdStateTuple} (h : Follows t t') : Undecided t' := by
  intro hstate
  cases h with
  | wait | start | vote => rfl
  | _ => simp at hstate

theorem MedianTimesGrow.le {node anc : VoteNode} (h : MedianTimesGrow node) (hs : anc <:+ node)
    (hne : anc ≠ []) : calcPastMedianTime anc ≤ calcPastMedianTime node :=
  le_of_suffix h hs hne

section Transitions

variable {params : Params} {version : UInt32} {d : ConsensusDeployment} {node : VoteNode}
  {t t' : ThresholdStateTuple}

/-- Induction over windows, from the state after one to the state after the one before. -/
theorem thresholdStateOf_induction {P : VoteNode → Except ThresholdError ThresholdStateTuple → Prop}
    (hstop : ∀ node, P node (.ok ⟨.defined, invalidChoice⟩))
    (hstep : ∀ node older, node ≠ [] → relativeAncestor node (confirmationWindow params) = older →
      P older (thresholdStateOf params version d older) →
      P node (thresholdStateOf params version d older >>= stepOf params version d node))
    (node : VoteNode) : P node (thresholdStateOf params version d node) := by
  induction hlen : node.length using Nat.strong_induction_on generalizing node with
  | _ n ih =>
    by_cases hend : node = [] ∨ calcPastMedianTime node < d.startTime
    · rw [thresholdStateOf_of_stop hend]
      exact hstop node
    · obtain ⟨hne, hstart⟩ := not_or.1 hend
      have hlt := height_relativeAncestor_lt hne (confirmationWindow_pos params)
      unfold height at hlt
      rw [thresholdStateOf_eq hne (not_lt.1 hstart)]
      exact hstep node _ hne rfl (ih _ (by omega) _ rfl)

theorem decideChoice_follows {threshold : UInt32} (counts : List ConditionTally) (k : Nat) :
    Follows ⟨.started, invalidChoice⟩
      (decideChoice threshold ⟨.started, invalidChoice⟩ k counts) := by
  induction counts generalizing k with
  | nil => exact .vote
  | cons v counts ih =>
    unfold decideChoice
    split_ifs
    · exact ih _
    · exact .lockIn _
    · exact .reject _
    · exact ih _
    · exact .reject _

/-- **A step of the recursion is a transition.** -/
theorem stepOf_follows (hchoice : Undecided t) (h : stepOf params version d node t = .ok t') :
    Follows t t' := by
  obtain ⟨state, choice⟩ := t
  unfold stepOf stepState at h
  cases state with
  | defined =>
    obtain rfl : choice = invalidChoice := hchoice (.inl rfl)
    split_ifs at h
    all_goals cases h
    · exact .wait
    · exact .expireUnstarted
    · exact .wait
    · exact .wait
    · exact .start
    · exact .wait
  | started =>
    obtain rfl : choice = invalidChoice := hchoice (.inr rfl)
    dsimp only [stepStarted] at h
    split_ifs at h
    · cases h
      exact .expire
    · obtain ⟨w, -, h⟩ := bind_eq_ok.1 h
      split_ifs at h
      · cases h
        exact .vote
      · cases h
        exact decideChoice_follows _ _
  | lockedIn =>
    cases h
    exact .activate choice
  | active =>
    cases h
    exact .active choice
  | failed =>
    cases h
    exact .failed choice

theorem thresholdStateOf_undecided (h : thresholdStateOf params version d node = .ok t) :
    Undecided t := by
  refine thresholdStateOf_induction (P := fun _ r => ∀ t, r = .ok t → Undecided t) ?_ ?_ node t h
  · intro _ t h
    cases h
    exact fun _ => rfl
  · intro node older _ _ ih t h
    obtain ⟨t₀, ht₀, h⟩ := bind_eq_ok.1 h
    exact (stepOf_follows (ih t₀ ht₀) h).undecided

/-- **The states of two windows** are a transition apart. -/
theorem thresholdStateOf_follows (hgrow : MedianTimesGrow node) (hne : node ≠ [])
    (h : thresholdStateOf params version d node = .ok t') :
    ∃ t, thresholdStateOf params version d (relativeAncestor node (confirmationWindow params)) =
      .ok t ∧ Follows t t' := by
  by_cases hstart : calcPastMedianTime node < d.startTime
  · rw [thresholdStateOf_of_stop (.inr hstart)] at h
    cases h
    refine ⟨_, thresholdStateOf_of_stop ?_, .wait⟩
    -- the window before ended no later
    by_cases hnil : relativeAncestor node (confirmationWindow params) = []
    · exact .inl hnil
    · exact .inr (lt_of_le_of_lt (hgrow.le (ancestor_suffix _ _) hnil) hstart)
  · rw [thresholdStateOf_eq hne (by omega)] at h
    obtain ⟨t, ht, h⟩ := bind_eq_ok.1 h
    exact ⟨t, ht, stepOf_follows (thresholdStateOf_undecided ht) h⟩

/-! ## Where the windows lie -/

/-- Before the stake validation height, the rule change is defined. -/
theorem thresholdStateOf_low (h : height node < params.stakeValidationHeight) :
    thresholdStateOf params version d node = .ok ⟨.defined, invalidChoice⟩ := by
  refine thresholdStateOf_induction (P := fun node r =>
    height node < params.stakeValidationHeight → r = .ok ⟨.defined, invalidChoice⟩) ?_ ?_ node h
  · exact fun _ _ => rfl
  · rintro node _ hne rfl ih h
    have hlt := height_relativeAncestor_lt hne (confirmationWindow_pos params)
    rw [ih (by omega), ok_bind]
    exact if_pos h

/-- Votes only start at the stake validation height. -/
theorem height_of_started (h : thresholdStateOf params version d node = .ok t)
    (hstate : t.state = .started) : (params.stakeValidationHeight : Int) ≤ height node := by
  by_contra hlow
  rw [thresholdStateOf_low (by omega)] at h
  cases h
  cases hstate

variable {err : ThresholdError}

theorem countWindow_error {n : Nat} {w : WindowCounts} (hlen : n ≤ node.length)
    (h : countWindow d version n w node = .error err) : d.mask = 0 ∧ err = .invalidMask := by
  induction n generalizing w node with
  | zero => cases h
  | succ n ih =>
    cases node with
    | nil => simp at hlen
    | cons b parent =>
      unfold countWindow at h
      by_cases hmask : d.mask = 0
      · rw [addCounts, ConsensusDeployment.condition, if_pos hmask] at h
        cases h
        exact ⟨hmask, rfl⟩
      · rw [addCounts, ConsensusDeployment.condition, if_neg hmask] at h
        exact ih (Nat.le_of_succ_le_succ hlen) h

/-- A step fails only if the mask is invalid. -/
theorem stepOf_error (hlen : t.state = .started → params.ruleChangeActivationInterval ≤ node.length)
    (h : stepOf params version d node t = .error err) : d.mask = 0 ∧ err = .invalidMask := by
  unfold stepOf stepState at h
  cases hstate : t.state with
  | started =>
    rw [hstate] at h
    dsimp only [stepStarted] at h
    split_ifs at h
    cases hcount : countWindow d version params.ruleChangeActivationInterval ⟨[], 0⟩ node with
    | error err' =>
      rw [hcount] at h
      cases h
      exact countWindow_error (hlen hstate) hcount
    | ok w =>
      rw [hcount, ok_bind] at h
      split_ifs at h
  | defined =>
    rw [hstate] at h
    split_ifs at h
  | lockedIn | active | failed =>
    rw [hstate] at h
    cases h

/-- **The recursion fails only if the mask is invalid**: no window reaches below genesis. -/
theorem thresholdStateOf_error (h : thresholdStateOf params version d node = .error err) :
    d.mask = 0 ∧ err = .invalidMask := by
  refine thresholdStateOf_induction
    (P := fun _ r => r = .error err → d.mask = 0 ∧ err = .invalidMask) ?_ ?_ node h
  · exact fun _ h => nomatch h
  · intro node older _ holder ih h
    cases ht : thresholdStateOf params version d older with
    | error err' =>
      rw [ht] at h
      cases h
      exact ih ht
    | ok t =>
      rw [ht, ok_bind] at h
      refine stepOf_error (fun hstate => ?_) h
      -- the vote has started at the end of the window before, so there is a whole window
      have hheight := height_of_started ht hstate
      have hpos := params.one_lt_validation
      by_contra hshort
      have hnil : relativeAncestor node (confirmationWindow params) = [] := by
        refine if_pos (.inl ?_)
        unfold height confirmationWindow
        omega
      rw [← holder, hnil, height, length_nil] at hheight
      omega

/-- The number of the window of the block after a node. -/
def windowOf (params : Params) (prevNode : VoteNode) : Int :=
  (height prevNode + 1 - params.stakeValidationHeight) / confirmationWindow params

/-- The first window is over for the block after a node. -/
def PastFirstWindow (params : Params) (prevNode : VoteNode) : Prop :=
  params.stakeValidationHeight + confirmationWindow params ≤ height prevNode + 1

theorem nextThresholdStateOf_of_not (h : ¬ PastFirstWindow params node) :
    nextThresholdStateOf params version d node = .ok ⟨.defined, invalidChoice⟩ :=
  if_pos (.inr (not_le.1 h))

theorem calcWantHeight_window (h : PastFirstWindow params node) :
    calcWantHeight params.stakeValidationHeight (confirmationWindow params) (height node + 1) =
      params.stakeValidationHeight + confirmationWindow params * windowOf params node - 1 := by
  have hpos := confirmationWindow_pos params
  unfold PastFirstWindow at h
  have hdiv := Int.emod_add_mul_ediv (height node + 1 - params.stakeValidationHeight)
    (confirmationWindow params)
  rw [calcWantHeight_eq hpos (by omega) (by omega), windowOf]
  omega

theorem pastFirstWindow_iff : PastFirstWindow params node ↔ 1 ≤ windowOf params node := by
  unfold PastFirstWindow windowOf
  rw [Int.le_ediv_iff_mul_le (confirmationWindow_pos params)]
  omega

theorem nextThresholdStateOf_eq (h : PastFirstWindow params node) :
    nextThresholdStateOf params version d node = thresholdStateOf params version d
      (ancestor node
        (params.stakeValidationHeight + confirmationWindow params * windowOf params node - 1)) := by
  have hpos := confirmationWindow_pos params
  have hsvh := params.one_lt_validation
  have hlow : ¬(node = [] ∨
      height node + 1 < params.stakeValidationHeight + confirmationWindow params) := by
    unfold PastFirstWindow at h
    rintro (rfl | hlt)
    · rw [height, length_nil] at h
      omega
    · omega
  rw [nextThresholdStateOf, if_neg hlow, calcWantHeight_window h]

/-- The last block of the window before is an ancestor. -/
theorem windowEnd_le (h : PastFirstWindow params node) : (params.stakeValidationHeight : Int) ≤
      params.stakeValidationHeight + confirmationWindow params * windowOf params node - 1 ∧
    params.stakeValidationHeight + confirmationWindow params * windowOf params node - 1 ≤
      height node := by
  have hpos := confirmationWindow_pos params
  have hone := mul_le_mul_of_nonneg_left (pastFirstWindow_iff.1 h) (le_of_lt hpos)
  have hdiv := Int.emod_add_mul_ediv (height node + 1 - params.stakeValidationHeight)
    (confirmationWindow params)
  have hmod := Int.emod_nonneg (height node + 1 - params.stakeValidationHeight) (ne_of_gt hpos)
  unfold windowOf at hone ⊢
  omega

/-- **The state is constant over a window.** -/
theorem nextThresholdStateOf_window {node' : VoteNode} (hs : node <:+ node')
    (h : windowOf params node = windowOf params node') :
    nextThresholdStateOf params version d node = nextThresholdStateOf params version d node' := by
  by_cases hpast : PastFirstWindow params node
  · have hpast' : PastFirstWindow params node' := by
      rw [pastFirstWindow_iff] at hpast ⊢
      omega
    have hend := windowEnd_le hpast
    rw [nextThresholdStateOf_eq hpast, nextThresholdStateOf_eq hpast', ← h,
      ancestor_eq_of_suffix hs (by omega) hend.2]
  · have hpast' : ¬ PastFirstWindow params node' := by
      rw [pastFirstWindow_iff] at hpast ⊢
      omega
    rw [nextThresholdStateOf_of_not hpast, nextThresholdStateOf_of_not hpast']

theorem windowOf_relativeAncestor (h : PastFirstWindow params node) :
    windowOf params (relativeAncestor node (confirmationWindow params)) =
      windowOf params node - 1 := by
  have hpos := confirmationWindow_pos params
  have hsvh := params.one_lt_validation
  unfold PastFirstWindow at h
  rw [windowOf, relativeAncestor, height_ancestor (by omega) (by omega), windowOf,
    show height node - confirmationWindow params + 1 - (params.stakeValidationHeight : Int) =
      height node + 1 - params.stakeValidationHeight + (-1) * confirmationWindow params by ring,
    Int.add_mul_ediv_right _ _ (ne_of_gt hpos)]
  rfl

/-- The window before a node's is that of the node a window below. -/
theorem nextThresholdStateOf_relativeAncestor (h : PastFirstWindow params node) :
    nextThresholdStateOf params version d (relativeAncestor node (confirmationWindow params)) =
      thresholdStateOf params version d (relativeAncestor (ancestor node
        (params.stakeValidationHeight + confirmationWindow params * windowOf params node - 1))
        (confirmationWindow params)) := by
  have hpos := confirmationWindow_pos params
  have hsvh := params.one_lt_validation
  have hend := windowEnd_le h
  have hwin := windowOf_relativeAncestor h
  have hmul : confirmationWindow params * (windowOf params node - 1) =
      confirmationWindow params * windowOf params node - confirmationWindow params := by ring
  conv_rhs => rw [relativeAncestor, height_ancestor (by omega) hend.2,
    ancestor_ancestor (by omega) hend.2]
  by_cases hpast : PastFirstWindow params (relativeAncestor node (confirmationWindow params))
  · have hend' := windowEnd_le hpast
    rw [hwin, hmul] at hend'
    rw [nextThresholdStateOf_eq hpast, hwin, hmul]
    unfold relativeAncestor at hend' ⊢
    unfold PastFirstWindow at h
    rw [height_ancestor (by omega) (by omega)] at hend'
    rw [ancestor_ancestor (by omega) (by omega)]
    congr 2
    omega
  · -- the window before is the first one
    have hone : windowOf params node = 1 := by
      rw [pastFirstWindow_iff] at h hpast
      omega
    rw [nextThresholdStateOf_of_not hpast, thresholdStateOf_low]
    rw [height_ancestor (by rw [hone]; omega) (by omega), hone]
    omega

theorem nextThresholdStateOf_error (h : nextThresholdStateOf params version d node = .error err) :
    d.mask = 0 ∧ err = .invalidMask := by
  by_cases hpast : PastFirstWindow params node
  · rw [nextThresholdStateOf_eq hpast] at h
    exact thresholdStateOf_error h
  · rw [nextThresholdStateOf_of_not hpast] at h
    cases h

/-- **The states of a chain** change as `Follows` says. -/
theorem nextThresholdStateOf_follows (hpast : PastFirstWindow params node)
    (hgrow : MedianTimesGrow node) (h : nextThresholdStateOf params version d node = .ok t') :
    ∃ t, nextThresholdStateOf params version d (relativeAncestor node (confirmationWindow params)) =
      .ok t ∧ Follows t t' := by
  have hend := windowEnd_le hpast
  rw [nextThresholdStateOf_eq hpast] at h
  rw [nextThresholdStateOf_relativeAncestor hpast]
  refine thresholdStateOf_follows (fun b parent hs => ?_) (fun hnil => ?_) h
  · exact hgrow b parent (hs.trans (ancestor_suffix _ _))
  · have hheight := height_ancestor (by omega) hend.2
    rw [hnil, height, length_nil] at hheight
    omega

end Transitions

/-! ## Any queries -/

/-- The queries of states and stake versions, on the blocks of a tree. -/
inductive VotingQuery (deployments : UInt32 → List ConsensusDeployment)
    (T : VoteNode → Prop) : (VotingCaches → VotingCaches) → Prop
  | stake {q : StakeCaches → StakeCaches} : StakeQuery params T q →
      VotingQuery deployments T fun c => { c with stake := q c.stake }
  | nextThresholdState {version : UInt32} {k : Nat} {d : ConsensusDeployment} {node : VoteNode}
      (orders : Orders) : (deployments version)[k]? = some d → (node ≠ [] → T node) →
      VotingQuery deployments T fun c =>
        (nextThresholdState params orders version k d node c).2

section Queries

variable {params : Params} {deployments : UInt32 → List ConsensusDeployment} {T : VoteNode → Prop}
  {version : UInt32} {k : Nat} {d : ConsensusDeployment} {node : VoteNode}

theorem VotingQuery.sound (ht : VoteTree params T) {q : VotingCaches → VotingCaches}
    (hq : VotingQuery params deployments T q) {c : VotingCaches}
    (hc : VotingCachesRight params deployments T c) :
    VotingCachesRight params deployments T (q c) := by
  cases hq with
  | stake hq => exact ⟨hq.sound ht hc.stake, hc.thresholds⟩
  | nextThresholdState orders hd h => exact (nextThresholdState_answers ht hd h orders c hc).2

/-- **The state of a vote is a function of the chain.** After any queries on any branches, the
answer is that of the recursion over windows; it is an error only if the mask of the deployment is
invalid. It is the same for all blocks of a window; in the first window, the rule change is defined;
and from window to window, the states change as `Follows` says. -/
theorem thresholdState_pure (ht : VoteTree params T) (hd : (deployments version)[k]? = some d)
    (h : node ≠ [] → T node) (orders : Orders) {c : VotingCaches}
    (hc : Reached newVotingCaches (VotingQuery params deployments T) c) :
    (nextThresholdState params orders version k d node c).1 =
      nextThresholdStateOf params version d node ∧
    (∀ err, nextThresholdStateOf params version d node = .error err →
      d.mask = 0 ∧ err = .invalidMask) ∧
    (∀ anc, anc <:+ node → windowOf params anc = windowOf params node →
      nextThresholdStateOf params version d anc = nextThresholdStateOf params version d node) ∧
    (¬ PastFirstWindow params node →
      nextThresholdStateOf params version d node = .ok ⟨.defined, invalidChoice⟩) ∧
    (PastFirstWindow params node → MedianTimesGrow node → ∀ t',
      nextThresholdStateOf params version d node = .ok t' →
      ∃ t, nextThresholdStateOf params version d
        (relativeAncestor node (confirmationWindow params)) = .ok t ∧ Follows t t') := by
  have hright := hc.sound newVotingCaches_right fun q hq s hs => hq.sound ht hs
  exact ⟨(nextThresholdState_answers ht hd h orders c hright).1,
    fun _ => nextThresholdStateOf_error, fun _ => nextThresholdStateOf_window,
    nextThresholdStateOf_of_not, fun hpast hgrow _ => nextThresholdStateOf_follows hpast hgrow⟩

end Queries

/-- If all blocks have the same time, this is the past median time. -/
theorem calcPastMedianTime_const {node : VoteNode} {time : Nat} (hne : node ≠ [])
    (h : ∀ b ∈ node, b.timestamp = time) : calcPastMedianTime node = time := by
  unfold calcPastMedianTime
  have hperm := perm_insertionSort (· ≤ ·) ((node.take medianTimeBlocks).map VoteBlock.timestamp)
  generalize ((node.take medianTimeBlocks).map VoteBlock.timestamp).insertionSort (· ≤ ·) =
    timestamps at hperm ⊢
  have hpos : 0 < timestamps.length := by
    rw [hperm.length_eq, length_map, length_take]
    exact Nat.lt_min.2 ⟨by decide, length_pos_of_ne_nil hne⟩
  rw [getD_eq_getElem?_getD, List.getElem?_eq_getElem (Nat.div_lt_self hpos (by decide)),
    Option.getD_some]
  obtain ⟨b, hb, he⟩ := mem_map.1 (hperm.subset (getElem_mem _))
  rw [← he]
  exact h b (mem_of_mem_take hb)

/-! Every block has five votes for the last choice. -/

namespace YesVotes

def block : VoteBlock := ⟨default, 50, 5, 5, List.replicate 5 ⟨5, 5⟩⟩

/-- Abstain, no and yes. -/
def deployment : ConsensusDeployment := ⟨6, [⟨true, false⟩, ⟨false, true⟩, ⟨false, false⟩], 10, 100⟩

/-- A deployment that has expired before its vote could start. -/
def expired : ConsensusDeployment := { deployment with expireTime := 40 }

def deployments (version : UInt32) : List ConsensusDeployment :=
  if version = 5 then [deployment, expired] else []

abbrev chain (n : Nat) : VoteNode := straight (fun _ => block) n

theorem timestamp_chain {n : Nat} {b : VoteBlock} (hb : b ∈ chain n) : b.timestamp = 50 := by
  induction n with
  | zero => cases hb
  | succ n ih =>
    rcases mem_cons.1 hb with rfl | hb
    · rfl
    · exact ih hb

theorem chain_grow (n : Nat) : MedianTimesGrow (chain n) := by
  intro b parent hs hne
  have hparent := (suffix_cons b parent).trans hs
  rw [calcPastMedianTime_const hne fun b' hb' => timestamp_chain (hparent.mem hb'),
    calcPastMedianTime_const (cons_ne_nil _ _) fun b' hb' => timestamp_chain (hs.mem hb')]

theorem tree : VoteTree regNetParams (Straight (fun _ => block) 1104) :=
  straight_tree (by decide) fun _ _ _ => by decide

end YesVotes

open YesVotes in
/-- The choice becomes active, with the choice that was locked in a window before. -/
theorem yesVotes_active :
    (nextThresholdState regNetParams SteadyVotes.orders 5 0 deployment (chain 1104)
      (nextThresholdState regNetParams SteadyVotes.orders 5 1 expired (chain 784)
        newVotingCaches).2).1 = .ok ⟨.active, 2⟩ ∧
    ∃ t, nextThresholdStateOf regNetParams 5 deployment
      (relativeAncestor (chain 1104) (confirmationWindow regNetParams)) = .ok t ∧
      Follows t ⟨.active, 2⟩ := by
  have hd : (deployments 5)[0]? = some deployment := rfl
  have hexpired : (deployments 5)[1]? = some expired := rfl
  have hpure := thresholdState_pure tree hd (fun _ => ⟨1104, by decide, le_rfl, rfl⟩)
    SteadyVotes.orders (.query .start (.nextThresholdState SteadyVotes.orders hexpired
      fun _ => ⟨784, by decide, by decide, rfl⟩))
  have hactive :
      nextThresholdStateOf regNetParams 5 deployment (chain 1104) = .ok ⟨.active, 2⟩ := by
    decide +kernel
  refine ⟨hpure.1.trans hactive, hpure.2.2.2.2 ?_ (chain_grow 1104) _ hactive⟩
  unfold PastFirstWindow height
  rw [length_straight]
  decide

open YesVotes in
/-- A rule change that has expired when its vote could start fails without a vote. -/
theorem expired_failed :
    VoteTree regNetParams (Straight (fun _ => block) 1104) ∧ MedianTimesGrow (chain 464) ∧
    (nextThresholdState regNetParams SteadyVotes.orders 5 1 expired (chain 144)
      newVotingCaches).1 = .ok ⟨.defined, invalidChoice⟩ ∧
    windowOf regNetParams (chain 464) = windowOf regNetParams (chain 144) + 1 ∧
    (nextThresholdState regNetParams SteadyVotes.orders 5 1 expired (chain 464)
      newVotingCaches).1 = .ok ⟨.failed, invalidChoice⟩ := by
  refine ⟨tree, chain_grow 464, ?_, ?_, ?_⟩
  · decide +kernel
  · unfold windowOf height
    rw [length_straight, length_straight]
    decide
  · decide +kernel

end Fnod
