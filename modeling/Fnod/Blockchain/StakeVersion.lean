import Fnod.Chaincfg.Chainhash
import Fnod.Chaincfg.Params
import Fnod.Lib.BlockTree
import Fnod.Lib.Memo
import Fnod.Lib.Tally
import Mathlib.Tactic.Linarith

/-!
# `stakeversion.go`: the stake version of a block

Votes carry a version. The chain is cut into intervals from the stake validation height on, and a
version that most votes of an interval agree on becomes the stake version of the headers after it.
Results are kept in tables, under the hash of the last block of an interval.

A range over a Go map has no order of its own, so the functions take the order as an argument
(`Orders`). The uncached functions end in `Of`.

**Theorem (`stakeVersion_pure`).** Whatever was asked before, on whatever branches, and in whatever
order the maps are ranged over, the functions return what the uncached ones return.
-/

namespace Fnod

open BlockTree List Memo Tally

/-- `VoteVersionTuple`. -/
structure VoteVersion where
  version : UInt32
  bits : UInt16
deriving DecidableEq

/-- The fields of a block node that versions and votes depend on. -/
structure VoteBlock where
  hash : Hash
  timestamp : Nat
  blockVersion : Int
  stakeVersion : UInt32
  votes : List VoteVersion
deriving DecidableEq

/-- A pointer to a block node; nil is the empty list. -/
abbrev VoteNode := List VoteBlock

def VoteNode.hash : VoteNode → Hash
  | [] => default
  | b :: _ => b.hash

/-- `errVoterVersionMajorityNotFound`, `errStakeVersionMajorityNotFound` and an assertion. -/
inductive StakeVersionError
  | voterVersionMajorityNotFound
  | stakeVersionMajorityNotFound
  | assert
deriving DecidableEq

/-- The tables. The key of the first one is a version and a hash. -/
structure StakeCaches where
  isStakeMajorityVersion : UInt32 → Hash → Option Bool
  calcPriorStakeVersion : Hash → Option UInt32
  calcVoterVersionInterval : Hash → Option UInt32
  calcStakeVersion : Hash → Option UInt32

def newStakeCaches : StakeCaches := ⟨fun _ _ => none, fun _ => none, fun _ => none, fun _ => none⟩

/-- The orders in which a call ranges over the counts of headers and votes. -/
structure Orders where
  headers : VoteNode → List (UInt32 × Nat) → List (UInt32 × Nat)
  votes : VoteNode → List (UInt32 × Nat) → List (UInt32 × Nat)
  headers_perm : ∀ node m, (headers node m).Perm m
  votes_perm : ∀ node m, (votes node m).Perm m

/-- `calcWantHeight`: the last height of the interval before. -/
def calcWantHeight (stakeValidationHeight interval height : Int) : Int :=
  let intervalOffset := stakeValidationHeight.tmod interval
  let adjustedHeight := height - intervalOffset - 1
  adjustedHeight - (adjustedHeight + 1).tmod interval + intervalOffset

section Functions

variable (params : Params)

/-- The loop of `isMajorityVersion`, with the blocks still to look at. -/
def countVersions (minVer : Int) (numRequired : Nat) : Nat → Nat → VoteNode → Nat
  | 0, numFound, _ => numFound
  | _ + 1, numFound, [] => numFound
  | n + 1, numFound, b :: parent =>
    if numFound < numRequired then
      countVersions minVer numRequired n
        (if minVer ≤ b.blockVersion then numFound + 1 else numFound) parent
    else numFound

def isMajorityVersion (minVer : Int) (startNode : VoteNode) (numRequired : Nat) : Bool :=
  decide (numRequired ≤
    countVersions minVer numRequired params.blockUpgradeNumToCheck 0 startNode)

def findStakeVersionPriorNode (prevNode : VoteNode) : VoteNode :=
  let svh : Int := params.stakeValidationHeight
  let svi : Int := params.stakeVersionInterval
  let nextHeight := height prevNode + 1
  if nextHeight < svh + svi then []
  else ancestor prevNode (calcWantHeight svh svi nextHeight)

variable (orders : Orders) (node : VoteNode)

/-- The blocks of the interval that ends with a node. -/
def interval : List VoteBlock := node.take params.stakeVersionInterval

/-- What is required of the headers of an interval. -/
def headersRequired : Nat :=
  params.stakeVersionInterval * params.stakeMajorityMultiplier / params.stakeMajorityDivisor

/-- The versions of the votes of an interval. -/
def voteVersions : List UInt32 :=
  (interval params node).flatMap fun b => b.votes.map VoteVersion.version

/-- What is required of the votes of an interval. -/
def votesRequired : Nat :=
  (voteVersions params node).length * params.stakeMajorityMultiplier / params.stakeMajorityDivisor

def isStakeMajorityVersion (minVer : UInt32) (prevNode : VoteNode) :
    StakeCaches → Bool × StakeCaches :=
  match findStakeVersionPriorNode params prevNode with
  | [] => fun c => (decide (minVer ≤ 0), c)
  | b :: parent =>
    memo (fun c => c.isStakeMajorityVersion minVer b.hash)
      (fun r c => { c with isStakeMajorityVersion := fun v h =>
        if v = minVer ∧ h = b.hash then some r else c.isStakeMajorityVersion v h })
      fun c => (decide (headersRequired params ≤
        (interval params (b :: parent)).countP fun b => decide (minVer ≤ b.stakeVersion)), c)

def calcPriorStakeVersion (orders : Orders) (prevNode : VoteNode) :
    StakeCaches → Except StakeVersionError UInt32 × StakeCaches :=
  match findStakeVersionPriorNode params prevNode with
  | [] => fun c => (.ok 0, c)
  | b :: parent =>
    memoOk (fun c => c.calcPriorStakeVersion b.hash)
      (fun r c => { c with calcPriorStakeVersion := fun h =>
        if h = b.hash then some r else c.calcPriorStakeVersion h })
      fun c =>
        let versions := tally ((interval params (b :: parent)).map VoteBlock.stakeVersion)
        match winner (orders.headers (b :: parent) versions) (headersRequired params) with
        | some version => (.ok version, c)
        | none => (.error .stakeVersionMajorityNotFound, c)

def calcVoterVersionInterval (orders : Orders) (prevNode : VoteNode) :
    StakeCaches → Except StakeVersionError UInt32 × StakeCaches :=
  let svh : Int := params.stakeValidationHeight
  let expectedHeight := calcWantHeight svh params.stakeVersionInterval (height prevNode + 1)
  if height prevNode ≠ expectedHeight ∨ expectedHeight < svh then fun c => (.error .assert, c)
  else
    memoOk (fun c => c.calcVoterVersionInterval prevNode.hash)
      (fun r c => { c with calcVoterVersionInterval := fun h =>
        if h = prevNode.hash then some r else c.calcVoterVersionInterval h })
      fun c =>
        let versions := tally (voteVersions params prevNode)
        match winner (orders.votes prevNode versions) (votesRequired params prevNode) with
        | some version => (.ok version, c)
        | none => (.error .voterVersionMajorityNotFound, c)

/-- The loop of `calcVoterVersion`. The node gets lower each time, so its length is fuel enough. -/
def voterVersionLoop : Nat → VoteNode → StakeCaches →
    (UInt32 × VoteNode) × StakeCaches
  | 0, _ => fun c => ((0, []), c)
  | fuel + 1, node =>
    if node ≠ [] ∧ (params.stakeValidationHeight : Int) ≤ height node then
      andThen (calcVoterVersionInterval params orders node) fun
        | .ok version => fun c => ((version, node), c)
        | .error .voterVersionMajorityNotFound =>
          voterVersionLoop fuel (relativeAncestor node params.stakeVersionInterval)
        | .error _ => fun c => ((0, []), c)
    else fun c => ((0, []), c)

def calcVoterVersion (prevNode : VoteNode) : StakeCaches → (UInt32 × VoteNode) × StakeCaches :=
  let node := findStakeVersionPriorNode params prevNode
  voterVersionLoop params orders (node.length + 1) node

/-- The second half of `calcStakeVersion`, for a version and the interval it was found in. -/
def stakeVersionAt (version : UInt32) (node : VoteNode) : StakeCaches → UInt32 × StakeCaches :=
  let startIntervalHeight :=
    calcWantHeight params.stakeValidationHeight params.stakeVersionInterval (height node) + 1
  let startNode := ancestor node startIntervalHeight
  if !isMajorityVersion params 3 startNode params.blockRejectNumRequired then fun c => (0, c)
  else
    andThen (isStakeMajorityVersion params version node) fun
      | true => andThen (calcPriorStakeVersion params orders node) fun
        | .ok priorVersion => fun c => (if version < priorVersion then priorVersion else version, c)
        | .error _ => fun c => (version, c)
      | false => fun c => (version, c)

def calcStakeVersion (orders : Orders) (prevNode : VoteNode) : StakeCaches → UInt32 × StakeCaches :=
  andThen (calcVoterVersion params orders prevNode) fun
    | (version, node) =>
      if version = 0 ∨ node = [] then fun c => (0, c)
      else
        memo (fun c => c.calcStakeVersion node.hash)
          (fun r c => { c with calcStakeVersion := fun h =>
            if h = node.hash then some r else c.calcStakeVersion h })
          (stakeVersionAt params orders version node)

end Functions

/-! ## The uncached functions -/

section Uncached

variable (params : Params)

/-- Enough headers of the interval have the version or a later one. -/
def headersReach (minVer : UInt32) (node : VoteNode) : Bool :=
  decide (headersRequired params ≤
    (interval params node).countP fun b => decide (minVer ≤ b.stakeVersion))

variable (prevNode node : VoteNode)

/-- The version that most headers of the interval have. -/
def headersVersion : Except StakeVersionError UInt32 :=
  match winner (tally ((interval params node).map VoteBlock.stakeVersion))
    (headersRequired params) with
  | some version => .ok version
  | none => .error .stakeVersionMajorityNotFound

/-- The version that most votes of the interval have. -/
def votesVersion : Except StakeVersionError UInt32 :=
  match winner (tally (voteVersions params node)) (votesRequired params node) with
  | some version => .ok version
  | none => .error .voterVersionMajorityNotFound

def isStakeMajorityVersionOf (minVer : UInt32) (prevNode : VoteNode) : Bool :=
  match findStakeVersionPriorNode params prevNode with
  | [] => decide (minVer ≤ 0)
  | b :: parent => headersReach params minVer (b :: parent)

def calcPriorStakeVersionOf : Except StakeVersionError UInt32 :=
  match findStakeVersionPriorNode params prevNode with
  | [] => .ok 0
  | b :: parent => headersVersion params (b :: parent)

/-- The node is the last one of an interval that has votes. -/
def EndsInterval : Prop :=
  let svh : Int := params.stakeValidationHeight
  height node = calcWantHeight svh params.stakeVersionInterval (height node + 1) ∧ svh ≤ height node

instance (node : VoteNode) : Decidable (EndsInterval params node) :=
  inferInstanceAs (Decidable (_ ∧ _))

def calcVoterVersionIntervalOf : Except StakeVersionError UInt32 :=
  if EndsInterval params node then votesVersion params node else .error .assert

def voterVersionLoopOf : Nat → VoteNode → UInt32 × VoteNode
  | 0, _ => (0, [])
  | fuel + 1, node =>
    if node ≠ [] ∧ (params.stakeValidationHeight : Int) ≤ height node then
      match calcVoterVersionIntervalOf params node with
      | .ok version => (version, node)
      | .error .voterVersionMajorityNotFound =>
        voterVersionLoopOf fuel (relativeAncestor node params.stakeVersionInterval)
      | .error _ => (0, [])
    else (0, [])

def calcVoterVersionOf : UInt32 × VoteNode :=
  let node := findStakeVersionPriorNode params prevNode
  voterVersionLoopOf params (node.length + 1) node

def stakeVersionAtOf (version : UInt32) (node : VoteNode) : UInt32 :=
  let startNode := ancestor node
    (calcWantHeight params.stakeValidationHeight params.stakeVersionInterval (height node) + 1)
  if !isMajorityVersion params 3 startNode params.blockRejectNumRequired then 0
  else if isStakeMajorityVersionOf params version node then
    match calcPriorStakeVersionOf params node with
    | .ok priorVersion => if version < priorVersion then priorVersion else version
    | .error _ => version
  else version

def calcStakeVersionOf : UInt32 :=
  match calcVoterVersionOf params prevNode with
  | (version, node) =>
    if version = 0 ∨ node = [] then 0 else stakeVersionAtOf params version node

end Uncached

/-! ## Intervals -/

/-- The last height of the interval before, from the stake validation height on. -/
theorem calcWantHeight_eq {svh w h : Int} (hw : 0 < w) (hs : 0 ≤ svh) (hh : svh ≤ h) :
    calcWantHeight svh w h = h - 1 - (h - svh) % w := by
  have hoff : svh.tmod w = svh % w := Int.tmod_eq_emod_of_nonneg hs
  have hle : svh % w ≤ svh := by
    have hdiv := Int.emod_add_mul_ediv svh w
    have hnonneg := mul_nonneg (le_of_lt hw) (Int.ediv_nonneg hs (le_of_lt hw))
    omega
  have hmod : (h - svh % w) % w = (h - svh) % w := by
    rw [Int.sub_emod, Int.emod_emod_of_dvd _ (Int.dvd_refl w), ← Int.sub_emod]
  unfold calcWantHeight
  simp only [hoff]
  rw [show h - svh % w - 1 + 1 = h - svh % w by omega, Int.tmod_eq_emod_of_nonneg (by omega), hmod]
  omega

variable {params : Params} {T : VoteNode → Prop} {node : VoteNode}

section Tree

/-- A node that ends an interval has a whole interval above the stake validation height. -/
theorem EndsInterval.le_height (h : EndsInterval params node) :
    (params.stakeValidationHeight : Int) + params.stakeVersionInterval ≤ height node + 1 := by
  have hw : (0 : Int) < params.stakeVersionInterval := by
    exact_mod_cast params.stakeVersionInterval_pos
  have heq := h.1
  rw [calcWantHeight_eq hw (by omega) (by have := h.2; omega)] at heq
  have hdvd : (params.stakeVersionInterval : Int) ∣
      height node + 1 - params.stakeValidationHeight :=
    Int.dvd_of_emod_eq_zero (by omega)
  have := Int.le_of_dvd (by have := h.2; omega) hdvd
  omega

/-- A tree of blocks. Their hashes differ, and header sanity has made sure that they have a majority
of votes once there are votes at all. -/
structure VoteTree (params : Params) (T : VoteNode → Prop) : Prop where
  closed : ∀ {b parent}, T (b :: parent) → parent ≠ [] → T parent
  hash_inj : ∀ {node node'}, T node → T node' → node.hash = node'.hash → node = node'
  voted : ∀ {b parent}, T (b :: parent) →
    (params.stakeValidationHeight : Int) ≤ height (b :: parent) →
    params.ticketsPerBlock / 2 + 1 ≤ b.votes.length

theorem VoteTree.of_suffix (ht : VoteTree params T) {anc : VoteNode} (h : T node)
    (hs : anc <:+ node) (hne : anc ≠ []) : T anc :=
  BlockTree.of_suffix (fun _ _ => ht.closed) h hs hne

theorem le_length_flatMap {α β : Type} {f : α → List β} {l : List α} {m : Nat}
    (h : ∀ a ∈ l, m ≤ (f a).length) : m * l.length ≤ (l.flatMap f).length := by
  induction l with
  | nil => simp
  | cons a l ih =>
    rw [flatMap_cons, length_append, length_cons, Nat.mul_succ]
    have hl := ih (forall_mem_cons.1 h).2
    have ha := h a mem_cons_self
    omega

/-- An interval has a majority of votes for each of its blocks. -/
theorem VoteTree.le_length_voteVersions (ht : VoteTree params T) (h : T node)
    (hend : EndsInterval params node) :
    (params.ticketsPerBlock / 2 + 1) * params.stakeVersionInterval ≤
      (voteVersions params node).length := by
  have hheight := hend.le_height
  have hlen : (interval params node).length = params.stakeVersionInterval := by
    rw [interval, length_take, Nat.min_eq_left]
    unfold height at hheight
    omega
  rw [← hlen, voteVersions]
  refine le_length_flatMap fun b hb => ?_
  obtain ⟨parent, hs, hlt⟩ := mem_take hb
  rw [length_map]
  exact ht.voted (ht.of_suffix h hs (by simp)) (by omega)

theorem Params.stakeMajorityDivisor_pos (params : Params) : 0 < params.stakeMajorityDivisor := by
  rcases Nat.eq_zero_or_pos params.stakeMajorityDivisor with h | h
  · have := params.headers_majority
    rw [h, Nat.div_zero] at this
    omega
  · exact h

/-- **What is required of the votes** of an interval is more than half of them. -/
theorem VoteTree.votes_majority (ht : VoteTree params T) (h : T node)
    (hend : EndsInterval params node) :
    (voteVersions params node).length < 2 * votesRequired params node := by
  have hle := ht.le_length_voteVersions h hend
  have hpar := params.votes_majority
  have hd := params.stakeMajorityDivisor_pos
  unfold votesRequired
  generalize (voteVersions params node).length = t at *
  generalize (params.ticketsPerBlock / 2 + 1) * params.stakeVersionInterval = k at *
  generalize params.stakeMajorityMultiplier = m at *
  generalize params.stakeMajorityDivisor = d at *
  have hq := Nat.lt_mul_div_succ (t * m) hd
  have hmd : d ≤ 2 * m := by
    by_contra hlt
    have : 2 * m * k ≤ d * k := Nat.mul_le_mul_right k (by omega)
    omega
  -- both sides of the bound on the parameters grow with the number of votes
  obtain ⟨e, he⟩ := Nat.exists_eq_add_of_le hmd
  have hk : 2 * d < e * k := by nlinarith
  have ht' : 2 * d < e * t := lt_of_lt_of_le hk (Nat.mul_le_mul_left e hle)
  have hdt : d * t < d * (2 * (t * m / d)) := by nlinarith
  exact Nat.lt_of_mul_lt_mul_left hdt

/-- What is required of the headers of an interval is more than half of them. -/
theorem headers_majority (params : Params) (node : VoteNode) :
    ((interval params node).map VoteBlock.stakeVersion).length < 2 * headersRequired params := by
  refine lt_of_le_of_lt ?_ params.headers_majority
  rw [length_map, interval, length_take]
  exact min_le_left _ _

end Tree

/-! ## The tables are sound -/

/-- Every entry for a block of the tree is what the uncached functions give. -/
structure StakeCachesRight (params : Params) (T : VoteNode → Prop) (c : StakeCaches) : Prop where
  majority : ∀ {node v r}, T node → c.isStakeMajorityVersion v node.hash = some r →
    r = headersReach params v node
  prior : ∀ {node r}, T node → c.calcPriorStakeVersion node.hash = some r →
    .ok r = headersVersion params node
  voter : ∀ {node r}, T node → EndsInterval params node →
    c.calcVoterVersionInterval node.hash = some r → .ok r = votesVersion params node
  stake : ∀ {node version r}, T node → calcVoterVersionIntervalOf params node = .ok version →
    c.calcStakeVersion node.hash = some r → r = stakeVersionAtOf params version node

section Sound

variable {prevNode : VoteNode} {orders : Orders}

theorem newStakeCaches_right : StakeCachesRight params T newStakeCaches := by
  constructor <;> simp [newStakeCaches]

theorem VoteTree.priorNode (ht : VoteTree params T) (h : T prevNode)
    (hne : findStakeVersionPriorNode params prevNode ≠ []) :
    T (findStakeVersionPriorNode params prevNode) := by
  unfold findStakeVersionPriorNode at hne ⊢
  dsimp only at hne ⊢
  split_ifs at hne ⊢ with hlow
  · exact absurd rfl hne
  · exact ht.of_suffix h (ancestor_suffix _ _) hne

/-- The assertion fails for other nodes. -/
theorem assert_iff :
    (height node ≠ calcWantHeight params.stakeValidationHeight params.stakeVersionInterval
        (height node + 1) ∨
      calcWantHeight params.stakeValidationHeight params.stakeVersionInterval (height node + 1) <
        params.stakeValidationHeight) ↔ ¬ EndsInterval params node := by
  unfold EndsInterval
  dsimp only
  constructor
  · rintro (h | h) ⟨he, hle⟩
    · exact h he
    · omega
  · intro h
    by_cases he : height node = calcWantHeight params.stakeValidationHeight
        params.stakeVersionInterval (height node + 1)
    · exact .inr (by by_contra hlt; exact h ⟨he, by omega⟩)
    · exact .inl he

section

variable (ht : VoteTree params T)

include ht

theorem isStakeMajorityVersion_answers (h : T prevNode) (minVer : UInt32) :
    Answers (StakeCachesRight params T) (isStakeMajorityVersion params minVer prevNode)
      (isStakeMajorityVersionOf params minVer prevNode) := by
  have hprior := ht.priorNode h
  unfold isStakeMajorityVersion isStakeMajorityVersionOf
  cases hnode : findStakeVersionPriorNode params prevNode with
  | nil => exact .pure _
  | cons b parent =>
    rw [hnode] at hprior
    have hb := hprior (by simp)
    refine .memo (fun c hc r hr => hc.majority hb hr) (fun c hc => ?_) (.pure _)
    refine ⟨fun {node v r} hT hr => ?_, hc.prior, hc.voter, hc.stake⟩
    dsimp only at hr
    split_ifs at hr with hkey
    · rw [← Option.some.inj hr, hkey.1, ht.hash_inj hT hb hkey.2]
    · exact hc.majority hT hr

theorem calcPriorStakeVersion_answers (h : T prevNode) (orders : Orders) :
    Answers (StakeCachesRight params T) (calcPriorStakeVersion params orders prevNode)
      (calcPriorStakeVersionOf params prevNode) := by
  have hprior := ht.priorNode h
  unfold calcPriorStakeVersion calcPriorStakeVersionOf
  cases hnode : findStakeVersionPriorNode params prevNode with
  | nil => exact .pure _
  | cons b parent =>
    rw [hnode] at hprior
    have hb := hprior (by simp)
    refine .memoOk (fun c hc r hr => hc.prior hb hr) (fun c hc r hr => ?_) ?_
    · refine ⟨hc.majority, fun {node r'} hT hr' => ?_, hc.voter, hc.stake⟩
      dsimp only at hr'
      split_ifs at hr' with hkey
      · rw [← Option.some.inj hr', ht.hash_inj hT hb hkey, ← hr]
      · exact hc.prior hT hr'
    · -- the order of the range does not matter
      unfold headersVersion
      dsimp only
      rw [winner_perm (headers_majority params _) (orders.headers_perm _ _)]
      cases winner (tally ((interval params (b :: parent)).map VoteBlock.stakeVersion))
        (headersRequired params) with
      | none => exact .pure _
      | some version => exact .pure _

theorem calcVoterVersionInterval_answers (h : T node) (orders : Orders) :
    Answers (StakeCachesRight params T) (calcVoterVersionInterval params orders node)
      (calcVoterVersionIntervalOf params node) := by
  unfold calcVoterVersionInterval calcVoterVersionIntervalOf
  dsimp only
  by_cases hend : EndsInterval params node
  · rw [if_pos hend, if_neg fun h => assert_iff.1 h hend]
    refine .memoOk (fun c hc r hr => hc.voter h hend hr) (fun c hc r hr => ?_) ?_
    · refine ⟨hc.majority, hc.prior, fun {node' r'} hT hend' hr' => ?_, hc.stake⟩
      dsimp only at hr'
      split_ifs at hr' with hkey
      · rw [← Option.some.inj hr', ht.hash_inj hT h hkey, ← hr]
      · exact hc.voter hT hend' hr'
    · unfold votesVersion
      rw [winner_perm (ht.votes_majority h hend) (orders.votes_perm _ _)]
      cases winner (tally (voteVersions params node)) (votesRequired params node) with
      | none => exact .pure _
      | some version => exact .pure _
  · rw [if_neg hend, if_pos (assert_iff.2 hend)]
    exact .pure _

theorem voterVersionLoop_answers (orders : Orders) (fuel : Nat) (h : node ≠ [] → T node) :
    Answers (StakeCachesRight params T) (voterVersionLoop params orders fuel node)
      (voterVersionLoopOf params fuel node) := by
  induction fuel generalizing node with
  | zero => exact .pure _
  | succ fuel ih =>
    unfold voterVersionLoop voterVersionLoopOf
    split_ifs with hnode
    · refine (calcVoterVersionInterval_answers ht (h hnode.1) orders).andThen ?_
      rcases calcVoterVersionIntervalOf params node with err | version
      · cases err with
        | voterVersionMajorityNotFound =>
          exact ih fun hne => ht.of_suffix (h hnode.1) (ancestor_suffix _ _) hne
        | stakeVersionMajorityNotFound => exact .pure _
        | assert => exact .pure _
      · exact .pure _
    · exact .pure _

/-- A version that the loop finds is that of the interval of its node. -/
theorem voterVersionLoopOf_spec {fuel : Nat} {version : UInt32} {found : VoteNode}
    (h : node ≠ [] → T node) (hloop : voterVersionLoopOf params fuel node = (version, found))
    (hne : found ≠ []) : T found ∧ calcVoterVersionIntervalOf params found = .ok version := by
  induction fuel generalizing node with
  | zero =>
    cases hloop
    exact absurd rfl hne
  | succ fuel ih =>
    unfold voterVersionLoopOf at hloop
    split_ifs at hloop with hnode
    · rcases hint : calcVoterVersionIntervalOf params node with err | v
      · rw [hint] at hloop
        cases err with
        | voterVersionMajorityNotFound =>
          exact ih (fun hne => ht.of_suffix (h hnode.1) (ancestor_suffix _ _) hne) hloop
        | stakeVersionMajorityNotFound =>
          cases hloop
          exact absurd rfl hne
        | assert =>
          cases hloop
          exact absurd rfl hne
      · rw [hint] at hloop
        cases hloop
        exact ⟨h hnode.1, hint⟩
    · cases hloop
      exact absurd rfl hne

theorem calcVoterVersion_answers (h : T prevNode) (orders : Orders) :
    Answers (StakeCachesRight params T) (calcVoterVersion params orders prevNode)
      (calcVoterVersionOf params prevNode) :=
  voterVersionLoop_answers ht orders _ (ht.priorNode h)

theorem stakeVersionAt_answers (h : T node) (orders : Orders) (version : UInt32) :
    Answers (StakeCachesRight params T) (stakeVersionAt params orders version node)
      (stakeVersionAtOf params version node) := by
  unfold stakeVersionAt stakeVersionAtOf
  dsimp only
  split_ifs with hv3 hmaj
  · exact .pure _
  · have hanswer := isStakeMajorityVersion_answers ht h version
    rw [hmaj] at hanswer
    refine hanswer.andThen ((calcPriorStakeVersion_answers ht h orders).andThen ?_)
    rcases calcPriorStakeVersionOf params node with err | prior
    · exact .pure _
    · exact .pure _
  · have hanswer := isStakeMajorityVersion_answers ht h version
    rw [Bool.not_eq_true] at hmaj
    rw [hmaj] at hanswer
    exact hanswer.andThen (.pure _)

theorem calcStakeVersion_answers (h : T prevNode) (orders : Orders) :
    Answers (StakeCachesRight params T) (calcStakeVersion params orders prevNode)
      (calcStakeVersionOf params prevNode) := by
  refine (calcVoterVersion_answers ht h orders).andThen ?_
  unfold calcStakeVersionOf
  rcases hvoter : calcVoterVersionOf params prevNode with ⟨version, node⟩
  dsimp only
  split_ifs with hzero
  · exact .pure _
  · -- the version is that of the node, so the entry depends on the node only
    obtain ⟨hT, hint⟩ := voterVersionLoopOf_spec ht (ht.priorNode h) hvoter fun he =>
      hzero (.inr he)
    refine .memo (fun c hc r hr => hc.stake hT hint hr) (fun c hc => ?_)
      (stakeVersionAt_answers ht hT orders version)
    refine ⟨hc.majority, hc.prior, hc.voter, fun {node' version' r} hT' hint' hr => ?_⟩
    dsimp only at hr
    split_ifs at hr with hkey
    · obtain rfl := ht.hash_inj hT' hT hkey
      rw [← Option.some.inj hr]
      cases hint.symm.trans hint'
      rfl
    · exact hc.stake hT' hint' hr

end

end Sound

/-! ## Any queries -/

/-- The queries of stake versions, on the blocks of a tree. -/
inductive StakeQuery (params : Params) (T : VoteNode → Prop) : (StakeCaches → StakeCaches) → Prop
  | isStakeMajorityVersion {node : VoteNode} (minVer : UInt32) : T node →
      StakeQuery params T fun c => (isStakeMajorityVersion params minVer node c).2
  | calcPriorStakeVersion {node : VoteNode} (orders : Orders) : T node →
      StakeQuery params T fun c => (calcPriorStakeVersion params orders node c).2
  | calcVoterVersionInterval {node : VoteNode} (orders : Orders) : T node →
      StakeQuery params T fun c => (calcVoterVersionInterval params orders node c).2
  | calcVoterVersion {node : VoteNode} (orders : Orders) : T node →
      StakeQuery params T fun c => (calcVoterVersion params orders node c).2
  | calcStakeVersion {node : VoteNode} (orders : Orders) : T node →
      StakeQuery params T fun c => (calcStakeVersion params orders node c).2

section Queries

theorem StakeQuery.sound (ht : VoteTree params T) {q : StakeCaches → StakeCaches}
    (hq : StakeQuery params T q) {c : StakeCaches} (hc : StakeCachesRight params T c) :
    StakeCachesRight params T (q c) := by
  cases hq with
  | isStakeMajorityVersion minVer h => exact (isStakeMajorityVersion_answers ht h minVer c hc).2
  | calcPriorStakeVersion orders h => exact (calcPriorStakeVersion_answers ht h orders c hc).2
  | calcVoterVersionInterval orders h => exact (calcVoterVersionInterval_answers ht h orders c hc).2
  | calcVoterVersion orders h => exact (calcVoterVersion_answers ht h orders c hc).2
  | calcStakeVersion orders h => exact (calcStakeVersion_answers ht h orders c hc).2

/-- **Stake versions are a function of the ancestors.** After any queries on any branches, and for
any order of the ranges, the answers are those of the uncached functions. At most one version has
the required share of the votes of an interval. -/
theorem stakeVersion_pure (ht : VoteTree params T) (h : T node) (orders : Orders) {c : StakeCaches}
    (hc : Reached newStakeCaches (StakeQuery params T) c) (minVer : UInt32) :
    (isStakeMajorityVersion params minVer node c).1 = isStakeMajorityVersionOf params minVer node ∧
    (calcPriorStakeVersion params orders node c).1 = calcPriorStakeVersionOf params node ∧
    (calcVoterVersion params orders node c).1 = calcVoterVersionOf params node ∧
    (calcStakeVersion params orders node c).1 = calcStakeVersionOf params node ∧
    (EndsInterval params node → ∀ v v',
      votesRequired params node ≤ (voteVersions params node).count v →
      votesRequired params node ≤ (voteVersions params node).count v' → v = v') := by
  have hright := hc.sound newStakeCaches_right fun q hq s hs => hq.sound ht hs
  exact ⟨(isStakeMajorityVersion_answers ht h minVer c hright).1,
    (calcPriorStakeVersion_answers ht h orders c hright).1,
    (calcVoterVersion_answers ht h orders c hright).1,
    (calcStakeVersion_answers ht h orders c hright).1,
    fun hend v v' => majority_unique (ht.votes_majority h hend)⟩

end Queries

/-! ## Straight chains -/

/-- The chain of a number of blocks; the hash of a block is its height. -/
def straight (f : Nat → VoteBlock) : Nat → VoteNode
  | 0 => []
  | n + 1 => { f n with hash := Hash.ofNat n } :: straight f n

/-- The nodes of a straight chain. -/
def Straight (f : Nat → VoteBlock) (length : Nat) (node : VoteNode) : Prop :=
  ∃ n, 0 < n ∧ n ≤ length ∧ node = straight f n

section Straight

variable {f : Nat → VoteBlock} {length : Nat}

theorem length_straight (n : Nat) : (straight f n).length = n := by
  induction n with
  | zero => rfl
  | succ n ih => rw [straight, length_cons, ih]

theorem straight_tree (hlength : length < 256 ^ 32)
    (hvotes : ∀ n, params.stakeValidationHeight ≤ n → n < length →
      params.ticketsPerBlock / 2 + 1 ≤ (f n).votes.length) :
    VoteTree params (Straight f length) where
  closed := by
    rintro b parent ⟨n, hpos, hle, he⟩ hne
    obtain ⟨n, rfl⟩ : ∃ k, n = k + 1 := ⟨n - 1, by omega⟩
    cases he
    refine ⟨n, pos_of_ne_zero ?_, by omega, rfl⟩
    rintro rfl
    exact hne rfl
  hash_inj := by
    rintro node node' ⟨n, hpos, hle, rfl⟩ ⟨n', hpos', hle', rfl⟩ he
    obtain ⟨n, rfl⟩ : ∃ k, n = k + 1 := ⟨n - 1, by omega⟩
    obtain ⟨n', rfl⟩ : ∃ k, n' = k + 1 := ⟨n' - 1, by omega⟩
    have hbytes : Bytes.putBE hashSize n = Bytes.putBE hashSize n' := congrArg Hash.bytes he
    have hn : n = n' := Bytes.putLE_injective (show n < 256 ^ hashSize by
      have : (256 : Nat) ^ hashSize = 256 ^ 32 := rfl
      omega) (show n' < 256 ^ hashSize by
      have : (256 : Nat) ^ hashSize = 256 ^ 32 := rfl
      omega) (reverse_injective hbytes)
    rw [hn]
  voted := by
    rintro b parent ⟨n, hpos, hle, he⟩ hheight
    obtain ⟨n, rfl⟩ : ∃ k, n = k + 1 := ⟨n - 1, by omega⟩
    cases he
    refine hvotes n ?_ (by omega)
    rw [height, length_cons, length_straight] at hheight
    omega

end Straight

/-! Every block of the chain has three votes of version 5. -/

namespace SteadyVotes

def block : VoteBlock := ⟨default, 0, 3, 0, List.replicate 3 ⟨5, 1⟩⟩

/-- Maps are ranged over from one end or the other. -/
def orders : Orders where
  headers _ m := m.reverse
  votes _ m := m
  headers_perm _ m := m.reverse_perm
  votes_perm _ _ := .refl _

theorem tree : VoteTree regNetParams (Straight (fun _ => block) 300) :=
  straight_tree (by decide) fun _ _ _ => by decide

end SteadyVotes

open SteadyVotes in
/-- The stake version of the next block is 5, whatever was asked before. -/
theorem steadyVotes_version : (calcStakeVersion regNetParams orders (straight (fun _ => block) 300)
      (calcPriorStakeVersion regNetParams orders (straight (fun _ => block) 290)
        newStakeCaches).2).1 = 5 ∧
    EndsInterval regNetParams (straight (fun _ => block) 256) := by
  have hnode : Straight (fun _ => block) 300 (straight (fun _ => block) 300) :=
    ⟨300, by decide, le_rfl, rfl⟩
  have hother : Straight (fun _ => block) 300 (straight (fun _ => block) 290) :=
    ⟨290, by decide, by decide, rfl⟩
  have hpure := stakeVersion_pure tree hnode orders
    (.query .start (.calcPriorStakeVersion orders hother)) 5
  refine ⟨hpure.2.2.2.1.trans ?_, ?_⟩
  · decide +kernel
  · decide +kernel

end Fnod
