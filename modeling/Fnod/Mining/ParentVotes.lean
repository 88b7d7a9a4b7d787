import Fnod.Chaincfg.Params
import Fnod.Lib.Ranked
import Fnod.Mempool.Votes

/-!
# `mining.go`: the blocks that can be built on

`SortParentsByVotes` takes the blocks at the height of the tip and returns those with enough votes,
the ones with most votes first. When the current tip has as many votes as the first block it should
change places with it, so that no reorganization is forced without need.

**Theorem (`sortParentsByVotes_iff`).** Whatever the unstable sort does, exactly the candidates with
a majority of votes are returned, each once and ranked by their votes, with the tip first unless
another candidate has more votes, exactly if the votes decide it (`Decided`).

Two things keep that from being so. The number of votes is kept in 16 bits. And the votes of the tip
are not counted: `VotesForBlocks` returns one list for each hash, so for the one hash of the tip the
code compares with `1`. What the code does is to rank the candidates by their `standing`, and every
list that is so ranked may be returned (`sortParentsByVotes_ranks`, `exists_sortParentsByVotes_eq`).
-/

namespace Fnod

open List Ranked

structure BlockWithNumVotes where
  hash : Hash
  /-- In 16 bits. -/
  numVotes : Nat

/-- The votes that a block must have. -/
def minVotesRequired (params : Params) : Nat := params.ticketsPerBlock / 2 + 1

/-- The blocks that have enough votes. -/
def filterParents (params : Params) (mp : TxPool) (blocks : List Hash) : List BlockWithNumVotes :=
  (blocks.zip (mp.votesForBlocks blocks)).filterMap fun (block, votes) =>
    let numVotes := votes.length % 2 ^ 16
    if numVotes ≥ minVotesRequired params then some ⟨block, numVotes⟩ else none

/-- The sorted blocks, with the current top block in the first place if that has as many votes. -/
def keepTopBlock (mp : TxPool) (currentTopBlock : Hash) (filtered : List BlockWithNumVotes) :
    List Hash :=
  let sortedUsefulBlocks := filtered.map (·.hash)
  -- the number of lists, not that of votes
  let numTopBlockVotes := (mp.votesForBlocks [currentTopBlock]).length % 2 ^ 16
  match filtered with
  | [] => []
  | first :: _ =>
    if first.numVotes = numTopBlockVotes ∧ first.hash ≠ currentTopBlock then
      let pos := (filtered.findIdx? (·.hash = currentTopBlock)).getD 0
      if pos ≠ 0 then swapFirst sortedUsefulBlocks pos else sortedUsefulBlocks
    else sortedUsefulBlocks

/-- `SortParentsByVotes`, with the sort that is used. -/
def sortParentsByVotes (sort : UnstableSort BlockWithNumVotes.numVotes) (params : Params)
    (mp : TxPool) (currentTopBlock : Hash) (blocks : List Hash) : List Hash :=
  let filtered := filterParents params mp blocks
  if blocks.length = 0 ∨ filtered.length = 0 then []
  else keepTopBlock mp currentTopBlock (sort.run filtered)

/-! ## What the blocks are ranked by -/

/-- The votes for a block. -/
def TxPool.votesFor (mp : TxPool) (block : Hash) : Nat := (mp.listed block).length

/-- The votes as the code counts them. -/
def TxPool.numVotes (mp : TxPool) (block : Hash) : Nat := mp.votesFor block % 2 ^ 16

variable {params : Params} {mp : TxPool} {top b : Hash} {blocks l : List Hash}

/-- The candidates that the code keeps. -/
def eligible (params : Params) (mp : TxPool) (blocks : List Hash) : List Hash :=
  blocks.filter fun b => minVotesRequired params ≤ mp.numVotes b

/-- A block with its votes. -/
def counted (mp : TxPool) (block : Hash) : BlockWithNumVotes := ⟨block, mp.numVotes block⟩

/-- What the code ranks a block by. The top block has an advantage if no candidate has more than one
vote. -/
def standing (mp : TxPool) (top : Hash) (blocks : List Hash) : Hash → Nat :=
  if ∀ b ∈ blocks, mp.numVotes b ≤ 1 then favour mp.numVotes top else mp.numVotes

theorem mem_eligible :
    b ∈ eligible params mp blocks ↔ b ∈ blocks ∧ minVotesRequired params ≤ mp.numVotes b := by
  simp [eligible]

theorem numVotes_le_of_standing_le {a : Hash}
    (h : standing mp top blocks a ≤ standing mp top blocks b) : mp.numVotes a ≤ mp.numVotes b := by
  unfold standing at h
  split_ifs at h
  · exact key_le_of_favour_le h
  · exact h

theorem filterParents_eq :
    filterParents params mp blocks = (eligible params mp blocks).map (counted mp) := by
  unfold filterParents eligible TxPool.votesForBlocks
  induction blocks with
  | nil => rfl
  | cons b blocks ih =>
    rw [map_cons, zip_cons_cons, filterMap_cons, filter_cons, ih]
    by_cases hb : minVotesRequired params ≤ mp.numVotes b
    · rw [if_pos (decide_eq_true hb)]
      simp only [ge_iff_le, if_pos (show minVotesRequired params ≤
        ((mp.votes b).getD []).length % 2 ^ 16 from hb), map_cons]
      rfl
    · rw [if_neg (by simpa using hb)]
      simp only [ge_iff_le, if_neg (show ¬ minVotesRequired params ≤
        ((mp.votes b).getD []).length % 2 ^ 16 from hb)]

/-! ## The top block -/

/-- The first block has one vote and is not the top block, which has enough votes. -/
def Contested (mp : TxPool) (top : Hash) (l : List Hash) : Prop :=
  ∃ b rest, l = b :: rest ∧ mp.numVotes b = 1 ∧ b ≠ top ∧ top ∈ rest

theorem keepTopBlock_cons {rest : List Hash} : keepTopBlock mp top ((b :: rest).map (counted mp)) =
      if mp.numVotes b = 1 ∧ b ≠ top then
        let pos := ((b :: rest).findIdx? (· = top)).getD 0
        if pos ≠ 0 then swapFirst (b :: rest) pos else b :: rest
      else b :: rest := by
  have hhash : ((b :: rest).map (counted mp)).map (·.hash) = b :: rest := by
    rw [map_map]
    exact map_id _
  have hpos : ((b :: rest).map (counted mp)).findIdx? (·.hash = top) =
      (b :: rest).findIdx? (· = top) := by
    rw [List.findIdx?_map]
    rfl
  unfold keepTopBlock
  rw [hhash, hpos]
  rfl

theorem keepTopBlock_of_not_contested (h : ¬ Contested mp top l) :
    keepTopBlock mp top (l.map (counted mp)) = l := by
  cases l with
  | nil => rfl
  | cons b rest =>
    rw [keepTopBlock_cons]
    by_cases hfirst : mp.numVotes b = 1 ∧ b ≠ top
    · obtain ⟨hone, hne⟩ := hfirst
      have htop : top ∉ b :: rest := fun hmem =>
        h ⟨b, rest, rfl, hone, hne, (mem_cons.1 hmem).resolve_left (Ne.symm hne)⟩
      have hnone : (b :: rest).findIdx? (· = top) = none := by
        rw [List.findIdx?_eq_none_iff]
        intro x hx
        exact decide_eq_false (ne_of_mem_of_not_mem hx htop)
      rw [if_pos ⟨hone, hne⟩, hnone]
      rfl
    · rw [if_neg hfirst]

theorem keepTopBlock_of_contested (h : Contested mp top l) :
    ∃ rest, keepTopBlock mp top (l.map (counted mp)) = top :: rest ∧ (top :: rest).Perm l := by
  obtain ⟨b, rest, rfl, hone, hne, hmem⟩ := h
  obtain ⟨k, hk⟩ : ∃ k, rest.findIdx? (· = top) = some k := by
    rw [← Option.isSome_iff_exists, List.findIdx?_isSome, any_eq_true]
    exact ⟨top, hmem, decide_eq_true rfl⟩
  have hget : rest[k]? = some top := by
    obtain ⟨hlt, hp, -⟩ := List.findIdx?_eq_some_iff_getElem.1 hk
    rw [List.getElem?_eq_getElem hlt, of_decide_eq_true hp]
  have hpos : (b :: rest).findIdx? (· = top) = some (k + 1) := by
    rw [List.findIdx?_cons, decide_eq_false hne, hk]
    rfl
  refine ⟨rest.set k b, ?_, perm_set hget⟩
  rw [keepTopBlock_cons, if_pos ⟨hone, hne⟩, hpos]
  exact swapFirst_cons_succ hget

/-! ## All that may be returned -/

/-- The sort returns candidates with their votes. -/
theorem exists_run_eq_map (sort : UnstableSort BlockWithNumVotes.numVotes) :
    ∃ l, sort.run (filterParents params mp blocks) = l.map (counted mp) ∧
      l.Perm (eligible params mp blocks) ∧ Ranks mp.numVotes l := by
  have hperm := sort.perm (filterParents params mp blocks)
  have hranks := sort.ranks (filterParents params mp blocks)
  rw [filterParents_eq] at hperm hranks ⊢
  generalize sort.run ((eligible params mp blocks).map (counted mp)) = run at hperm hranks
  have hrun : run = (run.map (·.hash)).map (counted mp) := by
    rw [map_map]
    refine ((map_congr_left fun x hx => ?_).trans (map_id run)).symm
    obtain ⟨b, -, rfl⟩ := mem_map.1 (hperm.mem_iff.1 hx)
    rfl
  refine ⟨run.map (·.hash), hrun, ?_, ?_⟩
  · have h := hperm.map (·.hash)
    rwa [map_map, show (·.hash) ∘ counted mp = id from rfl, map_id] at h
  · rw [hrun] at hranks
    exact pairwise_map.1 hranks

theorem sortParentsByVotes_eq {sort : UnstableSort BlockWithNumVotes.numVotes}
    (hrun : sort.run (filterParents params mp blocks) = l.map (counted mp)) :
    sortParentsByVotes sort params mp top blocks = keepTopBlock mp top (l.map (counted mp)) := by
  unfold sortParentsByVotes
  dsimp only
  split_ifs with hempty
  · have hnil : filterParents params mp blocks = [] := by
      rcases hempty with h | h
      · rw [length_eq_zero_iff.1 h]
        rfl
      · exact length_eq_zero_iff.1 h
    have hperm := sort.perm (filterParents params mp blocks)
    rw [hnil] at hperm hrun
    rw [← hrun, hperm.eq_nil]
    rfl
  · rw [hrun]

/-- All candidates have at most one vote if the first has one. -/
theorem numVotes_le_one (hperm : (b :: l).Perm (eligible params mp blocks))
    (hranks : Ranks mp.numVotes (b :: l)) (hone : mp.numVotes b = 1) :
    ∀ c ∈ blocks, mp.numVotes c ≤ 1 := by
  intro c hc
  by_cases helig : minVotesRequired params ≤ mp.numVotes c
  · rcases mem_cons.1 (hperm.mem_iff.2 (mem_eligible.2 ⟨hc, helig⟩)) with rfl | hmem
    · exact hone.le
    · exact hone ▸ (pairwise_cons.1 hranks).1 c hmem
  · have hb := (mem_eligible.1 (hperm.mem_iff.1 (mem_cons_self ..))).2
    omega

/-- What is returned is ranked by standing. -/
theorem sortParentsByVotes_ranks (hnodup : (eligible params mp blocks).Nodup)
    (sort : UnstableSort BlockWithNumVotes.numVotes) :
    (sortParentsByVotes sort params mp top blocks).Perm (eligible params mp blocks) ∧
      Ranks (standing mp top blocks) (sortParentsByVotes sort params mp top blocks) := by
  obtain ⟨l, hrun, hperm, hranks⟩ := @exists_run_eq_map params mp blocks sort
  rw [sortParentsByVotes_eq hrun]
  have hconst : (∀ b ∈ blocks, mp.numVotes b ≤ 1) → ∀ x ∈ l, mp.numVotes x = 1 := by
    intro hle x hx
    obtain ⟨hmem, hmin⟩ := mem_eligible.1 (hperm.mem_iff.1 hx)
    have := hle x hmem
    unfold minVotesRequired at hmin
    omega
  by_cases hcont : Contested mp top l
  · -- the top block comes to the front, and the others keep no order among equals
    obtain ⟨rest, hkeep, hperm'⟩ := keepTopBlock_of_contested hcont
    obtain ⟨b, tail, rfl, hone, -, -⟩ := hcont
    have hle := numVotes_le_one hperm hranks hone
    rw [hkeep]
    refine ⟨hperm'.trans hperm, ?_⟩
    rw [standing, if_pos hle]
    refine ranks_favour_of_const (fun x hx => hconst hle x (hperm'.mem_iff.1 hx)) ?_
    exact (nodup_cons.1 ((hperm'.trans hperm).nodup_iff.2 hnodup)).1
  · rw [keepTopBlock_of_not_contested hcont]
    refine ⟨hperm, ?_⟩
    unfold standing
    split_ifs with hle
    · refine ranks_favour_of_const (hconst hle) fun htop => ?_
      cases l with
      | nil => cases htop
      | cons b rest =>
        refine hcont ⟨b, rest, rfl, hconst hle b (mem_cons_self ..), ?_, htop⟩
        rintro rfl
        exact (nodup_cons.1 (hperm.nodup_iff.2 hnodup)).1 htop
    · exact hranks

/-- Every list that is ranked by standing may be returned. -/
theorem exists_sortParentsByVotes_eq (hperm : l.Perm (eligible params mp blocks))
    (hranks : Ranks (standing mp top blocks) l) :
    ∃ sort, sortParentsByVotes sort params mp top blocks = l := by
  have hvotes : Ranks mp.numVotes l := hranks.imp numVotes_le_of_standing_le
  obtain ⟨sort, hsort⟩ := @UnstableSort.exists_run_eq _ BlockWithNumVotes.numVotes
    (filterParents params mp blocks) (l.map (counted mp)) (filterParents_eq ▸ hperm.map _)
    (pairwise_map.2 hvotes)
  refine ⟨sort, ?_⟩
  rw [sortParentsByVotes_eq hsort]
  apply keepTopBlock_of_not_contested
  rintro ⟨b, rest, rfl, hone, hne, htop⟩
  have hle := (pairwise_cons.1 hranks).1 top htop
  rw [standing, if_pos (numVotes_le_one hperm hvotes hone)] at hle
  have hmin := (mem_eligible.1 (hperm.mem_iff.1 (mem_cons_of_mem b htop))).2
  have hlt : favour mp.numVotes top b < favour mp.numVotes top top := by
    refine favour_lt ?_ hne
    unfold minVotesRequired at hmin
    omega
  omega

/-! ## What should be returned -/

/-- The candidates with a majority of votes, each once, ranked by their votes, and the top block
first unless another has more votes. -/
structure SortedParents (params : Params) (mp : TxPool) (top : Hash) (blocks l : List Hash) :
    Prop where
  mem : ∀ b, b ∈ l ↔ b ∈ blocks ∧ minVotesRequired params ≤ mp.votesFor b
  nodup : l.Nodup
  ranks : Ranks mp.votesFor l
  top_first : top ∈ blocks → minVotesRequired params ≤ mp.votesFor top →
    (∀ b ∈ blocks, mp.votesFor b ≤ mp.votesFor top) → l.head? = some top

/-- The votes as they are counted decide on the candidates, on their order and on the first one. -/
structure Decided (params : Params) (mp : TxPool) (top : Hash) (blocks : List Hash) : Prop where
  majority : ∀ b ∈ blocks,
    minVotesRequired params ≤ mp.votesFor b ↔ minVotesRequired params ≤ mp.numVotes b
  distinct : (blocks.filter fun b => minVotesRequired params ≤ mp.numVotes b).Nodup
  order : ∀ a ∈ blocks, ∀ b ∈ blocks, minVotesRequired params ≤ mp.numVotes a →
    minVotesRequired params ≤ mp.numVotes b → standing mp top blocks a ≤ standing mp top blocks b →
    mp.votesFor a ≤ mp.votesFor b
  lead : top ∈ blocks → minVotesRequired params ≤ mp.votesFor top →
    (∀ b ∈ blocks, mp.votesFor b ≤ mp.votesFor top) →
    ∀ b ∈ blocks, minVotesRequired params ≤ mp.numVotes b → b ≠ top →
      standing mp top blocks b < standing mp top blocks top

theorem Decided.sortedParents (h : Decided params mp top blocks)
    (sort : UnstableSort BlockWithNumVotes.numVotes) :
    SortedParents params mp top blocks (sortParentsByVotes sort params mp top blocks) := by
  obtain ⟨hperm, hranks⟩ := @sortParentsByVotes_ranks params mp top blocks h.distinct sort
  generalize sortParentsByVotes sort params mp top blocks = l at hperm hranks
  have hmem : ∀ {b}, b ∈ l → b ∈ blocks ∧ minVotesRequired params ≤ mp.numVotes b :=
    fun hb => mem_eligible.1 (hperm.mem_iff.1 hb)
  refine ⟨fun b => ?_, hperm.nodup_iff.2 h.distinct, ?_, fun htop hmin hmax => ?_⟩
  · rw [hperm.mem_iff, mem_eligible]
    exact and_congr_right fun hb => (h.majority b hb).symm
  · refine List.Pairwise.imp_of_mem (fun {x y} hx hy hle => ?_) hranks
    exact h.order y (hmem hy).1 x (hmem hx).1 (hmem hy).2 (hmem hx).2 hle
  · have helig := mem_eligible.2 ⟨htop, (h.majority top htop).1 hmin⟩
    refine hranks.head?_eq (hperm.mem_iff.2 helig) ?_
    intro b hb hne
    exact h.lead htop hmin hmax b (hmem hb).1 (hmem hb).2 hne

theorem decided_of_forall (hall : ∀ sort, SortedParents params mp top blocks
      (sortParentsByVotes sort params mp top blocks)) : Decided params mp top blocks := by
  have hsorted : ∀ l, l.Perm (eligible params mp blocks) → Ranks (standing mp top blocks) l →
      SortedParents params mp top blocks l := by
    intro l hperm hranks
    obtain ⟨sort, rfl⟩ := exists_sortParentsByVotes_eq hperm hranks
    exact hall sort
  obtain ⟨l, hperm, hranks⟩ := exists_ranked (standing mp top blocks) (eligible params mp blocks)
  have hl := hsorted l hperm hranks
  refine ⟨fun b hb => ?_, hperm.nodup_iff.1 hl.nodup, ?_, ?_⟩
  · have h := (hl.mem b).symm.trans (hperm.mem_iff.trans mem_eligible)
    exact ⟨fun hmin => (h.1 ⟨hb, hmin⟩).2, fun hmin => (h.2 ⟨hb, hmin⟩).2⟩
  · intro a ha b hb hamin hbmin hle
    exact key_le_of_ranks (fun l' hp hr => (hsorted l' hp hr).ranks) (mem_eligible.2 ⟨ha, hamin⟩)
      (mem_eligible.2 ⟨hb, hbmin⟩) hle
  · intro htop hmin hmax b hb hbmin hne
    by_contra hle
    -- otherwise `b` may be the first one
    obtain ⟨l', hperm', hranks'⟩ :=
      exists_ranked (favour (standing mp top blocks) b) (eligible params mp blocks)
    have hhead := (hsorted l' hperm' hranks'.of_favour).top_first htop hmin hmax
    obtain ⟨rest, rfl⟩ := List.head?_eq_some_iff.1 hhead
    have hmem := hperm'.mem_iff.2 (mem_eligible.2 ⟨hb, hbmin⟩)
    have hrest := (mem_cons.1 hmem).resolve_left hne
    have := (pairwise_cons.1 hranks').1 b hrest
    have := favour_lt (not_lt.1 hle) (Ne.symm hne)
    omega

/-- Where the top block leads, no other candidate with a majority has as many votes, unless it is
one vote each. -/
def Untied (params : Params) (mp : TxPool) (top : Hash) (blocks : List Hash) : Prop :=
  top ∈ blocks → (∀ b ∈ blocks, mp.votesFor b ≤ mp.votesFor top) →
    ∀ b ∈ blocks, minVotesRequired params ≤ mp.votesFor b → b ≠ top →
      mp.votesFor b < mp.votesFor top ∨ mp.votesFor top = 1

theorem standing_lt_iff (hfew : ∀ b ∈ blocks, mp.votesFor b < 2 ^ 16) (htop : top ∈ blocks)
    (hmax : ∀ b ∈ blocks, mp.votesFor b ≤ mp.votesFor top) (hb : b ∈ blocks)
    (hmin : minVotesRequired params ≤ mp.votesFor b) (hne : b ≠ top) :
    standing mp top blocks b < standing mp top blocks top ↔
      mp.votesFor b < mp.votesFor top ∨ mp.votesFor top = 1 := by
  have hnum : ∀ c ∈ blocks, mp.numVotes c = mp.votesFor c := fun c hc =>
    Nat.mod_eq_of_lt (hfew c hc)
  have hle := hmax b hb
  have hpos : 1 ≤ mp.votesFor b := le_trans (Nat.le_add_left ..) hmin
  unfold standing
  split_ifs with hone
  · have htop1 := hone top htop
    rw [hnum top htop] at htop1
    refine iff_of_true (favour_lt ?_ hne) (.inr (by omega))
    rwa [hnum b hb, hnum top htop]
  · rw [hnum b hb, hnum top htop, or_iff_left]
    intro heq
    refine hone fun c hc => ?_
    rw [hnum c hc, ← heq]
    exact hmax c hc

/-- Votes that fit 16 bits decide unless another block has as many as the top block. -/
theorem decided_iff_untied (hfew : ∀ b ∈ blocks, mp.votesFor b < 2 ^ 16) :
    Decided params mp top blocks ↔
      (blocks.filter fun b => minVotesRequired params ≤ mp.votesFor b).Nodup ∧
        Untied params mp top blocks := by
  have hnum : ∀ c ∈ blocks, mp.numVotes c = mp.votesFor c := fun c hc =>
    Nat.mod_eq_of_lt (hfew c hc)
  have hfilter : (blocks.filter fun b => minVotesRequired params ≤ mp.numVotes b) =
      blocks.filter fun b => minVotesRequired params ≤ mp.votesFor b :=
    filter_congr fun b hb => by rw [hnum b hb]
  constructor
  · rintro ⟨-, hdistinct, -, hlead⟩
    refine ⟨hfilter ▸ hdistinct, fun htop hmax b hb hmin hne => ?_⟩
    refine (standing_lt_iff hfew htop hmax hb hmin hne).1 ?_
    exact hlead htop (hmin.trans (hmax b hb)) hmax b hb (by rwa [hnum b hb]) hne
  · rintro ⟨hdistinct, huntied⟩
    refine ⟨fun b hb => by rw [hnum b hb], hfilter ▸ hdistinct, ?_, ?_⟩
    · intro a ha b hb _ _ hle
      rw [← hnum a ha, ← hnum b hb]
      exact numVotes_le_of_standing_le hle
    · intro htop _ hmax b hb hmin hne
      rw [hnum b hb] at hmin
      exact (standing_lt_iff hfew htop hmax hb hmin hne).2 (huntied htop hmax b hb hmin hne)

/-- **What `SortParentsByVotes` returns is right, whatever the sort, exactly if the votes decide
it.** Below 2^16 votes they do unless another block has as many as the top block. -/
theorem sortParentsByVotes_iff (params : Params) (mp : TxPool) (top : Hash) (blocks : List Hash) :
    ((∀ sort, SortedParents params mp top blocks
      (sortParentsByVotes sort params mp top blocks)) ↔ Decided params mp top blocks) ∧
    ((∀ b ∈ blocks, mp.votesFor b < 2 ^ 16) → (Decided params mp top blocks ↔
      (blocks.filter fun b => minVotesRequired params ≤ mp.votesFor b).Nodup ∧
        Untied params mp top blocks)) :=
  ⟨⟨decided_of_forall, Decided.sortedParents⟩, decided_iff_untied⟩

/-! ## A reorganization without need -/

/-- Two blocks with three votes each. -/
def threeEach : TxPool :=
  { newTxPool with
    votes := fun block => if block = .ofNat 1 ∨ block = .ofNat 2 then
      some [⟨.ofNat 11, .ofNat 21, true⟩, ⟨.ofNat 12, .ofNat 22, true⟩,
        ⟨.ofNat 13, .ofNat 23, true⟩]
      else none }

/-- The other block is returned first, although the top block has as many votes. -/
theorem threeEach_top_second :
    ∃ sort, ¬ SortedParents mainNetParams threeEach (.ofNat 1) [.ofNat 2, .ofNat 1]
      (sortParentsByVotes sort mainNetParams threeEach (.ofNat 1) [.ofNat 2, .ofNat 1]) := by
  refine ⟨.insertion _, fun h => ?_⟩
  have hfirst := h.top_first (by decide +kernel) (by decide +kernel) (by decide +kernel)
  exact absurd hfirst (by decide +kernel)

end Fnod
