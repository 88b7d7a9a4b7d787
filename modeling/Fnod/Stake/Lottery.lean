import Fnod.Lib.Sim
import Fnod.Stake.TicketTreap

/-!
# Package `stake`: the lottery

The winning tickets of a block are drawn by a generator that hashes a seed: every hash gives eight
32-bit numbers. A number is reduced to an index by rejection sampling, and an index that was
already drawn is drawn again.

Both loops run for as long as the hash function keeps them. They take *fuel* here, a bound on the
number of rounds; running out of it is an error of its own, `outOfFuel`, and every result about a
successful run holds for every amount of fuel.

* `findTicketIdxs_spec` — the indexes drawn are as many as asked for, distinct, and in range.
-/

namespace Fnod

open Blake256 Bytes List

/-- The errors of the stake package. Those of the source's `RuleError` carry the ticket their text
names. -/
inductive StakeError where
  | unknownTicketSpent (ticket : Hash)
  | missingTicket (ticket : Hash)
  | duplicateTicket (ticket : Hash)
  | memoryCorruption
  | databaseCorrupt
  | missingDatabaseTx
  /-- "list size too small" -/
  | listSizeTooSmall (size n : Nat)
  /-- "list size too big" -/
  | listSizeTooBig (size : Nat)
  /-- "empty idxs list" -/
  | emptyIdxs
  /-- "missing or empty treap" -/
  | emptyTreap
  /-- "idx out of bounds" -/
  | idxOutOfBounds (idx : Nat)
  /-- Errors of the ticket database. -/
  | missingKey
  | databaseInfoShortRead
  | chainStateShortRead
  | undoDataShortRead
  | undoDataCorrupt
  | ticketHashesShortRead
  | ticketHashesCorrupt
  | loadAllTickets
  /-- "unable to obtain ancestor" -/
  | missingAncestor
  /-- The code would panic. -/
  | panicked
  /-- A loop was cut off. -/
  | outOfFuel
deriving DecidableEq

/-- `seedConst`, from the hex representation of pi. -/
def seedConst : List UInt8 := [0x24, 0x3f, 0x6a, 0x88, 0x85, 0xa3, 0x08, 0xd3]

structure Hash256PRNG where
  seed : Hash
  /-- Position in the cached hash. -/
  hashIdx : Nat
  /-- Position in the hash iterator. -/
  idx : Nat
  /-- Cached last hash used. -/
  lastHash : Hash
deriving DecidableEq

def newHash256PRNGFromIV (iv : Hash) : Hash256PRNG :=
  { seed := iv, hashIdx := 0, idx := 0, lastHash := iv }

section

variable [Blake256] {fuel n size : Nat} {prng prng' : Hash256PRNG} {idxs : List Nat}

def calcHash256PRNGIV (seed : List UInt8) : Hash := hashH (seed ++ seedConst)

def newHash256PRNG (seed : List UInt8) : Hash256PRNG :=
  newHash256PRNGFromIV (calcHash256PRNGIV seed)

namespace Hash256PRNG

def stateHash (hp : Hash256PRNG) : Hash :=
  hashH (hp.lastHash.bytes ++ putBE 4 hp.idx ++ putBE 1 hp.hashIdx)

def hash256Rand (hp : Hash256PRNG) : Nat × Hash256PRNG :=
  let r := getBE ((hp.lastHash.bytes.drop (hp.hashIdx * 4)).take 4)
  let hp := { hp with hashIdx := hp.hashIdx + 1 }
  -- Roll over to the next hash of the seed.
  let hp := if hp.hashIdx > 7 then
      { hp with
        lastHash := hashH (hp.seed.bytes ++ putBE 4 hp.idx)
        idx := hp.idx + 1
        hashIdx := 0 }
    else hp
  -- Roll over to a new seed when the counter overflows.
  let hp := if hp.idx > 0xffffffff then
      { hp with seed := hashH hp.seed.bytes, lastHash := hashH hp.seed.bytes, idx := 0 }
    else hp
  (r, hp)

/-- The first number not below `min`. -/
def drawAtLeast (min : Nat) : Nat → Hash256PRNG → Option (Nat × Hash256PRNG)
  | 0, _ => none
  | fuel + 1, hp =>
      let (r, hp) := hp.hash256Rand
      if min ≤ r then some (r, hp) else drawAtLeast min fuel hp

/-- The numbers below this bound are rejected, in `uint32` arithmetic. -/
def uniformMin (upperBound : Nat) : Nat :=
  if upperBound > 0x80000000 then (1 + (0xffffffff - upperBound)) % 2 ^ 32
  else (0xffffffff - upperBound * 2 % 2 ^ 32 + 1) % 2 ^ 32 % upperBound

def uniformRandom (fuel upperBound : Nat) (hp : Hash256PRNG) : Option (Nat × Hash256PRNG) :=
  if upperBound < 2 then some (0, hp)
  else (drawAtLeast (uniformMin upperBound) fuel hp).map fun (r, hp) => (r % upperBound, hp)

end Hash256PRNG

open Hash256PRNG

/-- The loop of `findTicketIdxs`. -/
def drawIdxs (fuel sz n : Nat) : Nat → List Nat → Hash256PRNG →
    Except StakeError (List Nat × Hash256PRNG)
  | 0, list, prng => if list.length < n then .error .outOfFuel else .ok (list, prng)
  | rounds + 1, list, prng =>
      if list.length < n then
        match prng.uniformRandom fuel sz with
        | none => .error .outOfFuel
        | some (r, prng) =>
            if r ∈ list then drawIdxs fuel sz n rounds list prng
            else drawIdxs fuel sz n rounds (list ++ [r]) prng
      else .ok (list, prng)

/-- `findTicketIdxs`: `n` distinct indexes into a list of length `size`. -/
def findTicketIdxs (fuel size n : Nat) (prng : Hash256PRNG) :
    Except StakeError (List Nat × Hash256PRNG) :=
  if size < n then .error (.listSizeTooSmall size n)
  else if size > 0xffffffff then .error (.listSizeTooBig size)
  else drawIdxs fuel size n fuel [] prng

theorem uniformRandom_lt {upperBound r : Nat} {hp hp' : Hash256PRNG}
    (hpos : 0 < upperBound) (h : hp.uniformRandom fuel upperBound = some (r, hp')) :
    r < upperBound := by
  unfold uniformRandom at h
  split_ifs at h
  · cases h
    exact hpos
  · obtain ⟨⟨r', hp''⟩, -, h⟩ := Option.map_eq_some_iff.1 h
    cases h
    exact Nat.mod_lt _ hpos

theorem drawIdxs_spec {sz : Nat} (hpos : 0 < sz) {rounds : Nat} {list : List Nat} (hnd : list.Nodup)
    (hlt : ∀ i ∈ list, i < sz)
    (hlen : list.length ≤ n) (h : drawIdxs fuel sz n rounds list prng = .ok (idxs, prng')) :
    idxs.length = n ∧ idxs.Nodup ∧ ∀ i ∈ idxs, i < sz := by
  induction rounds generalizing list prng with
  | zero =>
    rw [drawIdxs] at h
    split_ifs at h with hn
    cases h
    exact ⟨by omega, hnd, hlt⟩
  | succ rounds ih =>
    rw [drawIdxs] at h
    split_ifs at h with hn
    · split at h
      · cases h
      · rename_i r prng'' hr
        split_ifs at h with hmem
        · exact ih hnd hlt hlen h
        · refine ih ?_ ?_ ?_ h
          · refine nodup_append.2 ⟨hnd, by simp, fun a ha b hb hab => ?_⟩
            rw [mem_singleton.1 hb] at hab
            exact hmem (hab ▸ ha)
          · exact forall_mem_append.2 ⟨hlt, forall_mem_singleton.2 (uniformRandom_lt hpos hr)⟩
          · simp only [length_append, length_singleton]
            omega
    · cases h
      exact ⟨by omega, hnd, hlt⟩

/-- **The draw.** The indexes are as many as asked for, distinct, and in range. -/
theorem findTicketIdxs_spec (h : findTicketIdxs fuel size n prng = .ok (idxs, prng')) :
    idxs.length = n ∧ idxs.Nodup ∧ ∀ i ∈ idxs, i < size := by
  unfold findTicketIdxs at h
  split_ifs at h with h1 h2
  rcases Nat.eq_zero_or_pos size with rfl | hpos
  · obtain rfl : n = 0 := by omega
    cases fuel <;>
    · cases h
      exact ⟨rfl, nodup_nil, by simp⟩
  · exact drawIdxs_spec hpos nodup_nil (by simp) (by simp) h

theorem findTicketIdxs_size
    {res : List Nat × Hash256PRNG} (h : findTicketIdxs fuel size n prng = .ok res) :
    size < 2 ^ 32 := by
  unfold findTicketIdxs at h
  split_ifs at h with h1 h2
  omega

end

/-- `fetchWinners`: the keys at the given positions, in the order of the positions. -/
def fetchWinners {M : Type} [TicketMap M] (idxs : List Nat) (t : M) :
    Except StakeError (List Hash) :=
  if idxs = [] then .error .emptyIdxs
  else if TicketMap.len t = 0 then .error .emptyTreap
  else idxs.mapM fun idx =>
    if idx ≥ TicketMap.len t then .error (.idxOutOfBounds idx)
    else match TicketMap.getByIndex t idx with
      | some (k, _) => .ok k
      | none => .error .panicked

end Fnod
