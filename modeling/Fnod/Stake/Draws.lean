import Fnod.Stake.Lottery
import Mathlib.Data.Int.CardIntervalMod
import Mathlib.Data.List.Dedup

/-!
# The lottery is fair

**Theorem (`lottery_fair`).** Every result of `uniformRandom` is given by the same number of 32-bit
draws; a stream with enough distinct results makes `findTicketIdxs` return that many distinct
positions of the pool; and `fetchWinners` returns the tickets at these positions, in the order in
which they were drawn.

Fairness is a count of residues: the draws that are rejected are those below `2 ^ 32 % u`, and what
is left is a number of whole rounds through the `u` results (`card_accepted`). That the loops finish
is an induction over the draws of the stream: `results` lists what becomes of them, one draw at a
time, and the two nested loops of the code walk through that list (`drawIdxs_finishes`).
-/

namespace Fnod

open Hash256PRNG List

/-! ## Counting the draws -/

/-- The wrapping arithmetic and its special case compute one remainder. -/
theorem uniformMin_eq {u : Nat} (h2 : 2 ≤ u) (hlt : u < 2 ^ 32) : uniformMin u = 2 ^ 32 % u := by
  unfold uniformMin
  split_ifs with hbig
  · have hround : 2 ^ 32 % u = 2 ^ 32 - u := by
      rw [Nat.mod_eq_sub_mod (by omega), Nat.mod_eq_of_lt (by omega)]
    omega
  · by_cases htop : u = 2 ^ 31
    · subst htop
      decide
    · have hsub : (0xffffffff - u * 2 % 2 ^ 32 + 1) % 2 ^ 32 = 2 ^ 32 - 2 * u := by
        omega
      have hmod : 2 ^ 32 = (2 ^ 32 - 2 * u) + u * 2 := by
        omega
      rw [hsub]
      conv_rhs => rw [hmod, Nat.add_mul_mod_self_left]

/-- The draws below a bound with a given remainder, but for the first part of a round. -/
theorem card_residues {b u k : Nat} (hk : k < u) :
    ((Finset.range b).filter fun r => b % u ≤ r ∧ r % u = k).card = b / u := by
  have hpos : 0 < u := by omega
  have hall : ((Finset.range b).filter fun r => r % u = k).card =
      b / u + if k < b % u then 1 else 0 := by
    have hcount := Nat.count_modEq_card b hpos k
    rw [Nat.count_eq_card_filter_range, Nat.mod_eq_of_lt hk] at hcount
    simpa only [Nat.ModEq, Nat.mod_eq_of_lt hk] using hcount
  have hlow : ((Finset.range b).filter fun r => r < b % u ∧ r % u = k).card =
      if k < b % u then 1 else 0 := by
    split_ifs with hkm
    · refine Finset.card_eq_one.2 ⟨k, ?_⟩
      ext r
      have hle := Nat.mod_le b u
      have hltu := Nat.mod_lt b hpos
      simp only [Finset.mem_filter, Finset.mem_range, Finset.mem_singleton]
      constructor
      · rintro ⟨-, hr, hrk⟩
        rwa [Nat.mod_eq_of_lt (by omega)] at hrk
      · rintro rfl
        exact ⟨by omega, hkm, Nat.mod_eq_of_lt hk⟩
    · refine Finset.card_eq_zero.2 (Finset.filter_eq_empty_iff.2 ?_)
      rintro r - ⟨hr, hrk⟩
      rw [Nat.mod_eq_of_lt (by omega)] at hrk
      omega
  have hsplit := Finset.card_filter_add_card_filter_not
    (s := (Finset.range b).filter fun r => r % u = k) (p := fun r => r < b % u)
  simp only [Finset.filter_filter, not_lt] at hsplit
  simp only [and_comm] at hsplit hlow ⊢
  omega

/-- **Every result is given by the same number of draws.** -/
theorem card_accepted {u k : Nat} (h2 : 2 ≤ u) (hlt : u < 2 ^ 32) (hk : k < u) :
    ((Finset.range (2 ^ 32)).filter fun r => uniformMin u ≤ r ∧ r % u = k).card = 2 ^ 32 / u := by
  rw [uniformMin_eq h2 hlt]
  exact card_residues hk

/-! ## The stream of draws -/

section

variable [Blake256] {n fuel : Nat} {prng : Hash256PRNG}

/-- What the first draws of a generator give, those that are rejected left out. -/
def results (upperBound : Nat) : Nat → Hash256PRNG → List Nat
  | 0, _ => []
  | n + 1, hp =>
      let (r, hp) := hp.hash256Rand
      if uniformMin upperBound ≤ r then r % upperBound :: results upperBound n hp
      else results upperBound n hp

/-- The first draw that is accepted is the head of the results, and the others come after it. -/
theorem drawAtLeast_of_results {u x : Nat} {xs : List Nat} {hp : Hash256PRNG}
    (hfuel : n ≤ fuel) (h : results u n hp = x :: xs) :
    ∃ n' < n, ∃ r hp', drawAtLeast (uniformMin u) fuel hp = some (r, hp') ∧ r % u = x ∧
      xs = results u n' hp' := by
  induction n generalizing fuel hp with
  | zero => cases h
  | succ n ih =>
    obtain ⟨fuel, rfl⟩ : ∃ fuel', fuel = fuel' + 1 := ⟨fuel - 1, by omega⟩
    rw [results] at h
    by_cases haccept : uniformMin u ≤ hp.hash256Rand.1
    · simp only [haccept, if_true] at h
      obtain ⟨rfl, rfl⟩ := List.cons.inj h
      refine ⟨n, by omega, hp.hash256Rand.1, hp.hash256Rand.2, ?_, rfl, rfl⟩
      simp [drawAtLeast, haccept]
    · simp only [haccept, if_false] at h
      have hle : n ≤ fuel := by omega
      obtain ⟨n', hn', r, hp', hdraw, hx, hxs⟩ := ih hle h
      refine ⟨n', by omega, r, hp', ?_, hx, hxs⟩
      simpa [drawAtLeast, haccept] using hdraw

/-- The draws of the stream suffice for `n` distinct results. A bound below two is not drawn for. -/
def Enough (fuel size n : Nat) (prng : Hash256PRNG) : Prop :=
  if size < 2 then n ≤ fuel else n ≤ (results size fuel prng).dedup.length

instance (fuel size n : Nat) (prng : Hash256PRNG) : Decidable (Enough fuel size n prng) :=
  inferInstanceAs (Decidable
    (if size < 2 then n ≤ fuel else n ≤ (results size fuel prng).dedup.length))

/-- The loop finishes: there are enough values among those found and those to come. -/
theorem drawIdxs_finishes {sz m rounds : Nat} {list : List Nat}
    (h2 : 2 ≤ sz) (hfuel : m ≤ fuel) (hrounds : m ≤ rounds)
    (henough : n ≤ (list ++ results sz m prng).toFinset.card) :
    ∃ out, drawIdxs fuel sz n rounds list prng = .ok out := by
  induction m using Nat.strong_induction_on generalizing rounds list prng with
  | _ m ih =>
    by_cases hlen : list.length < n
    · -- Something is still to come, for the list alone has fewer values.
      cases hres : results sz m prng with
      | nil =>
        rw [hres, append_nil] at henough
        have hcard := toFinset_card_le list
        omega
      | cons x xs =>
        obtain ⟨m', hm', r, prng', hdraw, rfl, rfl⟩ := drawAtLeast_of_results hfuel hres
        obtain ⟨rounds, rfl⟩ : ∃ rounds', rounds = rounds' + 1 := ⟨rounds - 1, by omega⟩
        have huniform : prng.uniformRandom fuel sz = some (r % sz, prng') := by
          rw [uniformRandom, if_neg (by omega), hdraw]
          rfl
        rw [hres] at henough
        rw [drawIdxs, if_pos hlen, huniform]
        by_cases hmem : r % sz ∈ list
        · simp only [hmem, if_true]
          refine ih m' hm' (by omega) (by omega) (le_trans henough (Finset.card_le_card ?_))
          intro y hy
          simp only [mem_toFinset, mem_append, mem_cons] at hy ⊢
          rcases hy with hy | rfl | hy
          · exact .inl hy
          · exact .inl hmem
          · exact .inr hy
        · simp only [hmem, if_false]
          refine ih m' hm' (by omega) (by omega) ?_
          rwa [append_assoc, singleton_append]
    · refine ⟨(list, prng), ?_⟩
      cases rounds <;> rw [drawIdxs, if_neg hlen]

/-- **The loops finish.** -/
theorem findTicketIdxs_finishes {size : Nat} (hn : n ≤ size)
    (hsize : size < 2 ^ 32) (henough : Enough fuel size n prng) :
    ∃ idxs prng', findTicketIdxs fuel size n prng = .ok (idxs, prng') := by
  rw [findTicketIdxs, if_neg (by omega), if_neg (by omega)]
  unfold Enough at henough
  split_ifs at henough with h2
  · -- At most one index, and it is zero.
    rcases Nat.eq_zero_or_pos n with rfl | hpos
    · exact ⟨[], prng, by cases fuel <;> simp [drawIdxs]⟩
    · obtain ⟨fuel, rfl⟩ : ∃ fuel', fuel = fuel' + 1 := ⟨fuel - 1, by omega⟩
      obtain rfl : n = 1 := by omega
      cases fuel <;> simp [drawIdxs, uniformRandom, h2]
  · have hfinish : ∃ out, drawIdxs fuel size n fuel [] prng = .ok out := by
      apply drawIdxs_finishes (by omega) (le_refl fuel) (le_refl fuel)
      rwa [nil_append, card_toFinset]
    obtain ⟨⟨idxs, prng'⟩, hok⟩ := hfinish
    exact ⟨idxs, prng', hok⟩

end

/-! ## The winners -/

/-- The tickets at positions that exist, in the order of the positions. -/
theorem fetchWinners_keys (t : Immutable) {idxs : List Nat} (hne : idxs ≠ [])
    (hlt : ∀ i ∈ idxs, i < t.len) : ∃ winners, fetchWinners idxs t = .ok winners ∧
      winners.map some = idxs.map fun i => t.toMap.keys[i]? := by
  have hget : ∀ i ∈ idxs, ∃ k v, t.getByIndex i = some (k, v) ∧ t.toMap.keys[i]? = some k := by
    intro i hi
    have hlen : i < t.toMap.toList.length := Nat.lt_of_lt_of_eq (hlt i hi) t.size_toMap.symm
    obtain ⟨⟨k, v⟩, hkv⟩ : ∃ a, t.toMap.toList[i]? = some a := ⟨_, List.getElem?_eq_getElem hlen⟩
    refine ⟨k, v, ?_, ?_⟩
    · rw [← hkv]
      show t.root.getByIndex i = (t.root.toList.map _)[i]?
      rw [Treap.Tree.getByIndex_eq t.sized, List.getElem?_map]
    · rw [OrdMap.keys, List.getElem?_map, hkv]
      rfl
  have hlen : ∀ i ∈ idxs, TicketMap.len t ≠ 0 := by
    intro i hi h0
    have := hlt i hi
    have hzero : t.len = 0 := h0
    omega
  obtain ⟨i₀, hi₀⟩ := exists_mem_of_ne_nil idxs hne
  refine ⟨idxs.map fun i => (t.toMap.keys[i]?).getD default, ?_, ?_⟩
  · rw [fetchWinners, if_neg hne, if_neg (hlen i₀ hi₀), Except.mapM_eq_ok]
    rw [forall₂_map_right_iff, forall₂_same]
    intro i hi
    obtain ⟨k, v, hkv, hk⟩ := hget i hi
    have hin : ¬ i ≥ TicketMap.len t := not_le.2 (hlt i hi)
    rw [if_neg hin, show TicketMap.getByIndex t i = some (k, v) from hkv, hk]
    rfl
  · rw [map_map]
    refine map_congr_left fun i hi => ?_
    obtain ⟨k, v, -, hk⟩ := hget i hi
    simp [hk]

/-! ## The lottery -/

theorem hash256Rand_lt [Blake256] (hp : Hash256PRNG) : hp.hash256Rand.1 < 2 ^ 32 := by
  have hlt := Bytes.getLE_lt ((hp.lastHash.bytes.drop (hp.hashIdx * 4)).take 4).reverse
  have hlen : ((hp.lastHash.bytes.drop (hp.hashIdx * 4)).take 4).reverse.length ≤ 4 := by
    rw [length_reverse]
    exact length_take_le _ _
  exact lt_of_lt_of_le hlt (Nat.pow_le_pow_right (by decide : 0 < 256) hlen)

/-- One draw: it is accepted, or the next one decides. -/
theorem uniformRandom_succ [Blake256] {u : Nat} (h2 : 2 ≤ u) (fuel : Nat) (hp : Hash256PRNG) :
    hp.uniformRandom (fuel + 1) u =
      if uniformMin u ≤ hp.hash256Rand.1 then some (hp.hash256Rand.1 % u, hp.hash256Rand.2)
      else hp.hash256Rand.2.uniformRandom fuel u := by
  have hnot : ¬ u < 2 := by omega
  simp only [uniformRandom, hnot, if_false, drawAtLeast]
  split_ifs <;> rfl

/-- **The lottery.** A draw is a 32-bit number, it is accepted or the next one decides, and each of
the `u` results is given by the same number of accepted draws. A pool of fewer than `2 ^ 32` tickets
gives as many distinct positions as are asked for, once the stream has enough distinct results, and
a larger one is refused. The winners are the tickets at these positions of the ascending list, in
drawing order, and a list of no positions is refused. -/
theorem lottery_fair [Blake256] : (∀ u, 2 ≤ u → u < 2 ^ 32 →
      (∀ hp : Hash256PRNG, hp.hash256Rand.1 < 2 ^ 32 ∧
        ∀ fuel, hp.uniformRandom (fuel + 1) u =
          if uniformMin u ≤ hp.hash256Rand.1 then some (hp.hash256Rand.1 % u, hp.hash256Rand.2)
          else hp.hash256Rand.2.uniformRandom fuel u) ∧
      (∀ k < u, ((Finset.range (2 ^ 32)).filter
        fun r => uniformMin u ≤ r ∧ r % u = k).card = 2 ^ 32 / u) ∧
      ∀ fuel hp r hp', Hash256PRNG.uniformRandom fuel u hp = some (r, hp') → r < u) ∧
    (∀ fuel size n prng, n ≤ size → size < 2 ^ 32 → Enough fuel size n prng →
      ∃ idxs prng', findTicketIdxs fuel size n prng = .ok (idxs, prng') ∧
        idxs.length = n ∧ idxs.Nodup ∧ ∀ i ∈ idxs, i < size) ∧
    (∀ fuel size n prng, n ≤ size → 2 ^ 32 ≤ size →
      findTicketIdxs fuel size n prng = .error (.listSizeTooBig size)) ∧
    (∀ (t : Immutable) fuel n prng idxs prng', 0 < n →
      findTicketIdxs fuel t.len n prng = .ok (idxs, prng') →
      ∃ winners, fetchWinners idxs t = .ok winners ∧
        winners.map some = idxs.map fun i => t.toMap.keys[i]?) ∧
    (∀ fuel size prng, size < 2 ^ 32 → findTicketIdxs fuel size 0 prng = .ok ([], prng)) ∧
    ∀ t : Immutable, fetchWinners [] t = .error .emptyIdxs := by
  refine ⟨fun u h2 hlt =>
    ⟨fun hp => ⟨hash256Rand_lt hp, fun fuel => ?_⟩, fun k hk => ?_, ?_⟩, ?_, ?_,
    ?_, ?_, fun t => rfl⟩
  · exact uniformRandom_succ h2 fuel hp
  · exact card_accepted h2 hlt hk
  · intro fuel hp r hp' h
    exact uniformRandom_lt (by omega) h
  · intro fuel size n prng hn hsize henough
    obtain ⟨idxs, prng', hok⟩ := findTicketIdxs_finishes hn hsize henough
    exact ⟨idxs, prng', hok, findTicketIdxs_spec hok⟩
  · intro fuel size n prng hn hsize
    rw [findTicketIdxs, if_neg (by omega), if_pos (by omega)]
  · intro t fuel n prng idxs prng' hn hok
    obtain ⟨hlen, -, hlt⟩ := findTicketIdxs_spec hok
    refine fetchWinners_keys t ?_ hlt
    rintro rfl
    rw [length_nil] at hlen
    omega
  · intro fuel size prng hsize
    rw [findTicketIdxs, if_neg (by omega), if_neg (by omega)]
    cases fuel <;> rfl

/-- A hash function without variety. -/
@[reducible]
def constantHash : Blake256 := ⟨fun _ => default⟩

/-- A seed whose first two numbers are one and two. -/
def twoDraws : Hash256PRNG := newHash256PRNGFromIV (.ofNat (2 ^ 224 + 2 * 2 ^ 192))

def liveTicket : TicketValue := ⟨0, false, false, false, false⟩

def threeTickets : Immutable :=
  ((Immutable.new.put (.ofNat 7) liveTicket).put (.ofNat 3) liveTicket).put (.ofNat 5) liveTicket

/-- Two of the three tickets are drawn. -/
theorem lottery_fair_threeTickets :
    ∃ idxs prng' winners, @findTicketIdxs constantHash 2 threeTickets.len 2 twoDraws =
        .ok (idxs, prng') ∧ idxs.Nodup ∧ fetchWinners idxs threeTickets = .ok winners ∧
      winners.map some = idxs.map (fun i => threeTickets.toMap.keys[i]?) ∧
      ((Finset.range (2 ^ 32)).filter fun r => uniformMin 3 ≤ r ∧ r % 3 = 2).card = 2 ^ 32 / 3 := by
  obtain ⟨hfair, hfind, -, hfetch, -⟩ := @lottery_fair constantHash
  obtain ⟨idxs, prng', hok, -, hnodup, -⟩ :=
    hfind 2 threeTickets.len 2 twoDraws (by decide) (by decide) (by decide +kernel)
  obtain ⟨winners, hwinners, hmap⟩ := hfetch threeTickets 2 2 twoDraws idxs prng' (by decide) hok
  exact ⟨idxs, prng', winners, hok, hnodup, hwinners, hmap,
    (hfair 3 (by decide) (by decide)).2.1 2 (by decide)⟩

/-- A pool that is too large is refused, whatever the stream, and an empty list of positions is not
taken for one without winners. -/
theorem lottery_refuses : ∃ prng, (∀ fuel, @findTicketIdxs constantHash fuel (2 ^ 32) 1 prng =
        .error (.listSizeTooBig (2 ^ 32))) ∧
      (∀ fuel, @findTicketIdxs constantHash fuel threeTickets.len 0 prng = .ok ([], prng)) ∧
      fetchWinners [] threeTickets = .error .emptyIdxs := by
  refine ⟨twoDraws, fun fuel => rfl, fun fuel => ?_, rfl⟩
  cases fuel <;> rfl

end Fnod
