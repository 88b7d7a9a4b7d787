import Fnod.Stake.StakeTx

/-!
# The outputs of a ticket

The outputs of a ticket are the submission and then, for each input, a commitment and the change. A
commitment packs the hash to pay to, the amount with a flag for script hashes, and the limits on the
fees of votes and of revocations.

**Theorem (`sstxStakeOutputInfo_eq`).** `SStxStakeOutputInfo` reads each commitment of a ticket.
-/

namespace Fnod

open Bytes Except List

/-! ## Commitments and change -/

/-- Pairs, one after the other. -/
def inPairs {α : Type} (ps : List (α × α)) : List α := ps.flatMap fun p => [p.1, p.2]

section Pairs

variable {α : Type}

@[simp] theorem inPairs_nil : inPairs ([] : List (α × α)) = [] := rfl

@[simp] theorem inPairs_cons (p : α × α) (ps : List (α × α)) :
    inPairs (p :: ps) = p.1 :: p.2 :: inPairs ps := rfl

@[simp] theorem length_inPairs (ps : List (α × α)) : (inPairs ps).length = 2 * ps.length := by
  induction ps with
  | nil => rfl
  | cons p ps ih =>
    simp only [inPairs_cons, length_cons, ih]
    omega

theorem getElem?_inPairs_fst (ps : List (α × α)) (i : Nat) :
    (inPairs ps)[2 * i]? = ps[i]?.map Prod.fst := by
  induction ps generalizing i with
  | nil => rfl
  | cons p ps ih =>
    cases i with
    | zero => rfl
    | succ i => exact ih i

theorem getElem?_inPairs_snd (ps : List (α × α)) (i : Nat) :
    (inPairs ps)[2 * i + 1]? = ps[i]?.map Prod.snd := by
  induction ps generalizing i with
  | nil => rfl
  | cons p ps ih =>
    cases i with
    | zero => rfl
    | succ i => exact ih i

theorem exists_inPairs {n : Nat} {l : List α} (h : l.length = 2 * n) :
    ∃ ps : List (α × α), ps.length = n ∧ l = inPairs ps := by
  induction n generalizing l with
  | zero =>
    obtain rfl := length_eq_zero_iff.1 h
    exact ⟨[], rfl, rfl⟩
  | succ n ih =>
    match l, h with
    | a :: b :: l, h =>
      obtain ⟨ps, hlen, rfl⟩ := ih (l := l) (by simp at h; omega)
      exact ⟨(a, b) :: ps, by simp [hlen], rfl⟩

end Pairs

/-- The outputs of a ticket, taken apart. -/
theorem IsTicket.outputs {tx : MsgTx} (h : IsTicket tx) : ∃ first ps,
    tx.txOut = first :: inPairs ps ∧ ps.length = tx.txIn.length ∧
      ∀ p ∈ ps, 32 ≤ p.1.pkScript.length := by
  have hprop := h.proportion
  match houts : tx.txOut with
  | [] => simp [houts] at hprop
  | first :: outs =>
    obtain ⟨ps, hlen, rfl⟩ := exists_inPairs (n := tx.txIn.length) (l := outs) (by
      simp [houts] at hprop
      omega)
    refine ⟨first, ps, rfl, hlen, fun p hp => ?_⟩
    obtain ⟨i, hi⟩ := List.getElem?_of_mem hp
    refine h.commitments (2 * i + 1) p.1 ?_ (by omega)
    rw [houts, List.getElem?_cons_succ, getElem?_inPairs_fst, hi]
    rfl

/-! ## What a commitment says -/

/-- The fields of a commitment. -/
structure Commitment where
  hash : List UInt8
  isP2SH : Bool
  amount : Nat
  limits : Nat

/-- The bytes of a commitment script: the hash from byte 2, the amount from byte 22 with its top bit
as a flag, the limits from byte 30. -/
def commitmentOf (script : List UInt8) : Commitment where
  hash := (script.take 22).drop 2
  isP2SH := script.getD 29 0 &&& 0x80 != 0
  amount := getLE ((script.take 30).drop 22) % 2 ^ 63
  limits := getLE ((script.take 32).drop 30)

namespace Commitment

/-- Whether fees may be taken, for votes and for revocations. -/
def rules (c : Commitment) : Bool × Bool :=
  (c.limits &&& sstxVoteFractionFlag == sstxVoteFractionFlag,
    c.limits &&& sstxRevFractionFlag == sstxRevFractionFlag)

/-- The limit on fees, for votes and for revocations. -/
def feeLimits (c : Commitment) : Nat × Nat :=
  (c.limits &&& sstxVoteReturnFractionMask, (c.limits &&& sstxRevReturnFractionMask) >>> 8)

end Commitment

theorem getLE_clear_top {bs : List UInt8} {b : UInt8} (hlen : bs.length = 8)
    (hb : bs[7]? = some b) : getLE (bs.set 7 (b &&& 0x7f)) = getLE bs % 2 ^ 63 := by
  match bs, hlen with
  | [b0, b1, b2, b3, b4, b5, b6, b7], _ =>
    obtain rfl : b7 = b := by simpa using hb
    have hlow := getLE_lt [b0, b1, b2, b3, b4, b5, b6]
    have hmask : (b7 &&& 0x7f).toNat = b7.toNat % 128 := by
      rw [UInt8.toNat_and]
      exact Nat.and_two_pow_sub_one_eq_mod b7.toNat 7
    have hsplit : ∀ b : UInt8, getLE [b0, b1, b2, b3, b4, b5, b6, b] =
        getLE [b0, b1, b2, b3, b4, b5, b6] + 2 ^ 56 * b.toNat := by
      intro b
      exact (getLE_append [b0, b1, b2, b3, b4, b5, b6] [b]).trans (by simp [getLE])
    simp only [set_cons_succ, set_cons_zero]
    rw [hsplit, hsplit, hmask]
    simp only [length_cons, length_nil] at hlow
    omega

/-! ## Reading a ticket -/

/-- The information with the places that are not filled yet. -/
def infoOf (n : Nat) (cs : List Commitment) (changes : List Int) : StakeOutputInfo where
  isP2SH := cs.map Commitment.isP2SH ++ List.replicate (n - cs.length) false
  addresses := cs.map Commitment.hash ++ List.replicate (n - cs.length) []
  amounts := cs.map (fun c => (c.amount : Int)) ++ List.replicate (n - cs.length) 0
  changeAmounts := changes ++ List.replicate (n - changes.length) 0
  spendRules := cs.map Commitment.rules ++ List.replicate (n - cs.length) (false, false)
  spendLimits := cs.map Commitment.feeLimits ++ List.replicate (n - cs.length) (0, 0)

section Read

variable {ε : Type} {n : Nat} {cs : List Commitment}

theorem set_next {α : Type} {l : List α} (d x : α) {k : Nat} (hk : l.length = k) (h : k < n) :
    (Slice.set (l ++ List.replicate (n - k) d) k x : Except (Fault ε) (List α)) =
      .ok ((l ++ [x]) ++ List.replicate (n - (k + 1)) d) := by
  subst hk
  obtain ⟨m, hm⟩ : ∃ m, n - l.length = m + 1 := ⟨n - l.length - 1, by omega⟩
  rw [Slice.set_eq (by simp; omega), hm, show n - (l.length + 1) = m by omega]
  simp [set_append_right, replicate_succ]

variable {changes : List Int}

theorem readCommitment_infoOf {out : MinimalOutput} (hcs : cs.length < n)
    (hlen : 32 ≤ out.pkScript.length) :
    readCommitment (infoOf n cs changes) (2 * cs.length + 1) out =
      .ok (infoOf n (cs ++ [commitmentOf out.pkScript]) changes) := by
  have hidx : (2 * cs.length + 1) / 2 = cs.length := by omega
  have hlen8 : ((out.pkScript.take 30).drop 22).length = 8 := by simp; omega
  obtain ⟨msb, hmsb⟩ : ∃ msb, ((out.pkScript.take 30).drop 22)[7]? = some msb :=
    ⟨_, List.getElem?_eq_getElem (by omega)⟩
  have hmsb' : out.pkScript[29]? = some msb := by
    rwa [List.getElem?_drop, List.getElem?_take_of_lt (by omega)] at hmsb
  unfold readCommitment
  rw [hidx, Slice.slice_eq (by omega) (by omega), ok_bind, Slice.get_eq hmsb, ok_bind]
  simp only [infoOf]
  rw [set_next _ _ (by simp) hcs, ok_bind, Slice.set_eq (by omega), ok_bind,
    Slice.slice_eq (by omega) (by omega), ok_bind, set_next _ _ (by simp) hcs, ok_bind,
    set_next _ _ (by simp) hcs, ok_bind, Slice.slice_eq (by omega) (by omega), ok_bind,
    set_next _ _ (by simp) hcs, ok_bind, set_next _ _ (by simp) hcs, ok_bind,
    getLE_clear_top hlen8 hmsb]
  simp [commitmentOf, Commitment.rules, Commitment.feeLimits, hmsb']

/-- A commitment and its change. -/
theorem readTicketOutput_pair {p : MinimalOutput × MinimalOutput}
    (hcs : cs.length < n) (hchanges : changes.length = cs.length)
    (hlen : 32 ≤ p.1.pkScript.length) : (do
      let info ← readTicketOutput (infoOf n cs changes) (p.1, 2 * cs.length + 1)
      readTicketOutput info (p.2, 2 * cs.length + 2)) =
      .ok (infoOf n (cs ++ [commitmentOf p.1.pkScript]) (changes ++ [p.2.value])) := by
  have hodd : 0 < 2 * cs.length + 1 ∧ (2 * cs.length + 1) % 2 ≠ 0 := by omega
  have hnot : ¬(0 < 2 * cs.length + 2 ∧ (2 * cs.length + 2) % 2 ≠ 0) := by omega
  have heven : 0 < 2 * cs.length + 2 ∧ (2 * cs.length + 2) % 2 = 0 := by omega
  have hidx : (2 * cs.length + 2) / 2 - 1 = cs.length := by omega
  simp only [readTicketOutput, if_pos hodd, readCommitment_infoOf hcs hlen, ok_bind, if_neg hnot,
    if_pos heven, hidx]
  simp only [infoOf, hchanges]
  rw [set_next _ _ hchanges hcs, ok_bind]
  simp [hchanges]

/-- **Reading all pairs.** -/
theorem foldlM_readTicketOutput {cs : List Commitment} {changes : List Int}
    {ps : List (MinimalOutput × MinimalOutput)} (hn : cs.length + ps.length ≤ n)
    (hchanges : changes.length = cs.length) (hlen : ∀ p ∈ ps, 32 ≤ p.1.pkScript.length) :
    ((inPairs ps).zipIdx (2 * cs.length + 1)).foldlM readTicketOutput (infoOf n cs changes) =
      .ok (infoOf n (cs ++ ps.map fun p => commitmentOf p.1.pkScript)
        (changes ++ ps.map fun p => p.2.value)) := by
  induction ps generalizing cs changes with
  | nil => simp
  | cons p ps ih =>
    obtain ⟨hp, hlen⟩ := forall_mem_cons.1 hlen
    have hpair := readTicketOutput_pair (p := p) (n := n) (by simp at hn; omega) hchanges hp
    simp only [inPairs_cons, zipIdx_cons, foldlM_cons]
    rw [← bind_assoc, show 2 * cs.length + 1 + 1 = 2 * cs.length + 2 by omega, hpair, ok_bind]
    have hrest := @ih (cs ++ [commitmentOf p.1.pkScript]) (changes ++ [p.2.value])
      (by simp at hn ⊢; omega) (by simp [hchanges]) hlen
    simp only [length_append, length_cons, length_nil, zero_add] at hrest
    rw [show 2 * cs.length + 2 + 1 = 2 * (cs.length + 1) + 1 by omega, hrest]
    simp

/-- **`SStxStakeOutputInfo`** of the outputs of a ticket. -/
theorem sstxStakeOutputInfo_eq {first : MinimalOutput} {ps : List (MinimalOutput × MinimalOutput)}
    (hlen : ∀ p ∈ ps, 32 ≤ p.1.pkScript.length) : sstxStakeOutputInfo (first :: inPairs ps) =
      .ok (infoOf ps.length (ps.map fun p => commitmentOf p.1.pkScript)
        (ps.map fun p => p.2.value)) := by
  have hhalf : (first :: inPairs ps).length / 2 = ps.length := by
    simp
    omega
  have hread := @foldlM_readTicketOutput ps.length [] [] ps (by simp) rfl hlen
  unfold sstxStakeOutputInfo
  rw [hhalf, zipIdx_cons, foldlM_cons, show readTicketOutput _ (first, 0) = .ok _ from rfl, ok_bind]
  exact hread

theorem infoOf_full (cs : List Commitment) (h : changes.length = cs.length) :
    infoOf cs.length cs changes =
      ⟨cs.map Commitment.isP2SH, cs.map Commitment.hash, cs.map fun c => (c.amount : Int), changes,
        cs.map Commitment.rules, cs.map Commitment.feeLimits⟩ := by
  simp [infoOf, h]

end Read

end Fnod
