import Fnod.Blockchain.TicketReturn
import Mathlib.Data.Nat.Bitwise

/-!
# The limits on fees of votes and revocations

A commitment of a ticket may let votes and revocations take fees from the payout, up to a power of
two. `SStxStakeOutputInfo` and `checkTicketRedeemerCommitments` decode the limits for themselves.

**Theorem (`feeLimits_enforced_iff`).** The limits are enforced for votes. For revocations the limit
is read in the wrong place, eight bits too high: limits other than 0 count as no limit.
-/

namespace Fnod

open Bytes Except List

/-! ## Payouts -/

/-- The tag on the payouts. -/
def payeeTag (isVote : Bool) : UInt8 := if isVote then OP_SSGEN else OP_SSRTX

/-- The script that pays to the hash of a commitment. -/
def payeeScript (isP2SH : Bool) (tag : UInt8) (hash : List UInt8) : List UInt8 :=
  if isP2SH then [tag, OP_HASH160, OP_DATA_20] ++ hash ++ [OP_EQUAL]
  else [tag, OP_DUP, OP_HASH160, OP_DATA_20] ++ hash ++ [OP_EQUALVERIFY, OP_CHECKSIG]

/-- What the holder of a commitment may be paid if `due` is due. -/
def FeeAllowed (mayTakeFee : Bool) (limit : Nat) (due value : Int) : Prop :=
  if mayTakeFee then value ≤ due ∧ (limit ≠ 63 → due - 2 ^ limit ≤ value) else value = due

instance (mayTakeFee : Bool) (limit : Nat) (due value : Int) :
    Decidable (FeeAllowed mayTakeFee limit due value) :=
  inferInstanceAs (Decidable (if mayTakeFee then _ else _))

/-- The outputs of a vote or a revocation that pay the contributors. -/
def payouts (isVote : Bool) (msgTx : MsgTx) : List TxOut :=
  msgTx.txOut.drop (if isVote then 2 else 0)

/-- What is due to a contributor, out of the price and the subsidy. -/
def amountDue (info : StakeOutputInfo) (price voteSubsidy : Int) (k : Nat) : Option Int := do
  let amount ← info.amounts[k]?
  let sum := info.amounts.foldl (fun total amount => Int64.wrap (total + amount)) 0
  (calcTicketReturnAmount amount price voteSubsidy sum).toOption

/-- Whether fees may be taken, and the limit, for votes or for revocations. -/
def feeRule (info : StakeOutputInfo) (isVote : Bool) (k : Nat) : Option (Bool × Nat) := do
  let rules ← info.spendRules[k]?
  let limits ← info.spendLimits[k]?
  some (if isVote then (rules.1, limits.1) else (rules.2, limits.2))

/-- The payout goes to the hash and the kind of script that the ticket commits to. -/
def PaysTo (info : StakeOutputInfo) (isVote : Bool) (k : Nat) (out : TxOut) : Prop :=
  ∃ isP2SH hash, info.isP2SH[k]? = some isP2SH ∧ info.addresses[k]? = some hash ∧
    out.version = 0 ∧ out.pkScript = payeeScript isP2SH (payeeTag isVote) hash

/-- The payout is what is due, without an allowed fee. -/
def PaysDue (info : StakeOutputInfo) (price voteSubsidy : Int) (isVote : Bool) (k : Nat)
    (out : TxOut) : Prop :=
  ∃ due rule, amountDue info price voteSubsidy k = some due ∧ feeRule info isVote k = some rule ∧
    FeeAllowed rule.1 rule.2 due out.value

/-- The limit for revocations does not matter, or it is read as it is. -/
def LimitRead (info : StakeOutputInfo) (price voteSubsidy : Int) (k : Nat) : Prop :=
  ∀ limit due, feeRule info false k = some (true, limit) →
    amountDue info price voteSubsidy k = some due → limit = 0 ∨ limit = 63 ∨ due ≤ 2 ^ limit

/-! ## Bits of the limits -/

section Bits

variable (limits : Nat)

theorem and_pow_eq_zero (i : Nat) : limits &&& 2 ^ i = 0 ↔ (limits &&& 2 ^ i == 2 ^ i) = false := by
  have hpos := Nat.two_pow_pos i
  rw [Nat.and_two_pow]
  cases limits.testBit i
  · simp [ne_of_lt hpos]
  · simp

theorem rules_vote (c : Commitment) : c.limits &&& sstxVoteFractionFlag = 0 ↔ c.rules.1 = false :=
  and_pow_eq_zero c.limits 6

theorem rules_revocation (c : Commitment) :
    c.limits &&& sstxRevFractionFlag = 0 ↔ c.rules.2 = false :=
  and_pow_eq_zero c.limits 14

theorem vote_limit_lt : limits &&& sstxVoteReturnFractionMask < 64 := by
  rw [show sstxVoteReturnFractionMask = 2 ^ 6 - 1 from rfl, Nat.and_two_pow_sub_one_eq_mod]
  exact Nat.mod_lt _ (by decide)

/-- The limit for revocations as `checkTicketRedeemerCommitments` reads it. -/
theorem revocation_limit : limits &&& sstxRevReturnFractionMask =
    256 * ((limits &&& sstxRevReturnFractionMask) >>> 8) := by
  have hlow : (limits &&& sstxRevReturnFractionMask) % 2 ^ 8 = 0 := by
    rw [← Nat.and_two_pow_sub_one_eq_mod, Nat.and_assoc]
    exact Nat.and_zero limits
  rw [Nat.shiftRight_eq_div_pow]
  omega

end Bits

/-! ## One payout -/

variable {first : MinimalOutput} {ps : List (MinimalOutput × MinimalOutput)}

section Payee

theorem paymentHash_eq_ok {script hash : List UInt8} {isP2SH : Bool} {tag : UInt8}
    (h : paymentHash isP2SH script tag = .ok hash) : script = payeeScript isP2SH tag hash := by
  unfold paymentHash at h
  cases isP2SH with
  | true =>
    cases hs : extractStakeScriptHash script tag with
    | none => simp [hs, ruleError] at h
    | some hash' =>
      obtain rfl : hash' = hash := by simpa [hs] using h
      exact (extractStakeScriptHash_eq_some hs).2
  | false =>
    cases hs : extractStakePubKeyHash script tag with
    | none => simp [hs, ruleError] at h
    | some hash' =>
      obtain rfl : hash' = hash := by simpa [hs] using h
      exact (extractStakePubKeyHash_eq_some hs).2

/-- A payout that the code accepts, for a limit that it reads. -/
theorem checkPayeeValue_eq_ok {value due : Int} {limit : Option Nat} :
    checkPayeeValue value due limit = .ok () ↔ match limit with
      | none => value = due
      | some l => value ≤ due ∧ 0 ≤ value ∧ (l < 63 → due - 2 ^ l ≤ value) := by
  cases limit with
  | none => simp [checkPayeeValue, rejectIf_eq_ok]
  | some l =>
    simp only [checkPayeeValue, rejectIf_bind_eq_ok, rejectIf_eq_ok, not_lt]
    split_ifs with hl
    · have hpow : (0 : Int) < 2 ^ l := by positivity
      constructor
      · rintro ⟨hlow, hle⟩
        exact ⟨hle, by omega, fun _ => hlow⟩
      · rintro ⟨hle, -, hlow⟩
        exact ⟨hlow hl.1, hle⟩
    · constructor
      · rintro ⟨h0, hle⟩
        refine ⟨hle, h0, fun hlt => ?_⟩
        have hdue : due ≤ 2 ^ l := not_lt.1 fun hc => hl ⟨hlt, hc⟩
        omega
      · rintro ⟨hle, h0, -⟩
        exact ⟨h0, hle⟩

/-- The limit on the fee of a payout as the code reads it. -/
def limitAsRead (isVote : Bool) (c : Commitment) : Option Nat :=
  if isVote then if c.rules.1 then some c.feeLimits.1 else none
  else if c.rules.2 then some (256 * c.feeLimits.2) else none

theorem limitAsRead_eq (isVote : Bool) (c : Commitment) :
    (if c.limits &&& (if isVote then sstxVoteFractionFlag else sstxRevFractionFlag) = 0 then none
      else some (c.limits &&&
        (if isVote then sstxVoteReturnFractionMask else sstxRevReturnFractionMask))) =
      limitAsRead isVote c := by
  cases isVote with
  | true =>
    cases hrule : c.rules.1
    · simp [limitAsRead, hrule, rules_vote]
    · simp [limitAsRead, hrule, rules_vote, Commitment.feeLimits]
  | false =>
    cases hrule : c.rules.2
    · simp [limitAsRead, hrule, rules_revocation]
    · simp only [limitAsRead, hrule, Commitment.feeLimits, ← revocation_limit]
      simp [hrule, rules_revocation]

/-- **One payout** of an accepted vote or revocation. -/
theorem checkPayee_eq_ok (hlen : ∀ p ∈ ps, 32 ≤ p.1.pkScript.length) {isVote : Bool}
    {voteSubsidy price sum : Int} {out : TxOut} {k : Nat} :
    checkPayee (first :: inPairs ps) isVote voteSubsidy price sum (out, k) = .ok () ↔
      ∃ p due, ps[k]? = some p ∧ out.version = 0 ∧
        paymentHash (commitmentOf p.1.pkScript).isP2SH out.pkScript (payeeTag isVote) =
          .ok (commitmentOf p.1.pkScript).hash ∧
        calcTicketReturnAmount (commitmentOf p.1.pkScript).amount price voteSubsidy sum = .ok due ∧
        checkPayeeValue out.value due (limitAsRead isVote (commitmentOf p.1.pkScript)) =
          .ok () := by
  have hget : (first :: inPairs ps)[k * 2 + 1]? = ps[k]?.map Prod.fst := by
    rw [List.getElem?_cons_succ, mul_comm, getElem?_inPairs_fst]
  simp only [checkPayee, rejectIf_bind_eq_ok, not_not]
  cases hp : ps[k]? with
  | none =>
    rw [hp] at hget
    simp [Slice.get, hget]
  | some p =>
    rw [hp] at hget
    obtain ⟨hhash, hkind, hamount, hlimits⟩ := extract_commitmentOf (hlen p (mem_of_getElem? hp))
    rw [Slice.get_eq hget, ok_bind, hkind, ok_bind]
    constructor
    · rintro ⟨hversion, h⟩
      obtain ⟨payment, hpayment, h⟩ := bind_eq_ok.1 h
      rw [hhash, ok_bind, rejectIf_bind_eq_ok, not_not, hamount, ok_bind] at h
      obtain ⟨rfl, h⟩ := h
      obtain ⟨due, hdue, h⟩ := bind_eq_ok.1 h
      rw [hlimits, ok_bind, limitAsRead_eq] at h
      exact ⟨p, due, rfl, hversion, hpayment, hdue, h⟩
    · rintro ⟨p', due, hp', hversion, hpayment, hdue, hvalue⟩
      cases hp'
      refine ⟨hversion, bind_eq_ok.2 ⟨_, hpayment, ?_⟩⟩
      rw [hhash, ok_bind, rejectIf_bind_eq_ok, not_not, hamount, ok_bind, hdue, ok_bind, hlimits,
        ok_bind, limitAsRead_eq]
      exact ⟨rfl, hvalue⟩

end Payee

/-! ## Accepted votes and revocations -/

section Redeemers

variable {isVote : Bool} {voteSubsidy due value : Int} {msgTx : MsgTx}
  {p : MinimalOutput × MinimalOutput}

/-- The commitments of a ticket. -/
def commitmentsOf (ps : List (MinimalOutput × MinimalOutput)) : List Commitment :=
  ps.map fun p => commitmentOf p.1.pkScript

/-- The sum of the contributions in 64 bits. -/
def wrappedSum (ps : List (MinimalOutput × MinimalOutput)) : Int :=
  (contributions ps).foldl (fun total amount => Int64.wrap (total + amount)) 0

/-- What `SStxStakeOutputInfo` says about a ticket. -/
def ticketInfo (ps : List (MinimalOutput × MinimalOutput)) : StakeOutputInfo :=
  infoOf ps.length (commitmentsOf ps) (ps.map fun p => p.2.value)

theorem ticketInfo_eq (ps : List (MinimalOutput × MinimalOutput)) :
    ticketInfo ps = ⟨(commitmentsOf ps).map Commitment.isP2SH,
      (commitmentsOf ps).map Commitment.hash, contributions ps, ps.map fun p => p.2.value,
      (commitmentsOf ps).map Commitment.rules, (commitmentsOf ps).map Commitment.feeLimits⟩ := by
  have hlen : (commitmentsOf ps).length = ps.length := length_map _
  rw [ticketInfo, ← hlen, infoOf_full _ (by simp [commitmentsOf])]
  simp [commitmentsOf, contributions, Function.comp_def]

variable {k : Nat} {c : Commitment}

theorem amountDue_ticketInfo {price due : Int} (hp : ps[k]? = some p)
    (hdue : calcTicketReturnAmount (commitmentOf p.1.pkScript).amount price voteSubsidy
      (wrappedSum ps) = .ok due) : amountDue (ticketInfo ps) price voteSubsidy k = some due := by
  rw [ticketInfo_eq, amountDue]
  have hsome := congrArg Except.toOption hdue
  simpa [wrappedSum, contributions, hp, Except.toOption] using hsome

theorem feeRule_ticketInfo (hp : ps[k]? = some p) :
    feeRule (ticketInfo ps) isVote k = some (if isVote then
      ((commitmentOf p.1.pkScript).rules.1, (commitmentOf p.1.pkScript).feeLimits.1)
      else ((commitmentOf p.1.pkScript).rules.2, (commitmentOf p.1.pkScript).feeLimits.2)) := by
  rw [ticketInfo_eq, feeRule]
  simp [commitmentsOf, hp]

/-- **All payouts** are checked. -/
theorem checkTicketRedeemerCommitments_eq_ok (hlen : ∀ p ∈ ps, 32 ≤ p.1.pkScript.length) :
    checkTicketRedeemerCommitments (first :: inPairs ps) msgTx isVote voteSubsidy = .ok () ↔
      ∀ (k : Nat) out, (payouts isVote msgTx)[k]? = some out →
        checkPayee (first :: inPairs ps) isVote voteSubsidy first.value (wrappedSum ps) (out, k) =
          .ok () := by
  rw [checkTicketRedeemerCommitments, contributionSum_eq hlen, ok_bind,
    Slice.get_eq (show (first :: inPairs ps)[submissionOutputIdx]? = some first from rfl), ok_bind,
    forM_eq_ok]
  constructor
  · intro h k out hout
    exact h (out, k) (mem_zipIdx_iff_getElem?.2 hout)
  · rintro h ⟨out, k⟩ hmem
    exact h k out (mem_zipIdx_iff_getElem?.1 hmem)

/-- The limit for votes is enforced. -/
theorem feeAllowed_vote (h : checkPayeeValue value due (limitAsRead true c) = .ok ()) :
    FeeAllowed c.rules.1 c.feeLimits.1 due value := by
  rw [checkPayeeValue_eq_ok, limitAsRead] at h
  unfold FeeAllowed
  cases hrule : c.rules.1 with
  | false => simpa [hrule] using h
  | true =>
    simp only [hrule, if_true] at h ⊢
    have hlt : c.feeLimits.1 < 64 := vote_limit_lt c.limits
    exact ⟨h.1, fun hne => h.2.2 (by omega)⟩

/-- The limit for revocations is enforced if it is 0, or does not say anything. -/
theorem feeAllowed_revocation
    (hread : c.rules.2 = true → c.feeLimits.2 = 0 ∨ c.feeLimits.2 = 63 ∨ due ≤ 2 ^ c.feeLimits.2)
    (h : checkPayeeValue value due (limitAsRead false c) = .ok ()) :
    FeeAllowed c.rules.2 c.feeLimits.2 due value := by
  rw [checkPayeeValue_eq_ok, limitAsRead] at h
  unfold FeeAllowed
  cases hrule : c.rules.2 with
  | false => simpa [hrule] using h
  | true =>
    simp only [hrule, if_true, Bool.false_eq_true, if_false] at h ⊢
    obtain ⟨hle, h0, hlow⟩ := h
    refine ⟨hle, fun hne => ?_⟩
    rcases hread hrule with hzero | hfull | hdue
    · rw [hzero] at hlow ⊢
      exact hlow (by omega)
    · exact absurd hfull hne
    · omega

/-- Any other limit is no limit. -/
theorem checkPayeeValue_zero (hrule : c.rules.2 = true) (hlimit : c.feeLimits.2 ≠ 0)
    (hdue : 0 ≤ due) : checkPayeeValue 0 due (limitAsRead false c) = .ok () := by
  rw [checkPayeeValue_eq_ok, limitAsRead]
  simp only [hrule, if_true, Bool.false_eq_true, if_false]
  exact ⟨hdue, le_rfl, fun hlt => by omega⟩

section

variable (hlen : ∀ p ∈ ps, 32 ≤ p.1.pkScript.length)
  (h : checkTicketRedeemerCommitments (first :: inPairs ps) msgTx isVote voteSubsidy = .ok ())

include hlen h

/-- A payout of an accepted vote or revocation goes where the ticket commits to. -/
theorem paysTo_of_accepted {out : TxOut} (hout : (payouts isVote msgTx)[k]? = some out) :
    PaysTo (ticketInfo ps) isVote k out := by
  obtain ⟨p, due, hp, hversion, hpayment, -⟩ :=
    (checkPayee_eq_ok hlen).1 ((checkTicketRedeemerCommitments_eq_ok hlen).1 h k out hout)
  refine ⟨_, _, ?_, ?_, hversion, paymentHash_eq_ok hpayment⟩
  · simp [ticketInfo_eq, commitmentsOf, hp]
  · simp [ticketInfo_eq, commitmentsOf, hp]

/-- **The limits are enforced** if the spend is a vote or the limit is read. -/
theorem paysDue_of_accepted {out : TxOut} (hout : (payouts isVote msgTx)[k]? = some out)
    (hread : isVote = true ∨ LimitRead (ticketInfo ps) first.value voteSubsidy k) :
    PaysDue (ticketInfo ps) first.value voteSubsidy isVote k out := by
  obtain ⟨p, due, hp, -, -, hdue, hvalue⟩ :=
    (checkPayee_eq_ok hlen).1 ((checkTicketRedeemerCommitments_eq_ok hlen).1 h k out hout)
  have hamount := amountDue_ticketInfo hp hdue
  refine ⟨due, _, hamount, feeRule_ticketInfo hp, ?_⟩
  cases isVote with
  | true => exact feeAllowed_vote hvalue
  | false =>
    refine feeAllowed_revocation (fun hrule => ?_) hvalue
    refine (hread.resolve_left (by simp)) _ due ?_ hamount
    rw [feeRule_ticketInfo hp]
    simp [hrule]

end

/-- **A limit that is not read**: one of the payouts can be given up. -/
theorem exists_accepted (hlen : ∀ p ∈ ps, 32 ≤ p.1.pkScript.length)
    (h : checkTicketRedeemerCommitments (first :: inPairs ps) msgTx false voteSubsidy = .ok ())
    (hk : k < (payouts false msgTx).length)
    (hread : ¬ LimitRead (ticketInfo ps) first.value voteSubsidy k) :
    ∃ msgTx' out, msgTx'.txOut.length = msgTx.txOut.length ∧
      checkTicketRedeemerCommitments (first :: inPairs ps) msgTx' false voteSubsidy = .ok () ∧
      (payouts false msgTx')[k]? = some out ∧
      ¬ PaysDue (ticketInfo ps) first.value voteSubsidy false k out := by
  obtain ⟨out, hout⟩ : ∃ out, (payouts false msgTx)[k]? = some out :=
    ⟨_, List.getElem?_eq_getElem hk⟩
  have hchecked := (checkTicketRedeemerCommitments_eq_ok hlen).1 h
  obtain ⟨p, due, hp, hversion, hpayment, hdue, -⟩ :=
    (checkPayee_eq_ok hlen).1 (hchecked k out hout)
  have hamount := amountDue_ticketInfo hp hdue
  simp only [LimitRead, not_forall, not_or] at hread
  obtain ⟨limit, due', hrule, hdue', hzero, hfull, hlow⟩ := hread
  cases hamount.symm.trans hdue'
  rw [feeRule_ticketInfo hp] at hrule
  obtain ⟨hflag, rfl⟩ := Prod.mk.inj (Option.some.inj hrule)
  have hpow : (0 : Int) < 2 ^ (commitmentOf p.1.pkScript).feeLimits.2 := by positivity
  refine ⟨{ msgTx with txOut := msgTx.txOut.set k { out with value := 0 } },
    { out with value := 0 }, length_set, ?_, ?_, ?_⟩
  · refine (checkTicketRedeemerCommitments_eq_ok hlen).2 fun j out' hout' => ?_
    by_cases hj : k = j
    · subst hj
      obtain ⟨-, rfl⟩ : k < msgTx.txOut.length ∧ { out with value := 0 } = out' := by
        simpa [payouts, List.getElem?_set] using hout'
      exact (checkPayee_eq_ok hlen).2 ⟨p, due, hp, hversion, hpayment, hdue,
        checkPayeeValue_zero hflag hzero (by omega)⟩
    · refine hchecked j out' ?_
      simpa [payouts, List.getElem?_set, hj] using hout'
  · have hlt : k < msgTx.txOut.length := hk
    simp [payouts, hlt]
  · rintro ⟨due', rule, hdue', hrule', hallowed⟩
    cases hamount.symm.trans hdue'
    rw [feeRule_ticketInfo hp] at hrule'
    cases hrule'
    simp only [FeeAllowed, hflag, Bool.false_eq_true, if_false, if_true] at hallowed
    have := hallowed.2 hfull
    omega

end Redeemers

/-- **Limits on fees.** Every payout goes where the ticket commits to. The limits on fees are
enforced for votes, and for revocations exactly if no limit is one that is not read. -/
theorem feeLimits_enforced_iff {ticket : MsgTx} (hticket : checkSStx ticket = .ok ())
    {isVote : Bool} {voteSubsidy : Int} {msgTx : MsgTx}
    (haccepted : checkTicketRedeemerCommitments (convertToMinimalOutputs ticket) msgTx isVote
      voteSubsidy = .ok ()) :
    ∃ info first, sstxStakeOutputInfo (convertToMinimalOutputs ticket) = .ok info ∧
      ticket.txOut[submissionOutputIdx]? = some first ∧
      (∀ (k : Nat) out, (payouts isVote msgTx)[k]? = some out → PaysTo info isVote k out) ∧
      ((∀ msgTx', msgTx'.txOut.length = msgTx.txOut.length →
        checkTicketRedeemerCommitments (convertToMinimalOutputs ticket) msgTx' isVote voteSubsidy =
          .ok () →
        ∀ (k : Nat) out, (payouts isVote msgTx')[k]? = some out →
          PaysDue info first.value voteSubsidy isVote k out) ↔
        isVote = true ∨
          ∀ k < (payouts isVote msgTx).length, LimitRead info first.value voteSubsidy k) := by
  obtain ⟨first, ps, houts, -, hlen⟩ := ((checkSStx_safely ticket).of_eq_ok hticket).outputs
  rw [convertToMinimalOutputs, houts] at haccepted ⊢
  refine ⟨ticketInfo ps, first, sstxStakeOutputInfo_eq hlen, rfl,
    fun k out => paysTo_of_accepted hlen haccepted, ?_⟩
  constructor
  · intro h
    by_contra hc
    simp only [not_or, not_forall, Bool.not_eq_true] at hc
    obtain ⟨rfl, k, hk, hread⟩ := hc
    obtain ⟨msgTx', out, hlength, hok, hout, hnot⟩ := exists_accepted hlen haccepted hk hread
    exact hnot (h msgTx' hlength hok k out hout)
  · intro h msgTx' hlength hok k out hout
    refine paysDue_of_accepted hlen hok hout (h.imp_right fun hread => hread k ?_)
    have hlt := (List.getElem?_eq_some_iff.1 hout).1
    simpa [payouts, hlength] using hlt

/-- The payout of a vote to a public key hash of zeros. -/
def voteOf (value : Int) : MsgTx :=
  ⟨1, [], [⟨0, 0, []⟩, ⟨0, 0, []⟩, ⟨value, 0, OP_SSGEN :: zeroPubKeyHashScript⟩], 0⟩

/-- A ticket whose votes may take a fee of two atoms. -/
theorem feeLimits_enforced_vote :
    checkTicketRedeemerCommitments (convertToMinimalOutputs (ticketAt 4 4 0x0041 1)) (voteOf 5) true
      3 = .ok () ∧
    ∃ info first, sstxStakeOutputInfo (convertToMinimalOutputs (ticketAt 4 4 0x0041 1)) = .ok info ∧
      (ticketAt 4 4 0x0041 1).txOut[submissionOutputIdx]? = some first ∧
      ∀ (k : Nat) out, (payouts true (voteOf 5))[k]? = some out →
        PaysTo info true k out ∧ PaysDue info first.value 3 true k out := by
  have haccepted : checkTicketRedeemerCommitments
      (convertToMinimalOutputs (ticketAt 4 4 0x0041 1)) (voteOf 5) true 3 = .ok () := by
    decide +kernel
  obtain ⟨info, first, hinfo, hfirst, hpays, hdue⟩ := feeLimits_enforced_iff
    (by decide +kernel : checkSStx (ticketAt 4 4 0x0041 1) = .ok ()) haccepted
  exact ⟨haccepted, info, first, hinfo, hfirst, fun k out hout =>
    ⟨hpays k out hout, hdue.2 (.inl rfl) _ rfl haccepted k out hout⟩⟩

/-- A revocation that pays to a public key hash of zeros. -/
def revocationOf (value : Int) : MsgTx :=
  ⟨1, [], [⟨value, 0, OP_SSRTX :: zeroPubKeyHashScript⟩], 0⟩

/-- A ticket for 100 coins that limits the fees of revocations to 2^24 atoms. -/
def limitedTicket : MsgTx := ticketAt (100 * 10 ^ 8) (100 * 10 ^ 8) 0x5800 0

/-- The ticket is revoked without paying anything. -/
theorem feeLimits_ignored : checkSStx limitedTicket = .ok () ∧
    checkTicketRedeemerCommitments (convertToMinimalOutputs limitedTicket) (revocationOf 0) false
      0 = .ok () ∧
    ∃ info, sstxStakeOutputInfo (convertToMinimalOutputs limitedTicket) = .ok info ∧
      feeRule info false 0 = some (true, 24) ∧
      amountDue info (100 * 10 ^ 8) 0 0 = some (100 * 10 ^ 8) ∧
      ¬ FeeAllowed true 24 (100 * 10 ^ 8) 0 := by
  refine ⟨by decide +kernel, by decide +kernel, ?_⟩
  have hrun : (do
      let info ← sstxStakeOutputInfo (convertToMinimalOutputs limitedTicket)
      .ok (feeRule info false 0, amountDue info (100 * 10 ^ 8) 0 0)) =
      .ok (some (true, 24), some (100 * 10 ^ 8)) := by
    decide +kernel
  obtain ⟨info, hinfo, hread⟩ := bind_eq_ok.1 hrun
  obtain ⟨hrule, hdue⟩ := Prod.mk.inj (ok.inj hread)
  exact ⟨info, hinfo, hrule, hdue, by decide⟩

end Fnod
