import Mathlib.Algebra.Order.BigOperators.Group.List
import Mathlib.Algebra.Order.Ring.Nat
import Fnod.Stake.Mirror

/-!
# The size of the ticket pool

Every block takes the winners of its parent and the tickets that expire out of the pool of live
tickets, and puts the tickets that mature into it (`liveSize_connect_le`). A live ticket was put
there by one of the last blocks, for the older ones have expired (`Origin`).

**Theorem (`liveSize_le`).** With at most `m` new tickets a block, the pool never holds more than
`m` for every block of the expiry period.
-/

namespace Fnod

open List OrdMap UndoTicketData

/-! ## One block -/

/-- The record of a ticket that leaves the pool. -/
def UndoTicketData.leaves (u : UndoTicketData) : Bool := !u.isNew && !u.revoked

theorem Fits.liveSize {s : Pool} {u : UndoTicketData} (hu : Fits s u) :
    (redo s u).live.size + (if u.leaves then 1 else 0) =
      s.live.size + if u.isNew then 1 else 0 := by
  cases hu with
  | new hk =>
    rw [redo_new]
    simp [size_insert _ hk, leaves, isNew, undoOf]
  | spent hk hv =>
    have hsize := size_erase hk
    rw [redo_spent hv]
    simp [leaves, isNew, undoOf, hv.2.1]
    omega
  | missed e hk hv hm =>
    have hsize := size_erase hk
    rw [redo_missed hv]
    simp [leaves, isNew, undoOf, hv.2.1]
    omega
  | revoked hk hv hm =>
    rw [redo_revoked hv]
    simp [leaves, isNew, undoOf]

theorem Steps.liveSize {s s' : Pool} {us : List UndoTicketData} (hst : Steps s us s') :
    s'.live.size + us.countP (·.leaves) = s.live.size + us.countP (·.isNew) := by
  induction hst with
  | nil => simp
  | @snoc us s' u _ hu ih =>
    have h := hu.liveSize
    rw [countP_append, countP_append, countP_singleton, countP_singleton]
    omega

namespace Trace

variable {params : Params} {n c : StakeNode Tickets} {voted revoked new : List Hash}
  (tr : Trace params n voted revoked new c)

theorem ws_leave : ∀ u ∈ tr.ws, u.leaves = true := by
  intro u hu
  have hold := tr.ws_old u hu
  obtain ⟨t, -, -, hwin, -⟩ := tr.won.exists_left hu
  obtain ⟨_, hfits⟩ := tr.moves₁.steps.exists_fits hu
  cases hfits with
  | new _ => simp [isNew, undoOf] at hold
  | spent _ hv => simp [leaves, isNew, undoOf, hv.2.1]
  | missed e _ hv _ => simp [leaves, isNew, undoOf, hv.2.1]
  | revoked _ hv _ => simp [winner, undoOf, hv.1] at hwin

theorem es_leave : ∀ u ∈ tr.es, u.leaves = true := by
  intro u hu
  obtain ⟨t, -, -, -, -, -, hrev⟩ := tr.expired.exists_left hu
  simp [leaves, tr.es_old u hu, hrev]

theorem rs_stay : ∀ u ∈ tr.rs, u.leaves = false := by
  intro u hu
  obtain ⟨t, -, -, -, hrev⟩ := tr.revoked.exists_left hu
  simp [leaves, hrev]

theorem liveSize : c.liveTickets.size + (tr.ws.length + tr.es.length) =
    n.liveTickets.size + new.length := by
  have hsize := tr.steps.liveSize
  have hnew : tr.ns.countP (·.isNew) = new.length := by
    rw [countP_eq_length.2 tr.ns_new, ← tr.added.length_eq]
  have hns : tr.ns.countP (·.leaves) = 0 :=
    countP_eq_zero.2 fun u hu => by simp [leaves, tr.ns_new u hu]
  have hold : (tr.ws ++ tr.es ++ tr.rs).countP (·.isNew) = 0 :=
    countP_eq_zero.2 fun u hu => by simp [tr.old_old u hu]
  have hrs : tr.rs.countP (·.leaves) = 0 := countP_eq_zero.2 fun u hu => by simp [tr.rs_stay u hu]
  rw [tr.undo_eq] at hsize
  rw [countP_append, countP_append, countP_append, countP_append, hns, hrs, hold, hnew,
    countP_eq_length.2 tr.ws_leave,
    countP_eq_length.2 tr.es_leave] at hsize
  change c.liveTickets.size + _ = n.liveTickets.size + _ at hsize
  omega

end Trace

/-! ## Runs -/

section Runs

variable [Blake256] {fuel : Nat} {params : Params} {n n' : StakeNode Tickets}
  {b : StakeBlock} {bs : List StakeBlock}

/-- A block adds its new tickets to the pool, and nothing else. -/
theorem liveSize_connect_le (hflag : n.pool.Flagged)
    (h : connectNode fuel params n b.lotteryIV b.ticketsVoted b.revokedTickets b.newTickets =
      .ok n') : n'.liveTickets.size ≤ n.liveTickets.size + b.newTickets.length := by
  obtain ⟨c, ⟨tr⟩, -, hpool, -⟩ := connectNode_spec hflag h
  have hsize := tr.liveSize
  have hlive : n'.liveTickets = c.liveTickets := congrArg Pool.live hpool
  rw [hlive]
  omega

/-- No block adds tickets before they can be live. -/
def AddsLate (params : Params) (bs : List StakeBlock) : Prop :=
  ∀ b rest, (b :: rest) <:+ bs → rest.length + 1 < params.stakeEnabledHeight → b.newTickets = []

/-- Where a live ticket comes from: a block that is not older than the expiry. -/
def Origin (params : Params) (bs : List StakeBlock) (n : StakeNode Tickets) : Prop :=
  ∀ k v, n.liveTickets.get? k = some v →
    params.stakeEnabledHeight ≤ n.height ∧ n.height < v.height + params.ticketExpiry ∧
      ∃ b rest, (b :: rest) <:+ bs ∧ k ∈ b.newTickets ∧ v.height = rest.length + 1

theorem Origin.connect (horigin : Origin params bs n) (hbase : BaseInv fuel params n bs)
    (hlate : AddsLate params (b :: bs))
    (h : connectNode fuel params n b.lotteryIV b.ticketsVoted b.revokedTickets b.newTickets =
      .ok n') : Origin params (b :: bs) n' := by
  obtain ⟨c, ⟨tr⟩, hn', hpool, -⟩ := connectNode_spec hbase.flagged h
  intro k v hk
  rw [show n'.liveTickets = c.liveTickets from congrArg Pool.live hpool] at hk
  rcases tr.moves₄.steps.live hk with hold | ⟨u, hu, -, hku, hvu⟩
  · -- a ticket of the parent, which this block has not found to be expired
    obtain ⟨hen, hyoung, b₀, rest, hs, hmem, hv⟩ := horigin k v
      (tr.old_moves.steps.live_of_old tr.old_old hold)
    have hnew := tr.young_of_live (by omega) hold
    unfold toExpireHeight at hnew
    exact ⟨by omega, by split_ifs at hnew <;> omega, b₀, rest, hs.trans (suffix_cons b bs),
      hmem, hv⟩
  · obtain ⟨t, ht, rfl⟩ := tr.added.exists_left hu
    have hen : params.stakeEnabledHeight ≤ n.height + 1 := by
      by_contra hlt
      rw [hlate b bs (suffix_refl _) (by rw [← hbase.height]; omega)] at ht
      cases ht
    have hexpiry := params.ticketExpiry_pos
    simp only [ticketHash_undoOf, value_undoOf] at hku hvu
    subst hku hvu
    refine ⟨by omega, ?_, b, bs, suffix_refl _, ht, by rw [hbase.height]⟩
    change n'.height < n.height + 1 + params.ticketExpiry
    omega

theorem replay_origin (h : replay fuel params bs = .ok n) (hlate : AddsLate params bs) :
    Origin params bs n := by
  induction bs generalizing n with
  | nil => cases h; exact nofun
  | cons b bs ih =>
    obtain ⟨n₀, h₀, h⟩ := Except.bind_eq_ok.1 h
    have hlate₀ : AddsLate params bs := fun b' rest hs =>
      hlate b' rest (hs.trans (suffix_cons b bs))
    exact (ih h₀ hlate₀).connect (replay_base h₀) hlate h

/-- **The size of the pool.** -/
theorem liveSize_le {m : Nat} (h : replay fuel params bs = .ok n) (hlate : AddsLate params bs)
    (hfew : ∀ b ∈ bs, b.newTickets.length ≤ m) : n.liveTickets.size ≤ params.ticketExpiry * m := by
  have horigin := replay_origin h hlate
  have hheight := (replay_base h).height
  have hsub : n.liveTickets.keys ⊆ (bs.take params.ticketExpiry).flatMap (·.newTickets) := by
    intro k hk
    obtain ⟨v, hv⟩ := mem_keys.1 hk
    obtain ⟨-, hyoung, b, rest, ⟨above, rfl⟩, hmem, hvh⟩ := horigin k v hv
    have habove : above.length < params.ticketExpiry := by
      simp only [length_append, length_cons] at hheight
      omega
    refine mem_flatMap.2 ⟨b, ?_, hmem⟩
    obtain ⟨d, hd⟩ := Nat.exists_eq_add_of_lt habove
    rw [hd, show above.length + d + 1 = above.length + (d + 1) by omega, take_length_add_append]
    simp
  calc n.liveTickets.size = n.liveTickets.keys.length := (length_map _).symm
    _ ≤ ((bs.take params.ticketExpiry).flatMap (·.newTickets)).length :=
      (subperm_of_subset n.liveTickets.keys_nodup hsub).length_le
    _ ≤ (bs.take params.ticketExpiry).length * m := by
      rw [length_flatMap]
      refine (sum_le_card_nsmul _ m ?_).trans (by simp)
      intro x hx
      obtain ⟨b, hb, rfl⟩ := mem_map.1 hx
      exact hfew b (mem_of_mem_take hb)
    _ ≤ params.ticketExpiry * m := Nat.mul_le_mul_right _ (length_take_le _ _)

end Runs

end Fnod
