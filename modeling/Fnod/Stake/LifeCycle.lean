import Fnod.Stake.Moves

/-!
# The life cycle of a ticket

A run connects blocks to the genesis node, one after the other, with new tickets that never repeat.
After every block a ticket that was ever added is live, missed or revoked, in exactly one of the
three sets and with the flags of that set, unless a block voted with it; no live ticket is past its
expiry once staking is enabled; and from one block before stake validation height on the winners
are `TicketsPerBlock` distinct live tickets.

`StakeInv` is the invariant on nodes over maps. A block preserves it because its moves do:
`exclusive_redo` and `held_redo` say what one move does to the sets, and the phases of the trace are
put together in `StakeInv.connect`.

**Theorem (`replay_lifeCycle`).** The life cycle of tickets, on treaps, along every run.
-/

namespace Fnod

open Except List OrdMap Pool UndoTicketData

/-! ## Chains of blocks -/

/-- The tickets that became live in some block of the chain. -/
def addedTickets : List StakeBlock → List Hash
  | [] => []
  | b :: bs => addedTickets bs ++ b.newTickets

theorem addedTickets_of_suffix {bs bs' : List StakeBlock} (h : bs' <:+ bs) :
    addedTickets bs' <+: addedTickets bs := by
  induction bs with
  | nil => exact suffix_nil.1 h ▸ prefix_refl _
  | cons b bs ih =>
    rcases suffix_cons_iff.1 h with rfl | h
    · exact prefix_refl _
    · exact (ih h).trans (prefix_append _ _)

theorem newTickets_subset_addedTickets {b : StakeBlock} {bs : List StakeBlock} (h : b ∈ bs) :
    b.newTickets ⊆ addedTickets bs := by
  induction bs with
  | nil => cases h
  | cons b' bs ih =>
    rcases mem_cons.1 h with rfl | h
    · exact subset_append_right _ _
    · exact List.Subset.trans (ih h) (subset_append_left _ _)

/-- The tickets that blocks of the chain voted with. Before `StakeEnabledHeight` the votes of a
block are ignored. -/
def votedTickets (params : Params) : List StakeBlock → List Hash
  | [] => []
  | b :: bs => votedTickets params bs ++
      if params.stakeEnabledHeight ≤ bs.length + 1 then b.ticketsVoted else []

/-- The lottery seed of the newest block; the genesis block has none that matters. -/
def lastIV : List StakeBlock → Hash
  | [] => default
  | b :: _ => b.lotteryIV

/-! ## One move -/

/-- The ticket is in one of the sets. -/
def Cell.Held (c : Cell) : Prop := c.live.isSome ∨ c.missed.isSome ∨ c.revoked.isSome

/-- The ticket is in at most one of the sets. -/
structure Cell.Exclusive (c : Cell) : Prop where
  live : c.live.isSome → c.missed = none ∧ c.revoked = none
  missed : c.missed.isSome → c.revoked = none

theorem Cell.Exclusive.disjoint {c : Cell} (h : c.Exclusive) :
    ¬ (c.live.isSome ∧ c.missed.isSome) ∧ ¬ (c.live.isSome ∧ c.revoked.isSome) ∧
      ¬ (c.missed.isSome ∧ c.revoked.isSome) := by
  refine ⟨fun ⟨h1, h2⟩ => ?_, fun ⟨h1, h2⟩ => ?_, fun ⟨h1, h2⟩ => ?_⟩
  · rw [(h.live h1).1] at h2; cases h2
  · rw [(h.live h1).2] at h2; cases h2
  · rw [h.missed h1] at h2; cases h2

/-- The record of a ticket that became live. -/
def UndoTicketData.isNew (u : UndoTicketData) : Bool := !u.missed && !u.revoked && !u.spent

variable {s s' : Pool} {k : Hash} {v : TicketValue} {u : UndoTicketData} {us : List UndoTicketData}
  {params : Params} {n : StakeNode Tickets} {voted revoked new : List Hash} {fuel : Nat}

theorem cell_redo_self_new {h : Nat} : (redo s (undoOf k ⟨h, false, false, false, false⟩)).cell k =
      ⟨some ⟨h, false, false, false, false⟩, s.missed.get? k, s.revoked.get? k⟩ := by
  simp [redo_new, cell]

theorem cell_redo_self_spent (hv : v.IsLive) : (redo s (undoOf k { v with spent := true })).cell k =
      ⟨none, s.missed.get? k, s.revoked.get? k⟩ := by
  simp [redo_spent hv, cell]

theorem cell_redo_self_missed (hv : v.IsLive) (e : Bool) :
    (redo s (undoOf k { v with missed := true, expired := e })).cell k =
      ⟨none, some { v with missed := true, expired := e }, s.revoked.get? k⟩ := by
  simp [redo_missed hv, cell]

theorem cell_redo_self_revoked (hv : v.IsMissed) :
    (redo s (undoOf k { v with revoked := true })).cell k =
      ⟨s.live.get? k, none, some { v with revoked := true }⟩ := by
  simp [redo_revoked hv, cell]

/-- A move keeps the sets apart, if a ticket that becomes live was in none. -/
theorem exclusive_redo (hu : Fits s u) (hs : ∀ k, (s.cell k).Exclusive)
    (hnew : u.isNew = true → ¬ (s.cell u.ticketHash).Held) (k : Hash) :
    ((redo s u).cell k).Exclusive := by
  by_cases hk : k = u.ticketHash
  · subst hk
    have hx := hs u.ticketHash
    cases hu with
    | new h =>
      have hnot := hnew rfl
      simp only [Cell.Held, cell, not_or, Option.not_isSome_iff_eq_none] at hnot
      simp only [ticketHash_undoOf] at hnot ⊢
      rw [cell_redo_self_new]
      exact ⟨fun _ => ⟨hnot.2.1, hnot.2.2⟩, fun hm => by simp [hnot.2.1] at hm⟩
    | spent h hv =>
      simp only [ticketHash_undoOf] at hx ⊢
      rw [cell_redo_self_spent hv]
      exact ⟨fun hl => by simp at hl, hx.missed⟩
    | missed e h hv h' =>
      simp only [ticketHash_undoOf] at hx ⊢
      rw [cell_redo_self_missed hv]
      exact ⟨fun hl => by simp at hl, fun _ => (hx.live (by simp [cell, h])).2⟩
    | revoked h hv h' =>
      simp only [ticketHash_undoOf] at hx ⊢
      rw [cell_redo_self_revoked hv]
      refine ⟨fun hl => ?_, fun hm => by simp at hm⟩
      have hm := (hx.live hl).1
      simp [cell, h] at hm
  · rw [cell_redo_of_ne hk]
    exact hs k

/-- Only spending takes a ticket out of the sets, and only becoming live brings one in. -/
theorem held_redo (hu : Fits s u) (hs : ∀ k, (s.cell k).Exclusive) (k : Hash) :
    ((redo s u).cell k).Held ↔
      ((s.cell k).Held ∧ ¬ (k = u.ticketHash ∧ u.spent = true)) ∨
        (k = u.ticketHash ∧ u.isNew = true) := by
  by_cases hk : k = u.ticketHash
  · subst hk
    have hx := hs u.ticketHash
    cases hu with
    | new h =>
      simp only [ticketHash_undoOf]
      rw [cell_redo_self_new]
      simp [Cell.Held, isNew, undoOf]
    | spent h hv =>
      simp only [ticketHash_undoOf] at hx ⊢
      have hnone := hx.live (by simp [cell, h])
      rw [cell_redo_self_spent hv]
      simp only [cell] at hnone
      simp [Cell.Held, isNew, undoOf, hnone.1, hnone.2]
    | missed e h hv h' =>
      simp only [ticketHash_undoOf]
      rw [cell_redo_self_missed hv]
      simp [Cell.Held, isNew, undoOf, cell, h, hv.2.2.1]
    | revoked h hv h' =>
      simp only [ticketHash_undoOf]
      rw [cell_redo_self_revoked hv]
      simp [Cell.Held, isNew, undoOf, cell, h, hv.2.2]
  · rw [cell_redo_of_ne hk]
    simp [hk]

/-! ## A chain of moves -/

/-- Moves of tickets that were held before: the sets stay apart, and what leaves them was spent. -/
theorem Steps.held_of_old (h : Steps s us s') (hs : ∀ k, (s.cell k).Exclusive)
    (hold : ∀ u ∈ us, u.isNew = false) : (∀ k, (s'.cell k).Exclusive) ∧
      ∀ k, (s'.cell k).Held ↔ (s.cell k).Held ∧ ¬ ∃ u ∈ us, k = u.ticketHash ∧ u.spent = true := by
  induction h with
  | nil => exact ⟨hs, by simp⟩
  | @snoc us s' u hst hu ih =>
    obtain ⟨hx, hheld⟩ := ih fun w hw => hold w (mem_append_left _ hw)
    have hnew : u.isNew = false := hold u (by simp)
    refine ⟨exclusive_redo hu hx (by simp [hnew]), fun k => ?_⟩
    rw [held_redo hu hx, hheld, hnew]
    simp only [mem_append, mem_singleton, Bool.false_eq_true, and_false, or_false]
    constructor
    · rintro ⟨⟨h1, h2⟩, h3⟩
      refine ⟨h1, ?_⟩
      rintro ⟨w, hw | rfl, hw'⟩
      · exact h2 ⟨w, hw, hw'⟩
      · exact h3 hw'
    · rintro ⟨h1, h2⟩
      exact ⟨⟨h1, fun ⟨w, hw, hw'⟩ => h2 ⟨w, Or.inl hw, hw'⟩⟩, fun h => h2 ⟨u, Or.inr rfl, h⟩⟩

/-- Moves of new tickets that were in none of the sets: the sets stay apart and grow by them. -/
theorem Steps.held_of_new (h : Steps s us s') (hs : ∀ k, (s.cell k).Exclusive)
    (hall : ∀ u ∈ us, u.isNew = true)
    (hnd : (us.map (·.ticketHash)).Nodup) (hfresh : ∀ u ∈ us, ¬ (s.cell u.ticketHash).Held) :
    (∀ k, (s'.cell k).Exclusive) ∧
      ∀ k, (s'.cell k).Held ↔ (s.cell k).Held ∨ k ∈ us.map (·.ticketHash) := by
  induction h with
  | nil => exact ⟨hs, by simp⟩
  | @snoc us s' u hst hu ih =>
    rw [map_append, nodup_append] at hnd
    obtain ⟨hx, hheld⟩ := ih (fun w hw => hall w (mem_append_left _ hw)) hnd.1
      fun w hw => hfresh w (mem_append_left _ hw)
    have hnew : u.isNew = true := hall u (by simp)
    have hns : u.spent = false := by
      simp only [isNew, Bool.and_eq_true, Bool.not_eq_true'] at hnew
      exact hnew.2
    have hnot : ¬ (s'.cell u.ticketHash).Held := by
      rw [hheld, not_or]
      exact ⟨hfresh u (by simp), fun hm => hnd.2.2 _ hm _ (by simp) rfl⟩
    refine ⟨exclusive_redo hu hx fun _ => hnot, fun k => ?_⟩
    rw [held_redo hu hx, hheld, hnew, hns]
    simp [or_assoc]

/-- What is held after a chain of moves was held before, or became live by one of them. -/
theorem Steps.held (hst : Steps s us s') (h : (s'.cell k).Held) :
    (s.cell k).Held ∨ ∃ u ∈ us, u.isNew = true ∧ k = u.ticketHash := by
  induction hst with
  | nil => exact Or.inl h
  | @snoc us s' u _ hu ih =>
    by_cases hk : k = u.ticketHash
    · by_cases hnew : u.isNew = true
      · exact Or.inr ⟨u, by simp, hnew, hk⟩
      · have hold : (s'.cell k).Held := by
          subst hk
          cases hu with
          | new _ => exact absurd rfl hnew
          | spent hg _ => exact Or.inl (by simp [cell, hg])
          | missed _ hg _ _ => exact Or.inl (by simp [cell, hg])
          | revoked hg _ _ => exact Or.inr (Or.inl (by simp [cell, hg]))
        rcases ih hold with h | ⟨w, hw, hw'⟩
        · exact Or.inl h
        · exact Or.inr ⟨w, mem_append_left _ hw, hw'⟩
    · rw [cell_redo_of_ne hk] at h
      rcases ih h with h | ⟨w, hw, hw'⟩
      · exact Or.inl h
      · exact Or.inr ⟨w, mem_append_left _ hw, hw'⟩

/-- What is live after a move was live before, or became live by it. -/
theorem live_redo (hu : Fits s u) (h : (redo s u).live.get? k = some v) :
    s.live.get? k = some v ∨ (u.isNew = true ∧ k = u.ticketHash ∧ v = u.value) := by
  by_cases hk : k = u.ticketHash
  · subst hk
    replace h : ((redo s u).cell u.ticketHash).live = some v := h
    cases hu with
    | new _ =>
      simp only [ticketHash_undoOf, cell_redo_self_new, Option.some.injEq] at h
      exact Or.inr ⟨rfl, rfl, h.symm⟩
    | spent _ hv => simp [cell_redo_self_spent hv] at h
    | missed e _ hv _ => simp [cell_redo_self_missed hv] at h
    | revoked _ hv _ =>
      simp only [ticketHash_undoOf, cell_redo_self_revoked hv] at h
      exact Or.inl h
  · have hc := congrArg Cell.live (cell_redo_of_ne (s := s) hk)
    exact Or.inl (hc.symm.trans h)

theorem Steps.live (hst : Steps s us s') (h : s'.live.get? k = some v) :
    s.live.get? k = some v ∨ ∃ u ∈ us, u.isNew = true ∧ k = u.ticketHash ∧ v = u.value := by
  induction hst with
  | nil => exact Or.inl h
  | @snoc us s' u _ hu ih =>
    rcases live_redo hu h with h | hnew
    · rcases ih h with h | ⟨w, hw, hw'⟩
      · exact Or.inl h
      · exact Or.inr ⟨w, mem_append_left _ hw, hw'⟩
    · exact Or.inr ⟨u, by simp, hnew⟩

theorem Steps.live_of_old (hst : Steps s us s') (hold : ∀ u ∈ us, u.isNew = false)
    (h : s'.live.get? k = some v) : s.live.get? k = some v := by
  rcases hst.live h with h | ⟨u, hu, hnew, -⟩
  · exact h
  · simp [hold u hu] at hnew

/-- A ticket that was missed is no longer live. -/
theorem Steps.not_live (hst : Steps s us s') (hold : ∀ u ∈ us, u.isNew = false) (hu : u ∈ us)
    (hrev : u.revoked = false) : s'.live.get? u.ticketHash = none := by
  induction hst with
  | nil => cases hu
  | @snoc us s' w hst hw ih =>
    have hold' : ∀ x ∈ us, x.isNew = false := fun x hx => hold x (mem_append_left _ hx)
    rcases mem_append.1 hu with hu | hu
    · by_contra hne
      obtain ⟨v, hv⟩ := Option.ne_none_iff_exists'.1 hne
      rcases live_redo hw hv with h | ⟨hnew, -⟩
      · rw [ih hold' hu] at h; cases h
      · simp [hold w (by simp)] at hnew
    · obtain rfl := mem_singleton.1 hu
      have hnew := hold u (by simp)
      show ((redo s' u).cell u.ticketHash).live = none
      cases hw with
      | new _ => simp [isNew, undoOf] at hnew
      | spent _ hv => simp [cell_redo_self_spent hv]
      | missed e _ hv _ => simp [cell_redo_self_missed hv]
      | revoked _ _ _ => simp [undoOf] at hrev

/-! ## The lottery -/

/-- The winners are tickets of the pool, as many and as distinct as the positions drawn. -/
theorem fetchWinners_spec {idxs : List Nat} {t : Tickets} {ws : List Hash}
    (h : fetchWinners idxs t = .ok ws) (hnd : idxs.Nodup) :
    ws.length = idxs.length ∧ ws.Nodup ∧ ∀ w ∈ ws, ∃ v, t.get? w = some v := by
  unfold fetchWinners at h
  split_ifs at h
  have hall : List.Forall₂ (fun i w => t.keys[i]? = some w) idxs ws := by
    refine (mapM_eq_ok.1 h).imp fun i w hw => ?_
    split_ifs at hw
    have hkey : t.keys[i]? = (t.toList[i]?).map Prod.fst := List.getElem?_map
    rw [hkey]
    rw [show TicketMap.getByIndex t i = t.toList[i]? from rfl] at hw
    cases ht : t.toList[i]? with
    | none => rw [ht] at hw; cases hw
    | some a => rw [ht] at hw; cases hw; rfl
  refine ⟨hall.length_eq.symm, nodup_of_positions t.keys_nodup hall hnd, fun w hw => ?_⟩
  obtain ⟨i, -, hi⟩ := hall.exists_left hw
  exact mem_keys.1 (mem_of_getElem? hi)

/-- The checksum of a node from one block before stake validation height on. -/
def Drawn [Blake256] (fuel : Nat) (params : Params) (n : StakeNode Tickets) (iv : Hash) : Prop :=
  ∃ idxs prng, findTicketIdxs fuel n.liveTickets.size params.ticketsPerBlock
    (newHash256PRNGFromIV iv) = .ok (idxs, prng) ∧ n.finalState = lotteryState n.nextWinners prng

/-- The lottery of a node: winners and checksum once there are any, nothing before. -/
structure LotteryOk [Blake256] (fuel : Nat) (params : Params) (n : StakeNode Tickets)
    (iv : Hash) : Prop where
  drawn : params.stakeValidationHeight - 1 ≤ n.height →
    n.nextWinners.length = params.ticketsPerBlock ∧ n.nextWinners.Nodup ∧
      (∀ w ∈ n.nextWinners, ∃ v, n.liveTickets.get? w = some v) ∧ Drawn fuel params n iv
  idle : n.height < params.stakeValidationHeight - 1 →
    n.nextWinners = [] ∧ n.finalState = zeroFinalState

/-- What the lottery makes of the child `c` that the moves from `n` lead to. -/
structure Finished [Blake256] (fuel : Nat) (params : Params) (n c : StakeNode Tickets) (iv : Hash)
    (n' : StakeNode Tickets) : Prop where
  height : n'.height = n.height + 1
  pool : n'.pool = c.pool
  undo : n'.databaseUndoUpdate = c.databaseUndoUpdate
  lottery : LotteryOk fuel params n' iv

theorem connectNode_spec [Blake256] {n' : StakeNode Tickets} {iv : Hash} (hn : n.pool.Flagged)
    (h : connectNode fuel params n iv voted revoked new = .ok n') :
    ∃ c, Nonempty (Trace params n voted revoked new c) ∧ Finished fuel params n c iv n' := by
  obtain ⟨c, ⟨tr⟩, h⟩ := connectNode_trace hn h
  obtain ⟨hheight, -, hw, hf⟩ := tr.moves.frame
  refine ⟨c, ⟨tr⟩, ?_⟩
  unfold connectWinners at h
  split_ifs at h with hh
  · obtain ⟨⟨idxs, prng⟩, hidx, h⟩ := bind_eq_ok.1 h
    obtain ⟨ws, hws, h⟩ := bind_eq_ok.1 h
    cases h
    obtain ⟨hlen, hnd, -⟩ := findTicketIdxs_spec hidx
    obtain ⟨hlen', hnd', hlive⟩ := fetchWinners_spec hws hnd
    exact ⟨hheight, rfl, rfl,
      ⟨fun _ => ⟨hlen'.trans hlen, hnd', hlive, idxs, prng, hidx, rfl⟩,
        fun hlt => absurd hh (not_le.2 hlt)⟩⟩
  · cases h
    exact ⟨hheight, rfl, rfl, ⟨fun hle => absurd hle hh, fun _ => ⟨hw, hf⟩⟩⟩

/-! ## The invariant -/

/-- What holds of every node of a run. -/
structure StakeInv [Blake256] (fuel : Nat) (params : Params) (n : StakeNode Tickets) (iv : Hash)
    (added spent : List Hash) : Prop where
  flagged : n.pool.Flagged
  exclusive : ∀ k, (n.pool.cell k).Exclusive
  held : ∀ k, (n.pool.cell k).Held ↔ k ∈ added ∧ k ∉ spent
  spent_sub : ∀ k ∈ spent, k ∈ added
  height : ∀ {k v}, n.liveTickets.get? k = some v → 1 ≤ v.height ∧ v.height ≤ n.height
  young : params.stakeEnabledHeight ≤ n.height →
    ∀ {k v}, n.liveTickets.get? k = some v → n.height < v.height + params.ticketExpiry
  lottery : LotteryOk fuel params n iv

theorem stakeInv_genesis [Blake256] (fuel : Nat) (params : Params) (iv : Hash) :
    StakeInv fuel params genesisNode iv [] [] := by
  refine ⟨⟨nofun, nofun, nofun⟩, fun k => ⟨nofun, nofun⟩, fun k => ?_, by simp, nofun,
    fun _ => nofun, ?_⟩
  · simp only [not_mem_nil, false_and, iff_false]
    rintro (h | h | h) <;> cases h
  · have := params.one_lt_validation
    refine ⟨fun h => ?_, fun _ => ⟨rfl, rfl⟩⟩
    change params.stakeValidationHeight - 1 ≤ 0 at h
    omega

namespace Trace

variable {c : StakeNode Tickets} (tr : Trace params n voted revoked new c)

theorem ws_old : ∀ u ∈ tr.ws, u.isNew = false := by
  intro u hu
  obtain ⟨t, -, -, hwin, -⟩ := tr.won.exists_left hu
  simp only [winner, isNew] at hwin ⊢
  cases hm : u.missed <;> cases hs : u.spent <;> simp [hm, hs] at hwin ⊢

theorem es_old : ∀ u ∈ tr.es, u.isNew = false := by
  intro u hu
  obtain ⟨t, -, -, -, -, hm, -⟩ := tr.expired.exists_left hu
  simp [isNew, hm]

theorem rs_old : ∀ u ∈ tr.rs, u.isNew = false := by
  intro u hu
  obtain ⟨t, -, -, -, hr⟩ := tr.revoked.exists_left hu
  simp [isNew, hr]

theorem ns_new : ∀ u ∈ tr.ns, u.isNew = true := by
  intro u hu
  obtain ⟨t, -, rfl⟩ := tr.added.exists_left hu
  rfl

theorem ns_hashes : tr.ns.map (·.ticketHash) = new := by
  refine List.Forall₂.map_eq (tr.added.imp fun t u hu => ?_)
  rw [hu, ticketHash_undoOf]

/-- The moves before the new tickets. -/
theorem old_moves : Moves (n.child new) (tr.ws ++ tr.es ++ tr.rs) tr.c₃ :=
  (tr.moves₁.trans tr.moves₂).trans tr.moves₃

theorem old_old : ∀ u ∈ tr.ws ++ tr.es ++ tr.rs, u.isNew = false := by
  simp only [forall_mem_append]
  exact ⟨⟨tr.ws_old, tr.es_old⟩, tr.rs_old⟩

/-- The tickets a block spends are the ones it votes with. -/
theorem spent_iff (k : Hash) : (∃ u ∈ tr.ws ++ tr.es ++ tr.rs, k = u.ticketHash ∧ u.spent = true) ↔
      k ∈ if params.stakeEnabledHeight ≤ n.height + 1 then voted else [] := by
  constructor
  · rintro ⟨u, hu, rfl, hsp⟩
    rcases mem_append.1 hu with hu | hu
    · rcases mem_append.1 hu with hu | hu
      · obtain ⟨t, ht, rfl, -, hiff⟩ := tr.won.exists_left hu
        split_ifs at ht ⊢ with hen
        · exact hiff.1 hsp
        · cases ht
      · obtain ⟨_, -, -, -, hns, -⟩ := tr.expired.exists_left hu
        simp [hns] at hsp
    · -- A revoked ticket was missed, and a missed ticket is not flagged spent.
      exfalso
      obtain ⟨t, -, -, -, hr⟩ := tr.revoked.exists_left hu
      obtain ⟨_, hfits⟩ := tr.moves₃.steps.exists_fits hu
      cases hfits with
      | new _ => simp [undoOf] at hr
      | spent _ hv => simp [undoOf, hv.2.1] at hr
      | missed e _ hv _ => simp [undoOf, hv.2.1] at hr
      | revoked _ hv _ => simp [undoOf, hv.2.2] at hsp
  · intro hk
    split_ifs at hk with hen
    · obtain ⟨u, hu, rfl, -, hiff⟩ := tr.won.exists_right
        (by rw [if_pos hen]; exact tr.voted_mem hen k hk)
      exact ⟨u, by simp [hu], rfl, hiff.2 hk⟩
    · cases hk

/-- Tickets past their expiry are not live after the block. -/
theorem young_of_live (hen : params.stakeEnabledHeight ≤ n.height + 1)
    (h : tr.c₃.liveTickets.get? k = some v) : toExpireHeight params (n.height + 1) < v.height := by
  have h₂ : tr.c₂.liveTickets.get? k = some v := tr.moves₃.steps.live_of_old tr.rs_old h
  have h₁ : tr.c₁.liveTickets.get? k = some v := tr.moves₂.steps.live_of_old tr.es_old h₂
  by_contra hle
  obtain ⟨u, hu, hku, -, -, -, hrev⟩ := tr.expired.exists_right (a := (k, v)) (by
    rw [if_pos hen, mem_filter]
    exact ⟨mem_toList.2 h₁, by simpa using (by omega : v.height < _ + 1)⟩)
  have hnone := tr.moves₂.steps.not_live tr.es_old hu hrev
  rw [hku] at hnone
  exact absurd (hnone.symm.trans h₂) (by simp)

end Trace

section Connect

variable [Blake256] {n' : StakeNode Tickets} {iv iv' : Hash} {added spent : List Hash}

theorem StakeInv.live_of_winner (hinv : StakeInv fuel params n iv added spent) {k : Hash}
    (hk : k ∈ n.nextWinners) : ∃ v, n.liveTickets.get? k = some v := by
  by_cases hd : params.stakeValidationHeight - 1 ≤ n.height
  · exact (hinv.lottery.drawn hd).2.2.1 k hk
  · rw [(hinv.lottery.idle (not_le.1 hd)).1] at hk
    cases hk

/-- **A block keeps the invariant**, if its new tickets are new. -/
theorem StakeInv.connect (hinv : StakeInv fuel params n iv added spent)
    (h : connectNode fuel params n iv' voted revoked new = .ok n') (hnd : new.Nodup)
    (hnew : ∀ t ∈ new, t ∉ added) : StakeInv fuel params n' iv' (added ++ new)
      (spent ++ if params.stakeEnabledHeight ≤ n.height + 1 then voted else []) := by
  obtain ⟨c, ⟨tr⟩, hh, hpool, -, hlot⟩ := connectNode_spec hinv.flagged h
  -- The moves before the new tickets, then the new tickets.
  obtain ⟨hx₃, hheld₃⟩ := tr.old_moves.steps.held_of_old hinv.exclusive tr.old_old
  have hheld₃' : ∀ k, (tr.c₃.pool.cell k).Held ↔ (k ∈ added ∧ k ∉ spent) ∧
      k ∉ if params.stakeEnabledHeight ≤ n.height + 1 then voted else [] := by
    intro k
    rw [hheld₃, tr.spent_iff]
    exact and_congr_left' (hinv.held k)
  obtain ⟨hx, hheld⟩ :=
    tr.moves₄.steps.held_of_new hx₃ tr.ns_new (by rw [tr.ns_hashes]; exact hnd) (by
    intro u hu
    rw [hheld₃']
    have hmem : u.ticketHash ∈ tr.ns.map (·.ticketHash) := mem_map_of_mem hu
    rw [tr.ns_hashes] at hmem
    exact fun h => hnew _ hmem h.1.1)
  have hvoted : ∀ k ∈ (if params.stakeEnabledHeight ≤ n.height + 1 then voted else []),
      k ∈ added := by
    intro k hk
    split_ifs at hk with hen
    · obtain ⟨v, hv⟩ := hinv.live_of_winner (tr.voted_mem hen k hk)
      exact ((hinv.held k).1 (Or.inl (by simp [cell, StakeNode.pool, hv]))).1
    · cases hk
  have hlive : ∀ {k v}, n'.liveTickets.get? k = some v →
      tr.c₃.liveTickets.get? k = some v ∨ v.height = n.height + 1 := by
    intro k v hk
    have hk' : c.pool.live.get? k = some v := hpool ▸ hk
    rcases tr.moves₄.steps.live hk' with hk | ⟨u, hu, -, -, rfl⟩
    · exact Or.inl hk
    · obtain ⟨t, -, rfl⟩ := tr.added.exists_left hu
      exact Or.inr rfl
  refine ⟨?_, fun k => ?_, fun k => ?_, fun k hk => ?_, fun {k v} hk => ?_, fun hen {k v} hk => ?_,
    hlot⟩
  · rw [hpool]
    exact tr.moves.flagged hinv.flagged
  · rw [hpool]
    exact hx k
  · rw [hpool, hheld, hheld₃', tr.ns_hashes]
    simp only [mem_append, not_or]
    constructor
    · rintro (⟨⟨h1, h2⟩, h3⟩ | hk)
      · exact ⟨Or.inl h1, h2, h3⟩
      · have hk' := hnew k hk
        exact ⟨Or.inr hk, fun h => hk' (hinv.spent_sub k h), fun h => hk' (hvoted k h)⟩
    · rintro ⟨h1 | h1, h2, h3⟩
      · exact Or.inl ⟨⟨h1, h2⟩, h3⟩
      · exact Or.inr h1
  · rcases mem_append.1 hk with hk | hk
    · exact mem_append_left _ (hinv.spent_sub k hk)
    · exact mem_append_left _ (hvoted k hk)
  · rcases hlive hk with hk | hk
    · have := hinv.height (tr.old_moves.steps.live_of_old tr.old_old hk)
      omega
    · omega
  · have hpos := params.ticketExpiry_pos
    rcases hlive hk with hk | hk
    · have hy := tr.young_of_live (hh ▸ hen) hk
      have h1 := (hinv.height (tr.old_moves.steps.live_of_old tr.old_old hk)).1
      unfold toExpireHeight at hy
      split_ifs at hy <;> omega
    · omega

end Connect

/-! ## Runs -/

section Runs

variable [Blake256] {bs : List StakeBlock}

/-- What holds of every chain, whatever tickets its blocks add. -/
structure BaseInv (fuel : Nat) (params : Params) (n : StakeNode Tickets) (bs : List StakeBlock) :
    Prop where
  height : n.height = bs.length
  flagged : n.pool.Flagged
  held : ∀ k, (n.pool.cell k).Held → k ∈ addedTickets bs
  lottery : LotteryOk fuel params n (lastIV bs)

theorem BaseInv.connect {n n' : StakeNode Tickets} {b : StakeBlock}
    (hinv : BaseInv fuel params n bs)
    (h : connectNode fuel params n b.lotteryIV b.ticketsVoted b.revokedTickets b.newTickets =
      .ok n') : BaseInv fuel params n' (b :: bs) := by
  obtain ⟨c, ⟨tr⟩, hh, hpool, -, hlot⟩ := connectNode_spec hinv.flagged h
  refine ⟨?_, ?_, fun k hk => ?_, hlot⟩
  · rw [hh, length_cons, ← hinv.height]
  · rw [hpool]
    exact tr.moves.flagged hinv.flagged
  · rw [hpool] at hk
    rcases tr.moves.steps.held hk with hk | ⟨u, hu, hnew, rfl⟩
    · exact mem_append_left _ (hinv.held k hk)
    · refine mem_append_right _ ?_
      rcases mem_append.1 hu with hu | hu
      · simp [tr.old_old u hu] at hnew
      · have hmem := mem_map_of_mem (f := (·.ticketHash)) hu
        rwa [tr.ns_hashes] at hmem

theorem replay_base (h : replay fuel params bs = .ok n) : BaseInv fuel params n bs := by
  induction bs generalizing n with
  | nil =>
    cases h
    have hg := stakeInv_genesis fuel params default
    exact ⟨rfl, hg.flagged, fun k hk => ((hg.held k).1 hk).1, hg.lottery⟩
  | cons b bs ih =>
    obtain ⟨n₀, h₀, h⟩ := bind_eq_ok.1 h
    exact (ih h₀).connect h

/-- **The invariant holds along every run** whose new tickets never repeat. -/
theorem replay_inv (h : replay fuel params bs = .ok n) (hnd : (addedTickets bs).Nodup) :
    StakeInv fuel params n (lastIV bs) (addedTickets bs) (votedTickets params bs) := by
  induction bs generalizing n with
  | nil => cases h; exact stakeInv_genesis fuel params default
  | cons b bs ih =>
    obtain ⟨n₀, h₀, h⟩ := bind_eq_ok.1 h
    obtain ⟨hnd₀, hnew, hdis⟩ := nodup_append.1 hnd
    have := (ih h₀ hnd₀).connect h hnew fun t ht ht' => hdis t ht' t ht rfl
    rwa [(replay_base h₀).height] at this

end Runs

/-- What the life cycle says of a node: `added` are the tickets that became live in
some block, `voted` the ones that blocks voted with. -/
structure TicketLifeCycle (params : Params) (n : StakeNode Immutable) (added voted : List Hash) :
    Prop where
  disjoint : ∀ k, ¬ (n.liveTickets.has k ∧ n.missedTickets.has k) ∧
    ¬ (n.liveTickets.has k ∧ n.revokedTickets.has k) ∧
    ¬ (n.missedTickets.has k ∧ n.revokedTickets.has k)
  live_flags : ∀ k v, n.liveTickets.get k = some v →
    v.missed = false ∧ v.revoked = false ∧ v.spent = false
  missed_flags : ∀ k v, n.missedTickets.get k = some v → v.missed = true ∧ v.revoked = false
  revoked_flags : ∀ k v, n.revokedTickets.get k = some v → v.missed = true ∧ v.revoked = true
  accounted : ∀ k ∈ added, k ∉ voted →
    n.liveTickets.has k ∨ n.missedTickets.has k ∨ n.revokedTickets.has k
  unexpired : params.stakeEnabledHeight ≤ n.height → ∀ k v, n.liveTickets.get k = some v →
    n.height - v.height < params.ticketExpiry
  winners : params.stakeValidationHeight - 1 ≤ n.height →
    n.nextWinners.length = params.ticketsPerBlock ∧ n.nextWinners.Nodup ∧
      ∀ w ∈ n.nextWinners, n.liveTickets.has w

/-- **Ticket life cycle.** After every block of every chain of blocks whose new tickets never
repeat. -/
theorem replay_lifeCycle [Blake256] (fuel : Nat) (params : Params) (bs : List StakeBlock)
    (n : StakeNode Immutable) (h : replay fuel params bs = .ok n) (hnd : (addedTickets bs).Nodup) :
    TicketLifeCycle params n (addedTickets bs) (votedTickets params bs) := by
  obtain ⟨m, hm, hsim⟩ := (replay_sim fuel params bs).ok_left h
  have hinv := replay_inv hm hnd
  have hl : ∀ k, n.liveTickets.get k = m.liveTickets.get? k := fun k => hsim.live.get k
  have hmi : ∀ k, n.missedTickets.get k = m.missedTickets.get? k := fun k => hsim.missed.get k
  have hr : ∀ k, n.revokedTickets.get k = m.revokedTickets.get? k := fun k => hsim.revoked.get k
  constructor
  · intro k
    simp only [Immutable.has, hl, hmi, hr]
    exact (hinv.exclusive k).disjoint
  · intro k v hk
    have hv := hinv.flagged.live ((hl k).symm.trans hk)
    exact ⟨hv.1, hv.2.1, hv.2.2.1⟩
  · intro k v hk
    have hv := hinv.flagged.missed ((hmi k).symm.trans hk)
    exact ⟨hv.1, hv.2.1⟩
  · intro k v hk
    have hv := hinv.flagged.revoked ((hr k).symm.trans hk)
    exact ⟨hv.1, hv.2.1⟩
  · intro k hk hk'
    simp only [Immutable.has, hl, hmi, hr]
    exact (hinv.held k).2 ⟨hk, hk'⟩
  · intro hen k v hk
    have hy := hinv.young (hsim.height ▸ hen) ((hl k).symm.trans hk)
    have hpos := params.ticketExpiry_pos
    rw [hsim.height]
    omega
  · intro hval
    rw [hsim.winners]
    obtain ⟨h1, h2, h3, -⟩ := hinv.lottery.drawn (hsim.height ▸ hval)
    refine ⟨h1, h2, fun w hw => ?_⟩
    obtain ⟨v, hv⟩ := h3 w hw
    rw [Immutable.has, hl, hv]
    rfl

/-! ## A small chain -/

section SmallChain

/-- Two votes a block, tickets that expire after three blocks, stake validation from height three.
-/
def smallParams : Params :=
  { regNetParams with
    ticketsPerBlock := 2
    ticketMaturity := 1
    ticketExpiry := 3
    stakeEnabledHeight := 2
    stakeValidationHeight := 3
    ticketsPerBlock_pos := by decide
    ticketsPerBlock_lt := by decide
    ticketExpiry_pos := by decide
    ticketMaturity_le := by decide
    enabled_le_validation := by decide
    one_lt_validation := by decide
    validation_lt := by decide
    votes_majority := by decide }

/-- A hash to compute with. -/
@[reducible] def sumHash : Blake256 :=
  ⟨fun b => Hash.ofNat (b.foldl (fun a x => (a * 31 + x.toNat * 17 + 7) % 2 ^ 256) 5)⟩

def smallTicket (n : Nat) : Hash := Hash.ofNat (n * 2 ^ 251 + n * 2 ^ 200 + n)

/-- Tickets mature, the third block votes with one winner and misses the other, and the fourth
votes, revokes the missed ticket and adds one more. -/
def smallChain : List StakeBlock :=
  [⟨smallTicket 7, [smallTicket 16], [smallTicket 10], [smallTicket 17]⟩,
    ⟨smallTicket 3, [smallTicket 12], [], [smallTicket 14, smallTicket 16]⟩,
    ⟨smallTicket 2, [], [], [smallTicket 13]⟩,
    ⟨smallTicket 1, [], [], [smallTicket 10, smallTicket 11, smallTicket 12]⟩]

theorem smallChain_isOk :
    (@replay Immutable _ sumHash 100 smallParams smallChain).isOk = true := by decide +kernel

theorem replay_lifeCycle_smallChain : ∃ n,
    @replay Immutable _ sumHash 100 smallParams smallChain = .ok n ∧
      TicketLifeCycle smallParams n (addedTickets smallChain)
        (votedTickets smallParams smallChain) := by
  obtain ⟨n, hn⟩ := exists_of_isOk smallChain_isOk
  exact ⟨n, hn, @replay_lifeCycle sumHash 100 smallParams smallChain n hn (by decide +kernel)⟩

end SmallChain

end Fnod
