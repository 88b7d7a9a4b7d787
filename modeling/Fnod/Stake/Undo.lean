import Fnod.Stake.LifeCycle
import Mathlib.Data.List.Nodup

/-!
# Undoing a block

`disconnectNode` undoes the records of a block in the order in which they were made, not in the
reverse order. That is right because no two records of a block touch the same *slot*, a ticket's
place in one of the three sets: the tickets taken from the live set are distinct, a revoked ticket
was missed before the block, and a new ticket was in no set (`Steps.tidy`). Moves that touch
different slots do not see each other, so each record still fits the parent's pool, and undoing it
restores what the parent had in its slots (`undoTicket_spec`).

**Theorem (`disconnectNode_connectNode`).** Disconnecting a block from the node it was connected to
gives back the parent: the tickets with all their flags, the winners in order, the checksum, the
height.
-/

namespace Fnod

open Except List OrdMap Pool StakeNode UndoTicketData

/-! ## Slots -/

/-- A ticket's place in a set. -/
abbrev Slot := TicketSet × Hash

def Pool.slot (s : Pool) : Slot → Option TicketValue
  | (.live, k) => s.live.get? k
  | (.missed, k) => s.missed.get? k
  | (.revoked, k) => s.revoked.get? k

theorem Pool.ext_slot {s s' : Pool} (h : ∀ p, s.slot p = s'.slot p) : s = s' :=
  ext_cell fun k => Cell.ext (h (.live, k)) (h (.missed, k)) (h (.revoked, k))

variable (u : UndoTicketData) {s s' : Pool} {p : Slot} {c c' : StakeNode Tickets} {i : TicketSet}
  {v : TicketValue} {k : Hash} {params : Params} {n : StakeNode Tickets}
  {voted revoked new : List Hash}

/-- The slots a move reads and writes. -/
def UndoTicketData.touched : List Slot :=
  let k := u.ticketHash
  if !u.missed && !u.revoked && !u.spent then [(.live, k)]
  else if u.missed && u.revoked then [(.missed, k), (.revoked, k)]
  else if u.missed && !u.revoked then [(.live, k), (.missed, k)]
  else [(.live, k)]

section Touched

variable {v : TicketValue}

theorem touched_new (h : Nat) :
    (undoOf k ⟨h, false, false, false, false⟩).touched = [(.live, k)] := rfl

theorem touched_spent (hv : v.IsLive) :
    (undoOf k { v with spent := true }).touched = [(.live, k)] := by
  simp [touched, undoOf, hv.1]

theorem touched_missed (hv : v.IsLive) (e : Bool) :
    (undoOf k { v with missed := true, expired := e }).touched =
      [(.live, k), (.missed, k)] := by
  simp [touched, undoOf, hv.2.1]

theorem touched_revoked (hv : v.IsMissed) :
    (undoOf k { v with revoked := true }).touched = [(.missed, k), (.revoked, k)] := by
  simp [touched, undoOf, hv.1]

end Touched

variable {u : UndoTicketData} {us : List UndoTicketData}

theorem slot_redo_of_not_touched (hp : p ∉ u.touched) : (redo s u).slot p = s.slot p := by
  obtain ⟨i, k⟩ := p
  unfold touched at hp
  unfold redo
  simp only at hp ⊢
  split_ifs at hp ⊢ <;> cases i <;> simp_all [slot, get?_insert, get?_erase]

/-- Whether a record fits depends on the slots it touches only. -/
theorem Fits.congr (h : Fits s u) (hs : ∀ p ∈ u.touched, s'.slot p = s.slot p) : Fits s' u := by
  cases h with
  | new h => exact .new ((hs (.live, _) (by simp [touched_new])).trans h)
  | spent h hv => exact .spent ((hs (.live, _) (by simp [touched_spent hv])).trans h) hv
  | missed e h hv h' =>
    exact .missed e ((hs (.live, _) (by simp [touched_missed hv])).trans h) hv
      ((hs (.missed, _) (by simp [touched_missed hv])).trans h')
  | revoked h hv h' =>
    exact .revoked ((hs (.missed, _) (by simp [touched_revoked hv])).trans h) hv
      ((hs (.revoked, _) (by simp [touched_revoked hv])).trans h')

/-- What a move writes does not depend on the pool. -/
theorem slot_redo_congr (hp : p ∈ u.touched) : (redo s' u).slot p = (redo s u).slot p := by
  obtain ⟨i, k⟩ := p
  unfold touched at hp
  unfold redo
  simp only at hp ⊢
  split_ifs at hp ⊢ <;> cases i <;> simp_all [slot]

theorem Steps.slot_of_not_touched (h : Steps s us s')
    (hp : p ∉ us.flatMap touched) : s'.slot p = s.slot p := by
  induction h with
  | nil => rfl
  | @snoc us s' u _ _ ih =>
    simp only [flatMap_append, mem_append, not_or, flatMap_singleton] at hp
    rw [slot_redo_of_not_touched hp.2, ih hp.1]

/-- Where no slot is touched twice, every record fits the pool at the start, and its slots end as
its move leaves them. -/
theorem Steps.fits (h : Steps s us s') (hnd : (us.flatMap touched).Nodup) (hu : u ∈ us) :
    Fits s u ∧ ∀ p ∈ u.touched, s'.slot p = (redo s u).slot p := by
  induction h with
  | nil => cases hu
  | @snoc us s' w hst hw ih =>
    rw [flatMap_append, flatMap_singleton, nodup_append] at hnd
    obtain ⟨hnd, -, hdis⟩ := hnd
    rcases mem_append.1 hu with hu | hu
    · obtain ⟨hf, hs⟩ := ih hnd hu
      refine ⟨hf, fun p hp => ?_⟩
      have hne : p ∉ w.touched := fun hpw =>
        hdis p (mem_flatMap.2 ⟨u, hu, hp⟩) p hpw rfl
      rw [slot_redo_of_not_touched hne, hs p hp]
    · obtain rfl := mem_singleton.1 hu
      have hsame : ∀ p ∈ u.touched, s'.slot p = s.slot p := fun p hp =>
        hst.slot_of_not_touched fun hm => hdis p hm p hp rfl
      exact ⟨hw.congr fun p hp => (hsame p hp).symm, fun p hp => slot_redo_congr hp⟩

/-! ## The records of a block touch distinct slots -/

/-- The phase of `connectNode` a record belongs to: tickets taken from the live set, revocations,
new tickets. -/
def UndoTicketData.phase : Nat :=
  if u.isNew then 2 else if u.revoked then 1 else 0

section Phase

variable {v : TicketValue}

theorem phase_spent (hv : v.IsLive) : (undoOf k { v with spent := true }).phase = 0 := by
  simp [phase, isNew, undoOf, hv.2.1]

theorem phase_missed (hv : v.IsLive) (e : Bool) :
    (undoOf k { v with missed := true, expired := e }).phase = 0 := by
  simp [phase, isNew, undoOf, hv.2.1]

theorem phase_revoked : (undoOf k { v with revoked := true }).phase = 1 := by
  simp [phase, isNew, undoOf]

end Phase

/-- Whether a record finds a ticket in a slot that it touches; it leaves one there if not. -/
def UndoTicketData.finds : Slot → Bool
  | (.live, _) => !u.isNew
  | (.missed, _) => u.revoked
  | (.revoked, _) => false

theorem Fits.finds (h : Fits s u) (hp : p ∈ u.touched) :
    (s.slot p).isSome = u.finds p ∧ ((redo s u).slot p).isSome = !u.finds p := by
  cases h with
  | new hk =>
    obtain rfl := mem_singleton.1 hp
    rw [redo_new]
    simp [slot, hk, finds, isNew, undoOf]
  | spent hk hv =>
    rw [touched_spent hv] at hp
    obtain rfl := mem_singleton.1 hp
    rw [redo_spent hv]
    simp [slot, hk, finds, isNew, undoOf]
  | missed e hk hv hm =>
    rw [touched_missed hv, mem_pair] at hp
    rw [redo_missed hv]
    rcases hp with rfl | rfl
    · simp [slot, hk, finds, isNew, undoOf]
    · simp [slot, hm, finds, undoOf, hv.2.1]
  | revoked hk hv hm =>
    rw [touched_revoked hv, mem_pair] at hp
    rw [redo_revoked hv]
    rcases hp with rfl | rfl
    · simp [slot, hk, finds, undoOf]
    · simp [slot, hm, finds]

theorem nodup_touched (u : UndoTicketData) : u.touched.Nodup := by
  unfold touched
  split_ifs <;> simp

theorem mem_touched {k : Hash} (h : (i, k) ∈ u.touched) :
    k = u.ticketHash ∧ (i = .missed → u.missed = true) := by
  unfold touched at h
  simp only at h
  split_ifs at h <;> cases i <;> simp_all

/-- A slot that one record finds full and a later one empty, or the other way round, was not as the
later one needs it before the block. -/
theorem finds_eq {w : UndoTicketData} (hu : p ∈ u.touched)
    (hw : p ∈ w.touched) (hphase : u.phase ≤ w.phase) (hstart : (s.slot p).isSome = u.finds p)
    (hrev : w.revoked = true → (s.missed.get? w.ticketHash).isSome)
    (hnew : w.isNew = true → s.live.get? w.ticketHash = none) : w.finds p = u.finds p := by
  obtain ⟨i, k⟩ := p
  obtain ⟨rfl, hmissed⟩ := mem_touched hw
  unfold phase at hphase
  cases i with
  | revoked => rfl
  | live =>
    simp only [slot, finds] at hstart ⊢
    cases hwn : w.isNew <;> cases hun : u.isNew
    · rfl
    · rw [if_pos hun, if_neg (by simp [hwn])] at hphase
      split_ifs at hphase <;> omega
    · simp [hnew hwn, hun] at hstart
    · rfl
  | missed =>
    have hold : w.isNew = false := by simp [isNew, hmissed rfl]
    have hold' : u.isNew = false := by simp [isNew, (mem_touched hu).2 rfl]
    simp only [slot, finds] at hstart ⊢
    cases hwr : w.revoked <;> cases hur : u.revoked <;> simp_all

/-- **No slot is touched twice** by a block whose phases come in order, whose revoked tickets were
missed before it, and whose new tickets were not live before it. -/
theorem Steps.tidy (h : Steps s us s') (hphase : us.Pairwise fun u w => u.phase ≤ w.phase)
    (hrev : ∀ u ∈ us, u.revoked = true → (s.missed.get? u.ticketHash).isSome)
    (hnew : ∀ u ∈ us, u.isNew = true → s.live.get? u.ticketHash = none) :
    (us.flatMap touched).Nodup ∧ ∀ u ∈ us, ∀ p ∈ u.touched,
      (s.slot p).isSome = u.finds p ∧ (s'.slot p).isSome = !u.finds p := by
  induction h with
  | nil => exact ⟨nodup_nil, nofun⟩
  | @snoc us s' w hst hw ih =>
    obtain ⟨hphase, -, hlast⟩ := pairwise_append.1 hphase
    obtain ⟨hnd, hold⟩ := ih hphase (fun u hu => hrev u (mem_append_left _ hu))
      fun u hu => hnew u (mem_append_left _ hu)
    -- a slot that was touched is not as the record finds it
    have hfresh : ∀ p ∈ w.touched, p ∉ us.flatMap touched := by
      intro p hp hmem
      obtain ⟨u, hu, hpu⟩ := mem_flatMap.1 hmem
      obtain ⟨hstart, hnow⟩ := hold u hu p hpu
      have hsame := finds_eq hpu hp (hlast u hu w (by simp)) hstart (hrev w (by simp))
        (hnew w (by simp))
      simp [(hw.finds hp).1, hsame] at hnow
    constructor
    · rw [flatMap_append, flatMap_singleton]
      exact hnd.append (nodup_touched w) fun p hp hpw => hfresh p hpw hp
    · intro u hu p hp
      rcases mem_append.1 hu with hu | hu
      · rw [slot_redo_of_not_touched fun hpw => hfresh p hpw (mem_flatMap.2 ⟨u, hu, hp⟩)]
        exact hold u hu p hp
      · obtain rfl := mem_singleton.1 hu
        rw [← hst.slot_of_not_touched (hfresh p hp)]
        exact hw.finds hp

/-! ## Undoing records -/

theorem TicketValue.IsLive.eta (hv : v.IsLive) :
    (⟨v.height, false, false, false, false⟩ : TicketValue) = v := by
  obtain ⟨h, m, r, sp, e⟩ := v
  simpa [TicketValue.IsLive, eq_comm] using hv

theorem TicketValue.IsMissed.eta (hv : v.IsMissed) :
    (⟨v.height, true, false, false, v.expired⟩ : TicketValue) = v := by
  obtain ⟨h, m, r, sp, e⟩ := v
  simpa [TicketValue.IsMissed, eq_comm] using hv

/-- One record undone: its slots are as they were before its move, a ticket the move took as a
winner is a winner again, and nothing else changes. -/
structure Undone (s : Pool) (u : UndoTicketData) (c c' : StakeNode Tickets) : Prop where
  restored : ∀ p ∈ u.touched, c'.pool.slot p = s.slot p
  unchanged : ∀ p ∉ u.touched, c'.pool.slot p = c.pool.slot p
  winners : c'.nextWinners = c.nextWinners ++ if u.winner then [u.ticketHash] else []
  height : c'.height = c.height
  undo : c'.databaseUndoUpdate = c.databaseUndoUpdate
  tickets : c'.databaseBlockTickets = c.databaseBlockTickets
  finalState : c'.finalState = c.finalState

theorem undoTicket_spec (hu : Fits s u) (hc : ∀ p ∈ u.touched, c.pool.slot p = (redo s u).slot p) :
    ∃ c', undoTicket c u = .ok c' ∧ Undone s u c c' := by
  cases hu with
  | @new k h hk =>
    have hlive : c.liveTickets.get? k = some ⟨h, false, false, false, false⟩ :=
      (hc (.live, k) (by simp [touched_new])).trans (by simp [redo_new, slot])
    refine ⟨{ c with liveTickets := c.liveTickets.erase k }, ?_, ?_, ?_, ?_, rfl, rfl, rfl, rfl⟩
    · simp [undoTicket, undoOf, safeDelete_eq_ok.2 ⟨⟨_, hlive⟩, rfl⟩]
    · simp [touched_new, slot, pool, hk]
    · rintro ⟨i, k'⟩ hp
      cases i <;> simp_all [touched_new, slot, pool, get?_erase]
    · simp [winner, undoOf]
  | @spent k v hk hv =>
    have hlive : c.liveTickets.get? k = none :=
      (hc (.live, k) (by simp [touched_spent hv])).trans (by simp [redo_spent hv, slot])
    refine ⟨{ c with liveTickets := c.liveTickets.insert k v,
                     nextWinners := c.nextWinners ++ [k] }, ?_, ?_, ?_, ?_, rfl, rfl, rfl, rfl⟩
    · have hback := hv.eta
      simp [undoTicket, undoOf, value, hv.1, hv.2.1, hv.2.2.2,
        safePut_eq_ok.2 ⟨hlive, rfl⟩, hback]
    · simp [touched_spent hv, slot, pool, hk]
    · rintro ⟨i, k'⟩ hp
      cases i <;> simp_all [touched_spent hv, slot, pool, get?_insert]
    · simp [winner, undoOf, hv.1]
  | @missed k v e hk hv hm =>
    have hlive : c.liveTickets.get? k = none :=
      (hc (.live, k) (by simp [touched_missed hv])).trans (by simp [redo_missed hv, slot])
    have hmissed : c.missedTickets.get? k = some { v with missed := true, expired := e } :=
      (hc (.missed, k) (by simp [touched_missed hv])).trans (by simp [redo_missed hv, slot])
    refine ⟨{ c with missedTickets := c.missedTickets.erase k,
                     liveTickets := c.liveTickets.insert k v,
                     nextWinners := if e then c.nextWinners else c.nextWinners ++ [k] },
      ?_, ?_, ?_, ?_, rfl, rfl, rfl, rfl⟩
    · have hback := hv.eta
      simp [undoTicket, undoOf, value, hv.2.1, hv.2.2.1,
        safePut_eq_ok.2 ⟨hlive, rfl⟩, safeDelete_eq_ok.2 ⟨⟨_, hmissed⟩, rfl⟩, hback]
    · simp [touched_missed hv, slot, pool, hk, hm]
    · rintro ⟨i, k'⟩ hp
      cases i <;> simp_all [touched_missed hv, slot, pool, get?_insert, get?_erase]
    · cases e <;> simp [winner, undoOf, hv.2.1]
  | @revoked k v hk hv hm =>
    have hmissed : c.missedTickets.get? k = none :=
      (hc (.missed, k) (by simp [touched_revoked hv])).trans (by simp [redo_revoked hv, slot])
    have hrevoked : c.revokedTickets.get? k = some { v with revoked := true } :=
      (hc (.revoked, k) (by simp [touched_revoked hv])).trans
        (by simp [redo_revoked hv, slot])
    refine ⟨{ c with revokedTickets := c.revokedTickets.erase k,
                     missedTickets := c.missedTickets.insert k v },
      ?_, ?_, ?_, ?_, rfl, rfl, rfl, rfl⟩
    · have hback := hv.eta
      simp [undoTicket, undoOf, value, hv.1, hv.2.2, safePut_eq_ok.2 ⟨hmissed, rfl⟩,
        safeDelete_eq_ok.2 ⟨⟨_, hrevoked⟩, rfl⟩, hback]
    · simp [touched_revoked hv, slot, pool, hk, hm]
    · rintro ⟨i, k'⟩ hp
      cases i <;> simp_all [touched_revoked hv, slot, pool, get?_insert, get?_erase]
    · simp [winner, undoOf, hv.1]

/-- Records that touch distinct slots are undone in any order; here, first to last. -/
theorem undoAll_spec (s : Pool) (us : List UndoTicketData) (c : StakeNode Tickets)
    (hnd : (us.flatMap touched).Nodup) (hfits : ∀ u ∈ us, Fits s u)
    (hc : ∀ u ∈ us, ∀ p ∈ u.touched, c.pool.slot p = (redo s u).slot p)
    (hrest : ∀ p ∉ us.flatMap touched, c.pool.slot p = s.slot p) :
    ∃ c', us.foldlM undoTicket c = .ok c' ∧
      c' = { c with
        liveTickets := s.live
        missedTickets := s.missed
        revokedTickets := s.revoked
        nextWinners := c.nextWinners ++ (us.filter (·.winner)).map (·.ticketHash) } := by
  induction us generalizing c with
  | nil =>
    have hpool : c.pool = s := ext_slot fun p => hrest p (by simp)
    exact ⟨c, rfl, by subst hpool; simp [pool]⟩
  | cons u us ih =>
    rw [flatMap_cons, nodup_append] at hnd
    obtain ⟨-, hnd, hdis⟩ := hnd
    obtain ⟨c₁, h₁, hu⟩ := undoTicket_spec (hfits u mem_cons_self) (hc u mem_cons_self)
    obtain ⟨c', h', hc'⟩ := ih c₁ hnd (forall_mem_cons.1 hfits).2
      (fun w hw p hp => by
        rw [hu.unchanged p fun hpu => hdis p hpu p (mem_flatMap.2 ⟨w, hw, hp⟩) rfl]
        exact hc w (mem_cons_of_mem _ hw) p hp)
      (fun p hp => by
        by_cases hpu : p ∈ u.touched
        · exact hu.restored p hpu
        · rw [hu.unchanged p hpu]
          exact hrest p (by simp only [flatMap_cons, mem_append, hpu, hp, or_self,
            not_false_eq_true]))
    refine ⟨c', foldlM_cons_eq_ok.2 ⟨c₁, h₁, h'⟩, ?_⟩
    rw [hc', hu.winners, hu.height, hu.undo, hu.tickets, hu.finalState, append_assoc]
    cases hw : u.winner <;> simp [hw]

/-! ## The records of a block -/

namespace Trace

variable {c : StakeNode Tickets} (tr : Trace params n voted revoked new c)

theorem ws_phase : ∀ u ∈ tr.ws, u.phase = 0 := by
  intro u hu
  obtain ⟨t, -, -, hwin, -⟩ := tr.won.exists_left hu
  obtain ⟨_, hfits⟩ := tr.moves₁.steps.exists_fits hu
  cases hfits with
  | new _ => simp [winner, undoOf] at hwin
  | spent _ hv => exact phase_spent hv
  | missed e _ hv _ => exact phase_missed hv e
  | revoked _ hv _ => simp [winner, undoOf, hv.1] at hwin

theorem es_phase : ∀ u ∈ tr.es, u.phase = 0 := by
  intro u hu
  obtain ⟨t, -, -, -, -, -, hrev⟩ := tr.expired.exists_left hu
  simp [phase, tr.es_old u hu, hrev]

theorem rs_phase : ∀ u ∈ tr.rs, u.phase = 1 := by
  intro u hu
  obtain ⟨t, -, -, -, hrev⟩ := tr.revoked.exists_left hu
  simp [phase, tr.rs_old u hu, hrev]

theorem ns_phase : ∀ u ∈ tr.ns, u.phase = 2 := fun u hu => by
  simp [phase, tr.ns_new u hu]

theorem phases : (tr.ws ++ tr.es ++ tr.rs ++ tr.ns).Pairwise fun u w => u.phase ≤ w.phase := by
  have hconst : ∀ (p : Nat) {l : List UndoTicketData}, (∀ u ∈ l, u.phase = p) →
      l.Pairwise fun u w => u.phase ≤ w.phase := fun p l hl =>
    List.Pairwise.imp_of_mem (fun hu hw _ => (hl _ hu).trans_le (hl _ hw).ge)
      (pairwise_of_forall (R := fun _ _ => True) fun _ _ => trivial)
  simp only [pairwise_append, mem_append]
  refine ⟨⟨⟨hconst 0 tr.ws_phase, hconst 0 tr.es_phase, fun u hu w hw => ?_⟩,
    hconst 1 tr.rs_phase, fun u hu w hw => ?_⟩, hconst 2 tr.ns_phase, fun u hu w hw => ?_⟩
  · rw [tr.ws_phase u hu]; omega
  · rw [tr.rs_phase w hw]
    rcases hu with hu | hu
    · rw [tr.ws_phase u hu]; omega
    · rw [tr.es_phase u hu]; omega
  · rw [tr.ns_phase w hw]
    unfold phase
    split_ifs <;> omega

theorem winners_eq : ((tr.ws ++ tr.es ++ tr.rs ++ tr.ns).filter (·.winner)).map (·.ticketHash) =
    if params.stakeEnabledHeight ≤ n.height + 1 then n.nextWinners else [] := by
  have hws : tr.ws.filter (·.winner) = tr.ws := filter_eq_self.2 fun u hu => by
    obtain ⟨t, -, -, hwin, -⟩ := tr.won.exists_left hu
    exact hwin
  have hes : tr.es.filter (·.winner) = [] := filter_eq_nil_iff.2 fun u hu => by
    obtain ⟨t, -, -, hwin, -⟩ := tr.expired.exists_left hu
    simp [hwin]
  have hrs : tr.rs.filter (·.winner) = [] := filter_eq_nil_iff.2 fun u hu => by
    obtain ⟨t, -, -, hwin, -⟩ := tr.revoked.exists_left hu
    simp [hwin]
  have hns : tr.ns.filter (·.winner) = [] := filter_eq_nil_iff.2 fun u hu => by
    obtain ⟨t, -, rfl⟩ := tr.added.exists_left hu
    simp [winner, undoOf]
  simp only [filter_append, hws, hes, hrs, hns, append_nil]
  exact List.Forall₂.map_eq (tr.won.imp fun t u hu => hu.1)

theorem rs_mem (hu : u ∈ tr.rs) : u.ticketHash ∈ revoked := by
  obtain ⟨t, ht, rfl, -⟩ := tr.revoked.exists_left hu
  split_ifs at ht
  · exact ht
  · cases ht

theorem ns_mem (hu : u ∈ tr.ns) : u.ticketHash ∈ new := by
  obtain ⟨t, ht, rfl⟩ := tr.added.exists_left hu
  exact ht

/-- What the block revoked was missed before it, and what it added was not live before it. -/
structure Undoable : Prop where
  revoked : ∀ u ∈ tr.rs, (n.missedTickets.get? u.ticketHash).isSome
  added : ∀ u ∈ tr.ns, n.liveTickets.get? u.ticketHash = none

variable {tr}

/-- No slot is touched twice. -/
theorem Undoable.touched_nodup (h : tr.Undoable) :
    (c.databaseUndoUpdate.flatMap touched).Nodup := by
  have hmem : ∀ u ∈ tr.ws ++ tr.es ++ tr.rs ++ tr.ns,
      u.phase = 0 ∨ (u.phase = 1 ∧ u ∈ tr.rs) ∨ (u.phase = 2 ∧ u ∈ tr.ns) := by
    intro u hu
    simp only [mem_append] at hu
    rcases hu with ((hu | hu) | hu) | hu
    · exact Or.inl (tr.ws_phase u hu)
    · exact Or.inl (tr.es_phase u hu)
    · exact Or.inr (Or.inl ⟨tr.rs_phase u hu, hu⟩)
    · exact Or.inr (Or.inr ⟨tr.ns_phase u hu, hu⟩)
  rw [tr.undo_eq]
  refine (tr.moves.steps.tidy tr.phases (fun u hu hr => ?_) fun u hu hn => ?_).1
  · have hp : u.phase = 1 := by simp [phase, isNew, hr]
    obtain ⟨-, hu⟩ : u.phase = 1 ∧ u ∈ tr.rs := by simpa [hp] using hmem u hu
    exact h.revoked u hu
  · have hp : u.phase = 2 := by simp [phase, hn]
    obtain ⟨-, hu⟩ : u.phase = 2 ∧ u ∈ tr.ns := by simpa [hp] using hmem u hu
    exact h.added u hu

/-- Undoing the records of a block restores the tickets and finds the winners. -/
theorem Undoable.undoAll (h : tr.Undoable) {r₀ : StakeNode Tickets} (hpool : r₀.pool = c.pool) :
    c.databaseUndoUpdate.foldlM undoTicket r₀ = .ok
      { r₀ with
        liveTickets := n.liveTickets
        missedTickets := n.missedTickets
        revokedTickets := n.revokedTickets
        nextWinners := r₀.nextWinners ++
          if params.stakeEnabledHeight ≤ n.height + 1 then n.nextWinners else [] } := by
  have hnd := h.touched_nodup
  obtain ⟨r, hr, hr'⟩ := undoAll_spec n.pool c.databaseUndoUpdate r₀ hnd
    (fun u hu => (tr.steps.fits hnd hu).1)
    (fun u hu p hp => hpool ▸ (tr.steps.fits hnd hu).2 p hp)
    (fun p hp => hpool ▸ tr.steps.slot_of_not_touched hp)
  rw [hr, hr', tr.undo_eq, tr.winners_eq]
  rfl

end Trace

/-! ## What can be undone

A block that revokes a ticket it also missed, or adds one that it also took from the live set,
cannot be undone at all: the records of the live set come first, and theirs is the slot the other
move left occupied or empty. So a node that `disconnectNode` returns is the parent in any case. -/

/-- What undoing a record of the first phase asks for, and what it leaves alone. -/
theorem undoTicket_first (hu : Fits s u) (hphase : u.phase = 0) (h : undoTicket c u = .ok c') :
    (c.liveTickets.get? u.ticketHash = none ∧
      (u.missed = true → (c.missedTickets.get? u.ticketHash).isSome)) ∧
    (∀ k, c'.liveTickets.get? k = none → c.liveTickets.get? k = none) ∧
    ∀ k, (c'.missedTickets.get? k).isSome → (c.missedTickets.get? k).isSome := by
  cases hu with
  | new _ => cases hphase
  | revoked _ _ _ => rw [phase_revoked] at hphase; cases hphase
  | @spent k v _ hv =>
    simp only [undoTicket, undoOf, value, hv.1, hv.2.1, Bool.not_false,
      Bool.not_true, Bool.and_false, Bool.false_eq_true, if_false, Bool.false_and, Bool.and_self,
      if_true] at h
    obtain ⟨hnone, h⟩ := of_bind_eq_ok h safePut_eq_ok.1
    cases h
    refine ⟨⟨hnone, fun hm => by simp [undoOf, hv.1] at hm⟩, fun k' hk => ?_, fun _ h => h⟩
    rw [get?_insert] at hk
    split_ifs at hk
    exact hk
  | @missed k v e _ hv _ =>
    simp only [undoTicket, undoOf, value, hv.2.1, Bool.not_false, Bool.not_true,
      Bool.and_false, Bool.false_eq_true, if_false, Bool.false_and, Bool.and_self,
      if_true] at h
    obtain ⟨⟨w, hw⟩, h⟩ := of_bind_eq_ok h safeDelete_eq_ok.1
    obtain ⟨hnone, h⟩ := of_bind_eq_ok h safePut_eq_ok.1
    cases h
    refine ⟨⟨hnone, fun _ => by simp [undoOf, hw]⟩, fun k' hk => ?_, fun k' hk => ?_⟩
    · rw [get?_insert] at hk
      split_ifs at hk
      exact hk
    · rw [get?_erase] at hk
      split_ifs at hk
      · cases hk
      · exact hk

theorem undoAll_first (hus : ∀ u ∈ us, u.phase = 0 ∧ ∃ s, Fits s u)
    (h : us.foldlM undoTicket c = .ok c') (hu : u ∈ us) : c.liveTickets.get? u.ticketHash = none ∧
      (u.missed = true → (c.missedTickets.get? u.ticketHash).isSome) := by
  induction us generalizing c with
  | nil => cases hu
  | cons w us ih =>
    obtain ⟨c₁, h₁, h⟩ := foldlM_cons_eq_ok.1 h
    obtain ⟨hphase, s, hw⟩ := hus w mem_cons_self
    obtain ⟨hneeds, hlive, hmissed⟩ := undoTicket_first hw hphase h₁
    rcases mem_cons.1 hu with rfl | hu
    · exact hneeds
    · obtain ⟨h1, h2⟩ := ih (forall_mem_cons.1 hus).2 h hu
      exact ⟨hlive _ h1, fun hm => hmissed _ (h2 hm)⟩

/-- Where every record finds the slots of a set in the same state, a slot changes once. -/
theorem Steps.one_way {b : Bool} (h : Steps s us s') (hus : ∀ u ∈ us, ∀ k, u.finds (i, k) = b) :
    (∀ k, (s.slot (i, k)).isSome = !b → (s'.slot (i, k)).isSome = !b) ∧ ∀ u ∈ us, ∀ k,
      (i, k) ∈ u.touched → (s.slot (i, k)).isSome = b ∧ (s'.slot (i, k)).isSome = !b := by
  induction h with
  | nil => exact ⟨fun _ h => h, nofun⟩
  | @snoc us s' w hst hw ih =>
    obtain ⟨hmono, hall⟩ := ih fun u hu => hus u (mem_append_left _ hu)
    have hb := hus w (by simp)
    have hstep : ∀ k, (s'.slot (i, k)).isSome = !b → ((redo s' w).slot (i, k)).isSome = !b := by
      intro k hk
      by_cases hp : (i, k) ∈ w.touched
      · rw [(hw.finds hp).2, hb]
      · rw [slot_redo_of_not_touched hp, hk]
    refine ⟨fun k hk => hstep k (hmono k hk), fun u hu k hp => ?_⟩
    rcases mem_append.1 hu with hu | hu
    · exact ⟨(hall u hu k hp).1, hstep k (hall u hu k hp).2⟩
    · obtain rfl := mem_singleton.1 hu
      obtain ⟨hbefore, hafter⟩ := hw.finds hp
      rw [hb] at hbefore hafter
      refine ⟨?_, hafter⟩
      by_contra hne
      have hnot := hmono k (Bool.eq_not_of_ne hne)
      simp [hbefore] at hnot

theorem touched_of_new (h : u.isNew = true) : u.touched = [(.live, u.ticketHash)] := if_pos h

theorem revoked_of_phase (h : u.phase = 1) : u.revoked = true := by
  unfold phase at h
  split_ifs at h with hnew hrev
  · cases h
  · exact hrev

theorem touched_of_phase_one (hu : Fits s u) (h : u.phase = 1) :
    u.touched = [(.missed, u.ticketHash), (.revoked, u.ticketHash)] := by
  cases hu with
  | new _ => cases h
  | spent _ hv => rw [phase_spent hv] at h; cases h
  | missed e _ hv _ => rw [phase_missed hv] at h; cases h
  | revoked _ hv _ => exact touched_revoked hv

/-- A revoked ticket was missed before the revocations and is not missed after them. -/
theorem Steps.missed_of_revoked (h : Steps s us s') (hus : ∀ u ∈ us, u.phase = 1) (hu : u ∈ us) :
    (s.missed.get? u.ticketHash).isSome ∧ s'.missed.get? u.ticketHash = none := by
  obtain ⟨_, hfits⟩ := h.exists_fits hu
  obtain ⟨hbefore, hafter⟩ := (h.one_way (i := .missed) (b := true) fun w hw _ =>
    revoked_of_phase (hus w hw)).2 u hu u.ticketHash (by
      simp [touched_of_phase_one hfits (hus u hu)])
  exact ⟨hbefore, Option.not_isSome_iff_eq_none.1 (ne_true_of_eq_false hafter)⟩

/-- A new ticket was not live before the new tickets and is live after them. -/
theorem Steps.live_of_added (h : Steps s us s') (hus : ∀ u ∈ us, u.isNew = true)
    (hu : u ∈ us) : s.live.get? u.ticketHash = none ∧ (s'.live.get? u.ticketHash).isSome := by
  obtain ⟨hbefore, hafter⟩ := (h.one_way (i := .live) (b := false) fun w hw _ => by
    simp [finds, hus w hw]).2 u hu u.ticketHash
    (by rw [touched_of_new (hus u hu)]; simp)
  exact ⟨Option.not_isSome_iff_eq_none.1 (ne_true_of_eq_false hbefore), hafter⟩

namespace Trace

variable {c : StakeNode Tickets} (tr : Trace params n voted revoked new c)

/-- The moves that take tickets from the live set. -/
theorem first_moves : Moves (n.child new) (tr.ws ++ tr.es) tr.c₂ := tr.moves₁.trans tr.moves₂

theorem first_phase : ∀ u ∈ tr.ws ++ tr.es, u.phase = 0 := fun u hu =>
  (mem_append.1 hu).elim (tr.ws_phase u) (tr.es_phase u)

/-- Only what is `Undoable` can be undone. -/
theorem of_undo {r₀ r : StakeNode Tickets} (hpool : r₀.pool = c.pool)
    (h : c.databaseUndoUpdate.foldlM undoTicket r₀ = .ok r) : tr.Undoable := by
  rw [tr.undo_eq, append_assoc, foldlM_append] at h
  obtain ⟨r₁, h₁, -⟩ := bind_eq_ok.1 h
  have hneeds : ∀ u ∈ tr.ws ++ tr.es, c.liveTickets.get? u.ticketHash = none ∧
      (u.missed = true → (c.missedTickets.get? u.ticketHash).isSome) := fun u hu => by
    have := undoAll_first (fun w hw => ⟨tr.first_phase w hw, tr.first_moves.steps.exists_fits hw⟩)
      h₁ hu
    rwa [show r₀.liveTickets = c.liveTickets from congrArg Pool.live hpool,
      show r₀.missedTickets = c.missedTickets from congrArg Pool.missed hpool] at this
  constructor
  · intro u hu
    by_contra hnone
    obtain ⟨hsome, hgone⟩ := tr.moves₃.steps.missed_of_revoked tr.rs_phase hu
    have hmem : (TicketSet.missed, u.ticketHash) ∈
        (tr.ws ++ tr.es).flatMap touched := by
      by_contra hnot
      exact hnone (Eq.subst (motive := fun o => o.isSome = true)
        (tr.first_moves.steps.slot_of_not_touched hnot) hsome)
    obtain ⟨w, hw, hwt⟩ := mem_flatMap.1 hmem
    obtain ⟨hk, hm⟩ := mem_touched hwt
    have hsome' := (hneeds w hw).2 (hm rfl)
    have hkeep : c.missedTickets.get? u.ticketHash = tr.c₃.missedTickets.get? u.ticketHash :=
      tr.moves₄.steps.slot_of_not_touched (p := (.missed, u.ticketHash)) fun hmem => by
        obtain ⟨x, hx, hxt⟩ := mem_flatMap.1 hmem
        simp [touched_of_new (tr.ns_new x hx)] at hxt
    rw [← hk, hkeep, show tr.c₃.missedTickets.get? u.ticketHash = none from hgone] at hsome'
    cases hsome'
  · intro u hu
    obtain ⟨hnone, hsome⟩ := tr.moves₄.steps.live_of_added tr.ns_new hu
    by_contra hlive
    have hmem : (TicketSet.live, u.ticketHash) ∈
        (tr.ws ++ tr.es ++ tr.rs).flatMap touched := by
      by_contra hnot
      exact hlive ((tr.old_moves.steps.slot_of_not_touched hnot).symm.trans hnone)
    obtain ⟨w, hw, hwt⟩ := mem_flatMap.1 hmem
    obtain ⟨hk, -⟩ := mem_touched hwt
    rcases mem_append.1 hw with hw | hw
    · have hnone' := (hneeds w hw).1
      rw [← hk] at hnone'
      rw [show c.pool.live.get? u.ticketHash = none from hnone'] at hsome
      cases hsome
    · obtain ⟨_, hf⟩ := tr.moves₃.steps.exists_fits hw
      simp [touched_of_phase_one hf (tr.rs_phase w hw)] at hwt

/-- A block on top of the genesis block takes nothing from the live set. -/
theorem of_genesis (hn : n = genesisNode) : tr.Undoable := by
  subst hn
  have hws : tr.ws = [] := by
    have := tr.won
    rw [show (genesisNode : StakeNode Tickets).nextWinners = [] from rfl, ite_self] at this
    exact forall₂_nil_left_iff.1 this
  have hc₁ : tr.c₁ = genesisNode.child new := tr.moves₁.eq_of_nil hws
  have hes : tr.es = [] := by
    have := tr.expired
    rw [hc₁, show (genesisNode.child new).liveTickets.toList = [] from rfl, filter_nil,
      ite_self] at this
    exact forall₂_nil_left_iff.1 this
  have hc₂ : tr.c₂ = genesisNode.child new := (tr.moves₂.eq_of_nil hes).trans hc₁
  refine ⟨fun u hu => ?_, fun _ _ => rfl⟩
  have := (tr.moves₃.steps.missed_of_revoked tr.rs_phase hu).1
  rw [hc₂] at this
  exact this

end Trace

/-! ## Undoing a block -/

section Disconnect

variable [Blake256] {fuel : Nat} {n' c : StakeNode Tickets} {bs : List StakeBlock} {iv : Hash}
  {utds : Option (List UndoTicketData)} {tickets : Option (List Hash)}
  {dbFetch : Option (Nat → Except StakeError (List UndoTicketData × List Hash))}

section

variable (hinv : BaseInv fuel params n bs) (hgen : bs = [] → n = genesisNode)
  {r : StakeNode Tickets}

include hinv hgen

/-- A block that is undone had nothing in it that cannot be. -/
theorem BaseInv.undoable {iv' : Hash}
    (tr : Trace params n voted revoked new c) (hc : Finished fuel params n c iv n')
    (hr : disconnectNode fuel params n' iv' utds tickets dbFetch = .ok r) : tr.Undoable := by
  obtain ⟨hh, hpool, hundo, -⟩ := hc
  by_cases hbs : bs = []
  · exact tr.of_genesis (hgen hbs)
  · have hlen : 0 < bs.length := length_pos_iff.2 hbs
    unfold disconnectNode at hr
    rw [if_neg (by rw [hh, hinv.height]; omega)] at hr
    obtain ⟨_, -, hr⟩ := bind_eq_ok.1 hr
    obtain ⟨r₁, h₁, -⟩ := bind_eq_ok.1 hr
    rw [hundo] at h₁
    exact tr.of_undo (by exact hpool) h₁

variable (hdata : bs ≠ [] → parentData utds tickets dbFetch n.height =
  .ok (n.databaseUndoUpdate, n.databaseBlockTickets))

include hdata

/-- On maps, a node is restored in full: its records and new tickets are the ones that are passed
or looked up. -/
theorem BaseInv.disconnect_trace {tr : Trace params n voted revoked new c} (h : tr.Undoable)
    (hc : Finished fuel params n c iv n') :
    disconnectNode fuel params n' (lastIV bs) utds tickets dbFetch = .ok n := by
  obtain ⟨hh, hpool, hundo, -⟩ := hc
  unfold disconnectNode
  by_cases hbs : bs = []
  · rw [if_pos (by rw [hh, hinv.height, hbs]; rfl), hgen hbs]
  have hlen : 0 < bs.length := length_pos_iff.2 hbs
  rw [if_neg (by rw [hh, hinv.height]; omega), hh, Nat.add_sub_cancel, hdata hbs]
  have hwinners : (if params.stakeEnabledHeight ≤ n.height + 1 then n.nextWinners else []) =
      n.nextWinners := by
    split_ifs with hen
    · rfl
    · have := params.enabled_le_validation
      exact (hinv.lottery.idle (by omega)).1.symm
  show (n'.databaseUndoUpdate.foldlM undoTicket _ >>= _) = _
  rw [hundo, h.undoAll (by exact hpool), hwinners]
  show restoreFinalState fuel params (n.height + 1) (lastIV bs)
    { n with finalState := zeroFinalState } = _
  unfold restoreFinalState
  split_ifs with hval
  · obtain ⟨-, -, -, idxs, prng, hidx, hfinal⟩ := hinv.lottery.drawn (by omega)
    show (findTicketIdxs fuel n.liveTickets.size _ _ >>= _) = _
    rw [hidx]
    show Except.ok { n with finalState := lotteryState n.nextWinners prng } = _
    rw [← hfinal]
  · rw [← (hinv.lottery.idle (by omega)).2]

theorem BaseInv.disconnect (h : connectNode fuel params n iv voted revoked new = .ok n')
    (hrev : ∀ t ∈ revoked, (n.missedTickets.get? t).isSome)
    (hnew : ∀ t ∈ new, n.liveTickets.get? t = none) :
    disconnectNode fuel params n' (lastIV bs) utds tickets dbFetch = .ok n := by
  obtain ⟨c, ⟨tr⟩, hc⟩ := connectNode_spec hinv.flagged h
  have hundo : tr.Undoable :=
    ⟨fun u hu => hrev _ (tr.rs_mem hu), fun u hu => hnew _ (tr.ns_mem hu)⟩
  exact hinv.disconnect_trace hgen hdata hundo hc

/-- **What `disconnectNode` returns is the parent**, of whatever block. -/
theorem BaseInv.eq_of_disconnect (h : connectNode fuel params n iv voted revoked new = .ok n')
    (hr : disconnectNode fuel params n' (lastIV bs) utds tickets dbFetch = .ok r) : r = n := by
  obtain ⟨c, ⟨tr⟩, hc⟩ := connectNode_spec hinv.flagged h
  have hundo := hinv.undoable hgen tr hc hr
  exact Except.ok.inj (hr.symm.trans (hinv.disconnect_trace hgen hdata hundo hc))

end

end Disconnect

/-- **Undo is exact.** Disconnecting a block gives back the parent's tickets, winners, checksum and
height, if the tickets the block revokes were missed before it and its new tickets never appeared
on the chain. -/
theorem disconnectNode_connectNode [Blake256] (fuel : Nat) (params : Params) (bs : List StakeBlock)
    (b : StakeBlock) (n n' : StakeNode Immutable)
    (dbFetch : Option (Nat → Except StakeError (List UndoTicketData × List Hash)))
    (hn : replay fuel params bs = .ok n)
    (h : connectNode fuel params n b.lotteryIV b.ticketsVoted b.revokedTickets b.newTickets =
      .ok n')
    (hrevoked : ∀ t ∈ b.revokedTickets, n.missedTickets.has t)
    (hnew : ∀ t ∈ b.newTickets, t ∉ addedTickets bs) :
    ∃ r, disconnectNode fuel params n' (lastIV bs) (some n.databaseUndoUpdate)
        (some n.databaseBlockTickets) dbFetch = .ok r ∧ r.toMap = n.toMap := by
  obtain ⟨m, hm, hsim⟩ := (replay_sim fuel params bs).ok_left hn
  obtain ⟨m', hm', hsim'⟩ := (connectNode_sim hsim _ _ _ _ _ _).ok_left h
  have hinv := replay_base hm
  have hmissed : ∀ t ∈ b.revokedTickets, (m.missedTickets.get? t).isSome := fun t ht => by
    have hget : n.missedTickets.get t = m.missedTickets.get? t := hsim.missed.get t
    rw [← hget]
    exact hrevoked t ht
  have hback : disconnectNode fuel params m' (lastIV bs) (some m.databaseUndoUpdate)
      (some m.databaseBlockTickets) dbFetch = .ok m :=
    hinv.disconnect (fun hbs => by subst hbs; cases hm; rfl) (fun _ => rfl) hm' hmissed
      fun t ht => Option.not_isSome_iff_eq_none.1 fun hlive =>
        hnew t ht (hinv.held t (Or.inl hlive))
  rw [← hsim.undo, ← hsim.tickets] at hback
  obtain ⟨r, hr, hsimr⟩ := (disconnectNode_sim hsim' _ _ _ _ _ _).ok_right hback
  exact ⟨r, hr, hsimr.toMap_eq.trans hsim.toMap_eq.symm⟩

theorem disconnectNode_connectNode_smallChain : ∃ b bs n n' r, smallChain = b :: bs ∧
    @replay Immutable _ sumHash 100 smallParams bs = .ok n ∧
      @connectNode Immutable _ sumHash 100 smallParams n b.lotteryIV b.ticketsVoted
        b.revokedTickets b.newTickets = .ok n' ∧
      @disconnectNode Immutable _ sumHash 100 smallParams n' (lastIV bs)
        (some n.databaseUndoUpdate) (some n.databaseBlockTickets) none = .ok r ∧
      r.toMap = n.toMap := by
  obtain ⟨n', hn'⟩ := exists_of_isOk smallChain_isOk
  obtain ⟨n, hn, hc⟩ := bind_eq_ok.1 hn'
  have hmissed : ((@replay Immutable _ sumHash 100 smallParams smallChain.tail).toOption.any
      fun n => n.missedTickets.has (smallTicket 10)) = true := by decide +kernel
  rw [show @replay Immutable _ sumHash 100 smallParams smallChain.tail = .ok n from hn] at hmissed
  change n.missedTickets.has (smallTicket 10) = true at hmissed
  obtain ⟨r, hr, heq⟩ := @disconnectNode_connectNode sumHash 100 smallParams _ _ n n' none hn hc
    (by simpa using hmissed) (by decide +kernel)
  exact ⟨_, _, n, n', r, rfl, hn, hc, hr, heq⟩

end Fnod
