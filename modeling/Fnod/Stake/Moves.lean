import Fnod.Stake.Refine

/-!
# Tickets move between three sets

Every record that `connectNode` leaves says which of four moves a ticket made: it became live, it
was spent, it was missed, or it was revoked. A record *fits* a pool when the ticket is where the
move takes it from (`Fits`), and `redo` makes the move. Connecting a block is a chain of fitting
moves (`Steps`); `Fnod.Stake.Undo` takes the moves back.

* `connectNode_trace` — the pool of a child is reached from its parent's by the moves in its
  records, in order, and the phases of `connectNode` say which records these are.
-/

namespace Fnod

open Except List OrdMap StakeNode UndoTicketData

/-! ## Pools -/

/-- The three sets of tickets. -/
structure Pool where
  live : Tickets
  missed : Tickets
  revoked : Tickets

/-- Where one ticket is. -/
@[ext] structure Cell where
  live : Option TicketValue
  missed : Option TicketValue
  revoked : Option TicketValue

namespace Pool

def cell (s : Pool) (k : Hash) : Cell := ⟨s.live.get? k, s.missed.get? k, s.revoked.get? k⟩

theorem ext_cell {s s' : Pool} (h : ∀ k, s.cell k = s'.cell k) : s = s' := by
  obtain ⟨l, m, r⟩ := s
  obtain ⟨l', m', r'⟩ := s'
  simp only [cell, Cell.mk.injEq] at h
  rw [OrdMap.ext_get? fun k => (h k).1, OrdMap.ext_get? fun k => (h k).2.1,
    OrdMap.ext_get? fun k => (h k).2.2]

end Pool

def StakeNode.pool (n : StakeNode Tickets) : Pool :=
  ⟨n.liveTickets, n.missedTickets, n.revokedTickets⟩

/-! ## Flags -/

namespace TicketValue

/-- A live ticket carries no flag. -/
def IsLive (v : TicketValue) : Prop :=
  v.missed = false ∧ v.revoked = false ∧ v.spent = false ∧ v.expired = false

/-- A missed ticket is flagged missed, possibly expired, and nothing else. -/
def IsMissed (v : TicketValue) : Prop := v.missed = true ∧ v.revoked = false ∧ v.spent = false

/-- A revoked ticket is flagged missed and revoked. -/
def IsRevoked (v : TicketValue) : Prop := v.missed = true ∧ v.revoked = true ∧ v.spent = false

end TicketValue

/-- The flags of every ticket say which set it is in. -/
structure Pool.Flagged (s : Pool) : Prop where
  live : ∀ {k v}, s.live.get? k = some v → v.IsLive
  missed : ∀ {k v}, s.missed.get? k = some v → v.IsMissed
  revoked : ∀ {k v}, s.revoked.get? k = some v → v.IsRevoked

/-! ## Moves -/

/-- The record is one the move could have left, and the ticket is where the move takes it from. -/
inductive Fits (s : Pool) : UndoTicketData → Prop
  | new {k : Hash} {h : Nat} : s.live.get? k = none →
      Fits s (undoOf k ⟨h, false, false, false, false⟩)
  | spent {k : Hash} {v : TicketValue} : s.live.get? k = some v → v.IsLive →
      Fits s (undoOf k { v with spent := true })
  | missed {k : Hash} {v : TicketValue} (expired : Bool) : s.live.get? k = some v → v.IsLive →
      s.missed.get? k = none → Fits s (undoOf k { v with missed := true, expired := expired })
  | revoked {k : Hash} {v : TicketValue} : s.missed.get? k = some v → v.IsMissed →
      s.revoked.get? k = none → Fits s (undoOf k { v with revoked := true })

/-- Make the move a record tells of. -/
def redo (s : Pool) (u : UndoTicketData) : Pool :=
  let k := u.ticketHash
  if !u.missed && !u.revoked && !u.spent then { s with live := s.live.insert k u.value }
  else if u.missed && u.revoked then
    { s with missed := s.missed.erase k, revoked := s.revoked.insert k u.value }
  else if u.missed && !u.revoked then
    { s with live := s.live.erase k, missed := s.missed.insert k u.value }
  else { s with live := s.live.erase k }

@[simp] theorem value_undoOf (k : Hash) (v : TicketValue) : (undoOf k v).value = v := rfl

@[simp] theorem ticketHash_undoOf (k : Hash) (v : TicketValue) : (undoOf k v).ticketHash = k := rfl

section Redo

variable {s : Pool} {k : Hash} {v : TicketValue}

theorem redo_new (h : Nat) : redo s (undoOf k ⟨h, false, false, false, false⟩) =
    { s with live := s.live.insert k ⟨h, false, false, false, false⟩ } := rfl

theorem redo_spent (hv : v.IsLive) : redo s (undoOf k { v with spent := true }) =
    { s with live := s.live.erase k } := by
  obtain ⟨h1, h2, h3, h4⟩ := hv
  simp [redo, undoOf, h1]

theorem redo_missed (hv : v.IsLive) (e : Bool) :
    redo s (undoOf k { v with missed := true, expired := e }) =
      { s with
        live := s.live.erase k
        missed := s.missed.insert k { v with missed := true, expired := e } } := by
  obtain ⟨h1, h2, h3, h4⟩ := hv
  simp [redo, undoOf, value, h2]

theorem redo_revoked (hv : v.IsMissed) : redo s (undoOf k { v with revoked := true }) =
    { s with
      missed := s.missed.erase k
      revoked := s.revoked.insert k { v with revoked := true } } := by
  obtain ⟨h1, h2, h3⟩ := hv
  simp [redo, undoOf, value, h1]

end Redo

variable {u : UndoTicketData} {ticket : Hash} {c c' : StakeNode Tickets} {s s' : Pool}
  {voted revoked : List Hash} {us : List UndoTicketData} {params : Params}

/-- A move touches no other ticket. -/
theorem cell_redo_of_ne {k : Hash} (hk : k ≠ u.ticketHash) : (redo s u).cell k = s.cell k := by
  unfold redo
  simp only
  split_ifs <;> simp [Pool.cell, get?_insert, get?_erase, hk]

theorem Pool.Flagged.redo (hs : s.Flagged) (hu : Fits s u) : (redo s u).Flagged := by
  cases hu with
  | new h =>
    rw [redo_new]
    refine ⟨fun {k v} hk => ?_, hs.missed, hs.revoked⟩
    rw [get?_insert] at hk
    split_ifs at hk
    · cases hk; exact ⟨rfl, rfl, rfl, rfl⟩
    · exact hs.live hk
  | spent h hv =>
    rw [redo_spent hv]
    refine ⟨fun {k v} hk => ?_, hs.missed, hs.revoked⟩
    rw [get?_erase] at hk
    split_ifs at hk
    exact hs.live hk
  | missed e h hv h' =>
    rw [redo_missed hv]
    refine ⟨fun {k v} hk => ?_, fun {k v} hk => ?_, hs.revoked⟩
    · rw [get?_erase] at hk
      split_ifs at hk
      exact hs.live hk
    · rw [get?_insert] at hk
      split_ifs at hk
      · cases hk; exact ⟨rfl, hv.2.1, hv.2.2.1⟩
      · exact hs.missed hk
  | revoked h hv h' =>
    rw [redo_revoked hv]
    refine ⟨hs.live, fun {k v} hk => ?_, fun {k v} hk => ?_⟩
    · rw [get?_erase] at hk
      split_ifs at hk
      exact hs.missed hk
    · rw [get?_insert] at hk
      split_ifs at hk
      · cases hk; exact ⟨hv.1, rfl, hv.2.2⟩
      · exact hs.revoked hk

/-- A chain of fitting moves. -/
inductive Steps (s : Pool) : List UndoTicketData → Pool → Prop
  | nil : Steps s [] s
  | snoc {us : List UndoTicketData} {s' : Pool} {u : UndoTicketData} :
      Steps s us s' → Fits s' u → Steps s (us ++ [u]) (redo s' u)

theorem Steps.flagged (h : Steps s us s') (hs : s.Flagged) : s'.Flagged := by
  induction h with
  | nil => exact hs
  | snoc _ hu ih => exact ih.redo hu

/-- Every record of a chain is one that a move leaves. -/
theorem Steps.exists_fits (h : Steps s us s') (hu : u ∈ us) : ∃ s₁, Fits s₁ u := by
  induction h with
  | nil => cases hu
  | @snoc us s' w _ hw ih =>
    rcases mem_append.1 hu with hu | hu
    · exact ih hu
    · exact ⟨s', mem_singleton.1 hu ▸ hw⟩

/-! ## Moves of a node -/

def StakeNode.move (c : StakeNode Tickets) (u : UndoTicketData) : StakeNode Tickets :=
  { c with
    liveTickets := (redo c.pool u).live
    missedTickets := (redo c.pool u).missed
    revokedTickets := (redo c.pool u).revoked
    databaseUndoUpdate := c.databaseUndoUpdate ++ [u] }

@[simp] theorem pool_move (c : StakeNode Tickets) (u : UndoTicketData) :
    (c.move u).pool = redo c.pool u := rfl

/-- A node reached by a chain of fitting moves. -/
inductive Moves (c : StakeNode Tickets) : List UndoTicketData → StakeNode Tickets → Prop
  | nil : Moves c [] c
  | snoc {us : List UndoTicketData} {c' : StakeNode Tickets} {u : UndoTicketData} :
      Moves c us c' → Fits c'.pool u → Moves c (us ++ [u]) (c'.move u)

namespace Moves

variable {c c' c'' : StakeNode Tickets} {us us' : List UndoTicketData}

section

variable (h : Moves c us c')

include h

theorem steps : Steps c.pool us c'.pool := by
  induction h with
  | nil => exact .nil
  | snoc _ hu ih => exact .snoc ih hu

theorem trans (h' : Moves c' us' c'') : Moves c (us ++ us') c'' := by
  induction h' with
  | nil => simpa using h
  | snoc _ hu ih => rw [← append_assoc]; exact .snoc ih hu

theorem eq_of_nil (hus : us = []) : c' = c := by
  cases h with
  | nil => rfl
  | snoc _ _ => simp at hus

theorem undo_eq : c'.databaseUndoUpdate = c.databaseUndoUpdate ++ us := by
  induction h with
  | nil => simp
  | snoc _ _ ih => simp [move, ih]

/-- Moves change the tickets and the records only. -/
theorem frame : c'.height = c.height ∧
    c'.databaseBlockTickets = c.databaseBlockTickets ∧ c'.nextWinners = c.nextWinners ∧
    c'.finalState = c.finalState := by
  induction h with
  | nil => exact ⟨rfl, rfl, rfl, rfl⟩
  | snoc _ _ ih => exact ih

theorem flagged (hc : c.pool.Flagged) : c'.pool.Flagged := h.steps.flagged hc

end

end Moves

/-- A loop whose every round is a fitting move is a chain of moves. `P` is what a round may assume
about the node and the items still to come, and `K` relates an item to the record it leaves. -/
theorem foldlM_moves {α : Type} {f : StakeNode Tickets → α → Except StakeError (StakeNode Tickets)}
    {K : α → UndoTicketData → Prop} (P : StakeNode Tickets → List α → Prop)
    (hstep : ∀ c a l c', P c (a :: l) → c.pool.Flagged → f c a = .ok c' →
      ∃ u, K a u ∧ Fits c.pool u ∧ c' = c.move u ∧ P c' l)
    {l : List α} (hP : P c l) (hc : c.pool.Flagged)
    (h : l.foldlM f c = .ok c') : ∃ us, List.Forall₂ K l us ∧ Moves c us c' := by
  induction l generalizing c with
  | nil => cases h; exact ⟨[], .nil, .nil⟩
  | cons a l ih =>
    obtain ⟨c₁, h₁, h⟩ := foldlM_cons_eq_ok.1 h
    obtain ⟨u, hK, hu, rfl, hP'⟩ := hstep c a l c₁ hP hc h₁
    obtain ⟨us, hKs, hus⟩ := ih hP' (hc.redo hu) h
    exact ⟨u :: us, .cons hK hKs, (Moves.snoc .nil hu).trans hus⟩

/-! ## The steps of `connectNode` are moves -/

section Inversion

variable {t t' : Tickets} {k : Hash} {v : TicketValue}

theorem safeGet_eq_ok : safeGet t k = .ok v ↔ t.get? k = some v := by
  unfold safeGet
  rw [show TicketMap.get t k = t.get? k from rfl]
  cases t.get? k <;> simp

theorem safePut_eq_ok : safePut t k v = .ok t' ↔ t.get? k = none ∧ t' = t.insert k v := by
  unfold safePut
  show (if (t.get? k).isSome then _ else Except.ok (t.insert k v)) = _ ↔ _
  cases t.get? k <;> simp [eq_comm]

theorem safeDelete_eq_ok : safeDelete t k = .ok t' ↔ (∃ v, t.get? k = some v) ∧ t' = t.erase k := by
  unfold safeDelete
  show (if (t.get? k).isSome then Except.ok (t.erase k) else _) = _ ↔ _
  cases t.get? k <;> simp [eq_comm]

end Inversion

/-- The record of a winner of the restored block: a ticket that was spent, or missed without
having expired. -/
def UndoTicketData.winner (u : UndoTicketData) : Bool :=
  if u.missed then !u.revoked && !u.expired else u.spent

theorem IsLive.missed_eq {v : TicketValue} (hv : v.IsLive) :
    { v with spent := false, missed := true } = { v with missed := true, expired := false } := by
  obtain ⟨h1, h2, h3, h4⟩ := hv
  simp [h3, h4]

theorem connectWinner_move (hc : c.pool.Flagged) (h : connectWinner voted c ticket = .ok c') :
    ∃ u, (u.ticketHash = ticket ∧ u.winner = true ∧ (u.spent = true ↔ ticket ∈ voted)) ∧
      Fits c.pool u ∧ c' = c.move u := by
  unfold connectWinner at h
  obtain ⟨v, hv, h⟩ := bind_eq_ok.1 h
  have hget : c.pool.live.get? ticket = some v := safeGet_eq_ok.1 hv
  have hlive := hc.live hget
  split_ifs at h with hvoted
  · obtain ⟨-, h⟩ := of_bind_eq_ok h safeDelete_eq_ok.1
    cases h
    have he : ({ v with spent := true, missed := false } : TicketValue) =
      { v with spent := true } := by
      simp [hlive.1]
    refine ⟨_, ⟨rfl, ?_, ?_⟩, .spent hget hlive, ?_⟩
    · simp [winner, undoOf, hlive.1]
    · simp [undoOf, hvoted]
    · rw [he, move, redo_spent hlive]
      rfl
  · obtain ⟨-, h⟩ := of_bind_eq_ok h safeDelete_eq_ok.1
    obtain ⟨hnone, h⟩ := of_bind_eq_ok h safePut_eq_ok.1
    cases h
    refine ⟨_, ⟨rfl, ?_, ?_⟩, .missed false hget hlive hnone, ?_⟩
    · simp [winner, undoOf, hlive.2.1]
    · simp [undoOf, hvoted, hlive.2.2.1]
    · rw [IsLive.missed_eq hlive, move, redo_missed hlive]
      rfl

theorem connectExpired_move {entry : Hash × TicketValue}
    (hc : c.pool.Flagged) (hget : c.liveTickets.get? entry.1 = some entry.2)
    (h : connectExpired c entry = .ok c') :
    ∃ u, (u.ticketHash = entry.1 ∧ u.winner = false ∧ u.spent = false ∧ u.missed = true ∧
      u.revoked = false) ∧ Fits c.pool u ∧ c' = c.move u := by
  unfold connectExpired at h
  obtain ⟨-, h⟩ := of_bind_eq_ok h safeDelete_eq_ok.1
  obtain ⟨hnone, h⟩ := of_bind_eq_ok h safePut_eq_ok.1
  cases h
  have hlive := hc.live hget
  refine ⟨_, ⟨rfl, ?_, hlive.2.2.1, rfl, hlive.2.1⟩, .missed true hget hlive hnone, ?_⟩
  · simp [winner, undoOf]
  · rw [move, redo_missed hlive]
    rfl

theorem connectRevoked_move (hc : c.pool.Flagged) (h : connectRevoked c ticket = .ok c') :
    ∃ u, (u.ticketHash = ticket ∧ u.winner = false ∧ u.revoked = true) ∧
      Fits c.pool u ∧ c' = c.move u := by
  unfold connectRevoked at h
  obtain ⟨v, hv, h⟩ := bind_eq_ok.1 h
  have hget : c.pool.missed.get? ticket = some v := safeGet_eq_ok.1 hv
  have hmissed := hc.missed hget
  obtain ⟨-, h⟩ := of_bind_eq_ok h safeDelete_eq_ok.1
  obtain ⟨hnone, h⟩ := of_bind_eq_ok h safePut_eq_ok.1
  cases h
  refine ⟨_, ⟨rfl, ?_, rfl⟩, .revoked hget hmissed hnone, ?_⟩
  · simp [winner, undoOf, hmissed.1]
  · rw [move, redo_revoked hmissed]
    rfl

theorem connectNew_move (h : connectNew c ticket = .ok c') :
    Fits c.pool (undoOf ticket ⟨c.height, false, false, false, false⟩) ∧
      c' = c.move (undoOf ticket ⟨c.height, false, false, false, false⟩) := by
  unfold connectNew at h
  obtain ⟨hnone, h⟩ := of_bind_eq_ok h safePut_eq_ok.1
  cases h
  exact ⟨.new hnone, rfl⟩

/-! ## The trace of a block -/

/-- The node `connectNode` starts from: the parent's tickets at the child's height. -/
def StakeNode.child (n : StakeNode Tickets) (newTickets : List Hash) : StakeNode Tickets :=
  { n with
    height := n.height + 1
    databaseUndoUpdate := []
    databaseBlockTickets := newTickets
    nextWinners := []
    finalState := zeroFinalState }

/-- What connecting a block to `n` did before the lottery, phase by phase: the winners of the
parent, the tickets that expired, the revocations, and the new tickets. -/
structure Trace (params : Params) (n : StakeNode Tickets) (voted revoked new : List Hash)
    (c : StakeNode Tickets) where
  ws : List UndoTicketData
  es : List UndoTicketData
  rs : List UndoTicketData
  ns : List UndoTicketData
  c₁ : StakeNode Tickets
  c₂ : StakeNode Tickets
  c₃ : StakeNode Tickets
  moves₁ : Moves (n.child new) ws c₁
  moves₂ : Moves c₁ es c₂
  moves₃ : Moves c₂ rs c₃
  moves₄ : Moves c₃ ns c
  voted_mem : params.stakeEnabledHeight ≤ n.height + 1 → ∀ t ∈ voted, t ∈ n.nextWinners
  won : List.Forall₂
    (fun t u => u.ticketHash = t ∧ u.winner = true ∧ (u.spent = true ↔ t ∈ voted))
    (if params.stakeEnabledHeight ≤ n.height + 1 then n.nextWinners else []) ws
  expired : List.Forall₂
    (fun e u => u.ticketHash = e.1 ∧ u.winner = false ∧ u.spent = false ∧ u.missed = true ∧
      u.revoked = false)
    (if params.stakeEnabledHeight ≤ n.height + 1 then
      c₁.liveTickets.toList.filter fun a => a.2.height < toExpireHeight params (n.height + 1) + 1
      else []) es
  revoked : List.Forall₂ (fun t u => u.ticketHash = t ∧ u.winner = false ∧ u.revoked = true)
    (if params.stakeEnabledHeight ≤ n.height + 1 then revoked else []) rs
  added : List.Forall₂ (fun t u => u = undoOf t ⟨n.height + 1, false, false, false, false⟩) new ns

namespace Trace

variable {params : Params} {n c : StakeNode Tickets} {voted revoked new : List Hash}

section

variable (tr : Trace params n voted revoked new c)

include tr

theorem moves : Moves (n.child new) (tr.ws ++ tr.es ++ tr.rs ++ tr.ns) c :=
  ((tr.moves₁.trans tr.moves₂).trans tr.moves₃).trans tr.moves₄

theorem undo_eq : c.databaseUndoUpdate = tr.ws ++ tr.es ++ tr.rs ++ tr.ns :=
  tr.moves.undo_eq

theorem steps : Steps n.pool c.databaseUndoUpdate c.pool :=
  tr.undo_eq ▸ tr.moves.steps

end

end Trace

/-- The vote-related part of `connectNode`, as three phases of moves. -/
theorem connectSpent_moves {winners : List Hash} (hc : c.pool.Flagged)
    (h : connectSpent params winners voted revoked c = .ok c') :
    ∃ ws es rs c₁ c₂, Moves c ws c₁ ∧ Moves c₁ es c₂ ∧ Moves c₂ rs c' ∧
      (params.stakeEnabledHeight ≤ c.height → ∀ t ∈ voted, t ∈ winners) ∧
      List.Forall₂
        (fun t u => u.ticketHash = t ∧ u.winner = true ∧ (u.spent = true ↔ t ∈ voted))
        (if params.stakeEnabledHeight ≤ c.height then winners else []) ws ∧
      List.Forall₂
        (fun e u => u.ticketHash = e.1 ∧ u.winner = false ∧ u.spent = false ∧ u.missed = true ∧
          u.revoked = false)
        (if params.stakeEnabledHeight ≤ c.height then
          c₁.liveTickets.toList.filter fun a => a.2.height < toExpireHeight params c.height + 1
          else []) es ∧
      List.Forall₂ (fun t u => u.ticketHash = t ∧ u.winner = false ∧ u.revoked = true)
        (if params.stakeEnabledHeight ≤ c.height then revoked else []) rs := by
  unfold connectSpent at h
  split_ifs at h with hen
  · obtain ⟨_, hvoted, h⟩ := bind_eq_ok.1 h
    obtain ⟨c₁, h₁, h⟩ := bind_eq_ok.1 h
    obtain ⟨c₂, h₂, h₃⟩ := bind_eq_ok.1 h
    obtain ⟨ws, hws, hm₁⟩ := foldlM_moves (fun _ _ => True)
      (fun c a l c' _ hc h => by
        obtain ⟨u, hu, hf, he⟩ := connectWinner_move hc h
        exact ⟨u, hu, hf, he, trivial⟩) trivial hc h₁
    have hc₁ := hm₁.flagged hc
    -- Entries still to be visited are still live: a round removes its own key only.
    obtain ⟨es, hes, hm₂⟩ := foldlM_moves
      (fun c l => (l.map Prod.fst).Nodup ∧ ∀ e ∈ l, c.liveTickets.get? e.1 = some e.2)
      (fun c a l c' hP hc h => by
        obtain ⟨hnd, hget⟩ := hP
        obtain ⟨u, hu, hf, rfl⟩ := connectExpired_move hc (hget a mem_cons_self) h
        refine ⟨u, hu, hf, rfl, (nodup_cons.1 hnd).2, fun e he => ?_⟩
        have hne : e.1 ≠ u.ticketHash := by
          rw [hu.1]
          intro heq
          exact (nodup_cons.1 hnd).1 (heq ▸ mem_map_of_mem he)
        have hcell := cell_redo_of_ne (s := c.pool) hne
        exact (congrArg Cell.live hcell).trans (hget e (mem_cons_of_mem _ he)))
      (by
        constructor
        · exact (keys_nodup c₁.liveTickets).sublist (List.Sublist.map _ filter_sublist)
        · intro e he
          exact mem_toList.1 (mem_of_mem_filter he)) hc₁ h₂
    obtain ⟨rs, hrs, hm₃⟩ := foldlM_moves (fun _ _ => True)
      (fun c a l c' _ hc h => by
        obtain ⟨u, hu, hf, he⟩ := connectRevoked_move hc h
        exact ⟨u, hu, hf, he, trivial⟩) trivial (hm₂.flagged hc₁) h₃
    refine ⟨ws, es, rs, c₁, c₂, hm₁, hm₂, hm₃, fun _ t ht => ?_, ?_, ?_, ?_⟩
    · unfold checkVoted at hvoted
      split at hvoted
      · cases hvoted
      · rename_i hnone
        simpa using List.find?_eq_none.1 hnone t ht
    · rwa [if_pos hen]
    · rw [if_pos hen]
      have hh : c₁.height = c.height := hm₁.frame.1
      rw [← hh]
      exact hes
    · rwa [if_pos hen]
  · cases h
    refine ⟨[], [], [], c, c, .nil, .nil, .nil, fun hen' => absurd hen' hen, ?_, ?_, ?_⟩ <;>
      rw [if_neg hen] <;> exact .nil

/-- **The trace.** A block that connects leaves a trace, and the lottery comes last. -/
theorem connectNode_trace [Blake256] {fuel : Nat} {n n' : StakeNode Tickets}
    {iv : Hash} {new : List Hash} (hn : n.pool.Flagged)
    (h : connectNode fuel params n iv voted revoked new = .ok n') :
    ∃ c, Nonempty (Trace params n voted revoked new c) ∧
      connectWinners fuel params iv c = .ok n' := by
  unfold connectNode at h
  obtain ⟨c₃, h₃, h⟩ := bind_eq_ok.1 h
  obtain ⟨c, h₄, h⟩ := bind_eq_ok.1 h
  obtain ⟨ws, es, rs, c₁, c₂, hm₁, hm₂, hm₃, hv, hws, hes, hrs⟩ :=
    connectSpent_moves (c := n.child new) hn h₃
  have hheight : c₃.height = n.height + 1 := hm₃.frame.1.trans (hm₂.frame.1.trans hm₁.frame.1)
  obtain ⟨ns, hns, hm₄⟩ := foldlM_moves
    (K := fun t u => u = undoOf t ⟨n.height + 1, false, false, false, false⟩)
    (fun c _ => c.height = n.height + 1)
    (fun c a l c' hP _ h => by
      obtain ⟨hf, he⟩ := connectNew_move h
      rw [hP] at hf he
      exact ⟨_, rfl, hf, he, he ▸ hP⟩) hheight
    (hm₃.flagged (hm₂.flagged (hm₁.flagged hn))) h₄
  exact ⟨c, ⟨⟨ws, es, rs, ns, c₁, c₂, c₃, hm₁, hm₂, hm₃, hm₄, hv, hws, hes, hrs, hns⟩⟩, h⟩

end Fnod
