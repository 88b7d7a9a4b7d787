import Fnod.Stake.Tickets

/-!
# Stake nodes on treaps and on maps

`connectNode` and `disconnectNode` only touch the tickets through `TicketMap`, and they insert a
ticket only where it is new. So a node on treaps and the node on the maps the treaps stand for stay
together (`NodeSim`): the two functions fail alike on both, and succeed in related nodes. Results
proved about nodes on maps then hold of nodes on treaps.
-/

namespace Fnod

open Except Sim

/-- The node on treaps has the tickets, records and winners of the node on maps. -/
structure NodeSim (n : StakeNode Immutable) (m : StakeNode Tickets) : Prop where
  height : n.height = m.height
  live : TreapSim n.liveTickets m.liveTickets
  missed : TreapSim n.missedTickets m.missedTickets
  revoked : TreapSim n.revokedTickets m.revokedTickets
  undo : n.databaseUndoUpdate = m.databaseUndoUpdate
  tickets : n.databaseBlockTickets = m.databaseBlockTickets
  winners : n.nextWinners = m.nextWinners
  finalState : n.finalState = m.finalState

/-- The node on maps that a node on treaps stands for. -/
def StakeNode.toMap (n : StakeNode Immutable) : StakeNode Tickets :=
  { n with
    liveTickets := n.liveTickets.toMap
    missedTickets := n.missedTickets.toMap
    revokedTickets := n.revokedTickets.toMap }

theorem NodeSim.toMap_eq {n : StakeNode Immutable} {m : StakeNode Tickets} (h : NodeSim n m) :
    n.toMap = m := by
  obtain ⟨h1, ⟨h2, -⟩, ⟨h3, -⟩, ⟨h4, -⟩, h5, h6, h7, h8⟩ := h
  cases n; cases m
  simp only [StakeNode.toMap, StakeNode.mk.injEq]
  exact ⟨h1, h2, h3, h4, h5, h6, h7, h8⟩

theorem genesisNode_sim : NodeSim genesisNode genesisNode :=
  ⟨rfl, TreapSim.new, TreapSim.new, TreapSim.new, rfl, rfl, rfl, rfl⟩

section Tickets

variable {t : Immutable} {m : Tickets}

theorem safeGet_sim (h : TreapSim t m) (k : Hash) : Sim Eq (safeGet t k) (safeGet m k) := by
  unfold safeGet
  rw [h.get]
  exact Sim.refl _

theorem safePut_sim (h : TreapSim t m) (k : Hash) (v : TicketValue) :
    Sim TreapSim (safePut t k v) (safePut m k v) := by
  unfold safePut
  rw [h.has]
  exact ite (fun _ => error _) fun hk => ok (h.put (by simpa using hk) v)

theorem safeDelete_sim (h : TreapSim t m) (k : Hash) :
    Sim TreapSim (safeDelete t k) (safeDelete m k) := by
  unfold safeDelete
  rw [h.has]
  exact ite (fun _ => ok (h.delete k)) fun _ => error _

theorem fetchWinners_sim (h : TreapSim t m) (idxs : List Nat) :
    fetchWinners idxs t = fetchWinners idxs m := by
  unfold fetchWinners
  simp only [h.len, h.getByIndex]

end Tickets

section Nodes

variable {n : StakeNode Immutable} {m : StakeNode Tickets}

section

variable (h : NodeSim n m)

include h

theorem connectWinner_sim (voted : List Hash) (ticket : Hash) :
    Sim NodeSim (connectWinner voted n ticket) (connectWinner voted m ticket) := by
  unfold connectWinner
  refine Sim.bind (safeGet_sim h.live ticket) ?_
  rintro v _ rfl
  refine ite (fun _ => ?_) fun _ => ?_
  · refine Sim.bind (safeDelete_sim h.live ticket) fun live live' hlive => ?_
    exact ok { h with live := hlive, undo := by simp [h.undo] }
  · refine Sim.bind (safeDelete_sim h.live ticket) fun live live' hlive => ?_
    refine Sim.bind (safePut_sim h.missed ticket _) fun missed missed' hmissed => ?_
    exact ok { h with live := hlive, missed := hmissed, undo := by simp [h.undo] }

theorem connectExpired_sim (entry : Hash × TicketValue) :
    Sim NodeSim (connectExpired n entry) (connectExpired m entry) := by
  unfold connectExpired
  refine Sim.bind (safeDelete_sim h.live entry.1) fun live live' hlive => ?_
  refine Sim.bind (safePut_sim h.missed entry.1 _) fun missed missed' hmissed => ?_
  exact ok { h with live := hlive, missed := hmissed, undo := by simp [h.undo] }

theorem connectRevoked_sim (ticket : Hash) :
    Sim NodeSim (connectRevoked n ticket) (connectRevoked m ticket) := by
  unfold connectRevoked
  refine Sim.bind (safeGet_sim h.missed ticket) ?_
  rintro v _ rfl
  refine Sim.bind (safeDelete_sim h.missed ticket) fun missed missed' hmissed => ?_
  refine Sim.bind (safePut_sim h.revoked ticket _) fun revoked revoked' hrevoked => ?_
  exact ok { h with missed := hmissed, revoked := hrevoked, undo := by simp [h.undo] }

theorem connectNew_sim (ticket : Hash) :
    Sim NodeSim (connectNew n ticket) (connectNew m ticket) := by
  unfold connectNew
  rw [h.height]
  refine Sim.bind (safePut_sim h.live ticket _) fun live live' hlive => ?_
  exact ok { h with height := rfl, live := hlive, undo := by simp [h.undo] }

theorem connectSpent_sim (params : Params) (winners voted revoked : List Hash) :
    Sim NodeSim (connectSpent params winners voted revoked n)
      (connectSpent params winners voted revoked m) := by
  unfold connectSpent
  rw [h.height]
  refine ite (fun _ => ?_) fun _ => ok h
  refine Sim.bind (Sim.refl _) fun _ _ _ => ?_
  refine Sim.bind (foldlM (fun _ _ ticket h => connectWinner_sim h voted ticket) winners h)
    fun n m h => ?_
  rw [h.live.forEachByHeight, h.height]
  refine Sim.bind (foldlM (fun _ _ entry h => connectExpired_sim h entry) _ h) fun n m h => ?_
  exact foldlM (fun _ _ ticket h => connectRevoked_sim h ticket) revoked h

theorem undoTicket_sim (undo : UndoTicketData) :
    Sim NodeSim (undoTicket n undo) (undoTicket m undo) := by
  unfold undoTicket
  refine ite (fun _ => ?_) fun _ => ite (fun _ => ?_) fun _ => ite (fun _ => ?_)
    fun _ => ite (fun _ => ?_) fun _ => error _
  · refine Sim.bind (safeDelete_sim h.live _) fun live live' hlive => ?_
    exact ok { h with live := hlive }
  · refine Sim.bind (safeDelete_sim h.revoked _) fun revoked revoked' hrevoked => ?_
    refine Sim.bind (safePut_sim h.missed _ _) fun missed missed' hmissed => ?_
    exact ok { h with missed := hmissed, revoked := hrevoked }
  · refine Sim.bind (safeDelete_sim h.missed _) fun missed missed' hmissed => ?_
    refine Sim.bind (safePut_sim h.live _ _) fun live live' hlive => ?_
    exact ok { h with live := hlive, missed := hmissed, winners := by simp [h.winners] }
  · refine Sim.bind (safePut_sim h.live _ _) fun live live' hlive => ?_
    exact ok { h with live := hlive, winners := by simp [h.winners] }

end

variable [Blake256]

theorem connectWinners_sim (h : NodeSim n m) (fuel : Nat) (params : Params) (iv : Hash) :
    Sim NodeSim (connectWinners fuel params iv n) (connectWinners fuel params iv m) := by
  unfold connectWinners
  rw [h.height, h.live.len]
  refine ite (fun _ => ?_) fun _ => ok h
  refine Sim.bind (Sim.refl _) ?_
  rintro ⟨idxs, prng⟩ _ rfl
  dsimp only
  rw [fetchWinners_sim h.live]
  refine Sim.bind (Sim.refl _) ?_
  rintro winners _ rfl
  exact ok { h with height := rfl, winners := rfl, finalState := rfl }

/-- **Connecting** a block to a node on treaps is connecting it to the node on maps. -/
theorem connectNode_sim (h : NodeSim n m) (fuel : Nat) (params : Params) (iv : Hash)
    (voted revoked new : List Hash) : Sim NodeSim (connectNode fuel params n iv voted revoked new)
      (connectNode fuel params m iv voted revoked new) := by
  unfold connectNode
  have h0 : NodeSim
      { n with
        height := n.height + 1
        databaseUndoUpdate := []
        databaseBlockTickets := new
        nextWinners := []
        finalState := zeroFinalState }
      { m with
        height := m.height + 1
        databaseUndoUpdate := []
        databaseBlockTickets := new
        nextWinners := []
        finalState := zeroFinalState } :=
    ⟨by simp [h.height], h.live, h.missed, h.revoked, rfl, rfl, rfl, rfl⟩
  rw [h.winners]
  refine Sim.bind (connectSpent_sim h0 _ _ _ _) fun n m h => ?_
  refine Sim.bind (foldlM (fun _ _ ticket h => connectNew_sim h ticket) new h) fun n m h => ?_
  exact connectWinners_sim h fuel params iv

theorem replay_sim (fuel : Nat) (params : Params) (bs : List StakeBlock) :
    Sim NodeSim (replay fuel params bs) (replay fuel params bs) := by
  induction bs with
  | nil => exact ok genesisNode_sim
  | cons b bs ih => exact Sim.bind ih fun _ _ h => connectNode_sim h _ _ _ _ _ _

/-- **Disconnecting** a block from a node on treaps is disconnecting it from the node on maps. -/
theorem disconnectNode_sim (h : NodeSim n m) (fuel : Nat) (params : Params) (iv : Hash)
    (utds : Option (List UndoTicketData)) (tickets : Option (List Hash))
    (dbFetch : Option (Nat → Except StakeError (List UndoTicketData × List Hash))) :
    Sim NodeSim (disconnectNode fuel params n iv utds tickets dbFetch)
      (disconnectNode fuel params m iv utds tickets dbFetch) := by
  unfold disconnectNode
  rw [h.height]
  refine ite (fun _ => ok genesisNode_sim) fun _ => ?_
  refine Sim.bind (Sim.refl _) ?_
  rintro ⟨utds, tickets⟩ _ rfl
  rw [h.undo]
  have h0 : NodeSim
      { n with
        height := m.height - 1
        databaseUndoUpdate := utds
        databaseBlockTickets := tickets
        nextWinners := []
        finalState := zeroFinalState }
      { m with
        height := m.height - 1
        databaseUndoUpdate := utds
        databaseBlockTickets := tickets
        nextWinners := []
        finalState := zeroFinalState } :=
    ⟨rfl, h.live, h.missed, h.revoked, rfl, rfl, rfl, rfl⟩
  refine Sim.bind (foldlM (fun _ _ undo h => undoTicket_sim h undo) _ h0) fun n m h => ?_
  unfold restoreFinalState
  rw [h.live.len]
  refine ite (fun _ => ?_) fun _ => ok h
  refine Sim.bind (Sim.refl _) ?_
  rintro ⟨idxs, prng⟩ _ rfl
  exact ok { h with finalState := by simp [h.winners] }

end Nodes

end Fnod
