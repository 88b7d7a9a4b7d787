import Fnod.Stake.Mirror

/-!
# Runs of the stake database

The stake database starts at the genesis block. Then blocks are connected to the best block and
disconnected from it, in any order; each time the in-memory node is computed and the database is
written.

**Theorem (`stakeRun_mirrors`).** In every state that is reached, `loadBestNode` returns the
in-memory node of the best block, the undo data and new tickets of exactly the blocks up to the best
height are stored, and the next write does not fail.
-/

namespace Fnod

open Except List OrdMap

/-! ## Histories -/

/-- A block as the stake code and its database see it. -/
structure ChainBlock where
  hash : Hash
  /-- The serialized header. -/
  header : List UInt8
  ticketsVoted : List Hash
  revokedTickets : List Hash
  newTickets : List Hash

/-- The blocks of the main chain above the genesis block with their nodes, newest first. -/
abbrev History := List (ChainBlock × StakeNode Immutable)

namespace History

/-- The node of the best block. -/
def tipNode : History → StakeNode Immutable
  | [] => genesisNode
  | (_, n) :: _ => n

def setTip (n : StakeNode Immutable) : History → History
  | [] => []
  | (b, _) :: hist => (b, n) :: hist

/-- The hash and the header of the best block, given those of the genesis block. -/
def tipBlock (genesis : Hash × List UInt8) : History → Hash × List UInt8
  | [] => genesis
  | (b, _) :: _ => (b.hash, b.header)

@[simp] theorem length_setTip (n : StakeNode Immutable) (hist : History) :
    (hist.setTip n).length = hist.length := by
  cases hist <;> rfl

@[simp] theorem tipBlock_setTip (genesis : Hash × List UInt8) (n : StakeNode Immutable)
    (hist : History) : (hist.setTip n).tipBlock genesis = hist.tipBlock genesis := by
  cases hist <;> rfl

/-- Only the tip of a history has a new node. -/
theorem suffix_setTip {n : StakeNode Immutable} {hist hist' : History}
    (h : hist' <:+ hist.setTip n) : hist' = hist.setTip n ∨ hist' <:+ hist := by
  cases hist with
  | nil => exact Or.inr h
  | cons a hist =>
    rcases suffix_cons_iff.1 h with h | h
    · exact Or.inl h
    · exact Or.inr (h.trans (suffix_cons a hist))

end History

section Runs

variable [Blake256]

def ChainBlock.stake (b : ChainBlock) : StakeBlock :=
  ⟨calcHash256PRNGIV b.header, b.ticketsVoted, b.revokedTickets, b.newTickets⟩

namespace History

def blocks (hist : History) : List StakeBlock := hist.map (·.1.stake)

@[simp] theorem blocks_cons (b : ChainBlock) (n : StakeNode Immutable) (hist : History) :
    History.blocks ((b, n) :: hist) = b.stake :: hist.blocks := rfl

@[simp] theorem length_blocks (hist : History) : hist.blocks.length = hist.length :=
  length_map _

@[simp] theorem blocks_setTip (n : StakeNode Immutable) (hist : History) :
    (hist.setTip n).blocks = hist.blocks := by
  cases hist <;> rfl

theorem blocks_suffix {hist hist' : History} (h : hist' <:+ hist) :
    hist'.blocks <:+ hist.blocks := h.map _

theorem lastIV_blocks (genesis : Hash × List UInt8) {hist : History} (h : hist ≠ []) :
    lastIV hist.blocks = calcHash256PRNGIV (hist.tipBlock genesis).2 := by
  cases hist with
  | nil => exact absurd rfl h
  | cons a hist => rfl

end History

open History

/-! ## Runs -/

variable (fuel : Nat) (params : Params) (genesis : Hash × List UInt8)

/-- The states reached by connecting and disconnecting blocks. A block has at most 255 new tickets,
whose number is a byte of a header, and heights are 32-bit numbers. The data of the parent is passed
to `disconnectNode` or left to be looked up, and the node that is then written is the one it returns
or the one that was kept for the parent. -/
inductive StakeRun : History → TicketDB → Prop
  | init {now : Nat} {n : StakeNode Immutable} {db : TicketDB} :
      initDatabaseState params genesis.1 now = .ok (n, db) → StakeRun [] db
  | connect {hist : History} {db db' : TicketDB} {b : ChainBlock} {n : StakeNode Immutable} :
      StakeRun hist db → b.newTickets.length ≤ 255 → hist.length + 1 < 2 ^ 32 →
      connectNode fuel params hist.tipNode (calcHash256PRNGIV b.header) b.ticketsVoted
        b.revokedTickets b.newTickets = .ok n →
      writeConnectedBestNode params db n b.hash = .ok db' →
      StakeRun ((b, n) :: hist) db'
  | disconnect {hist : History} {db db' : TicketDB} {b : ChainBlock} {n r p : StakeNode Immutable}
      {utds : Option (List UndoTicketData)} {tickets : Option (List Hash)} :
      StakeRun ((b, n) :: hist) db →
      (utds = none ∨ utds = some hist.tipNode.databaseUndoUpdate) →
      (tickets = none ∨ tickets = some hist.tipNode.databaseBlockTickets) →
      disconnectNode fuel params n (calcHash256PRNGIV (hist.tipBlock genesis).2) utds tickets
        (some (dbFetchParentData db)) = .ok r →
      (p = r ∨ p = hist.tipNode) →
      writeDisconnectedBestNode params db p (hist.tipBlock genesis).1 n.databaseUndoUpdate =
        .ok db' →
      StakeRun (hist.setTip p) db'

/-- What a state of a run keeps: every node of the history is the one of its chain, the numbers fit,
and the database mirrors the best node. -/
structure RunInv (hist : History) (db : TicketDB) : Prop where
  few : ∀ b ∈ hist.blocks, b.newTickets.length ≤ 255
  length : hist.length < 2 ^ 32
  nodes : ∀ hist', hist' <:+ hist → ∃ m, replay fuel params (blocks hist') = .ok m ∧
    NodeSim (tipNode hist') m
  mirrors : ∀ m, replay fuel params hist.blocks = .ok m →
    Mirrors fuel params (hist.tipBlock genesis).1 hist.blocks m db

section Step

variable {fuel : Nat} {params : Params} {genesis : Hash × List UInt8} {hist : History}
  {db : TicketDB} {b : ChainBlock} {n r p : StakeNode Immutable}

theorem runInv_init {now : Nat} (h : initDatabaseState params genesis.1 now = .ok (n, db)) :
    RunInv fuel params genesis [] db := by
  have hg : replay fuel params [] = .ok (genesisNode : StakeNode Tickets) := rfl
  obtain ⟨db₁, h₁, h⟩ := bind_eq_ok.1 h
  cases h
  rw [writeBestNode_sim genesisNode_sim] at h₁
  obtain ⟨v, state, hbest, hstate, hof⟩ := writeBestNode_spec hg nofun (by decide)
    { databaseInfo := some (serializeDatabaseInfo ⟨now, currentDatabaseVersion, false⟩)
      chainState := none
      liveTickets := empty
      missedTickets := empty
      revokedTickets := empty
      blockUndoData := empty
      ticketsInBlock := empty } genesis.1
  cases h₁.symm.trans hbest
  refine ⟨nofun, by decide, fun hist' hsuf => ?_, fun m hm => ?_⟩
  · obtain rfl := suffix_nil.1 hsuf
    exact ⟨_, hg, genesisNode_sim⟩
  · cases hm
    have hone : ∀ value, PerHeight fuel params [] value
        (empty.insert (heightKey 0) (value (genesisNode : StakeNode Tickets))) := fun value => by
      refine ⟨fun bs' m' hsuf hm' => ?_, fun k v hk => ?_⟩
      · obtain rfl := suffix_nil.1 hsuf
        cases hm'
        exact get?_insert_self _ _ _
      · rw [get?_insert] at hk
        split_ifs at hk with he
        · exact ⟨0, le_rfl, he⟩
        · cases hk
    exact ⟨deserializeDatabaseInfo_serialize _, ⟨rfl, rfl, rfl⟩, ⟨state, hstate, hof⟩, hone _,
      hone _⟩

section

variable (h : RunInv fuel params genesis hist db) (hfew : b.newTickets.length ≤ 255)
  (hlen : hist.length + 1 < 2 ^ 32)

include h hfew hlen

/-- **Writing the node of a new block** does not fail and keeps the invariant, whichever way the
node was computed. -/
theorem RunInv.write_connected {m' : StakeNode Tickets}
    (hreplay : replay fuel params (b.stake :: hist.blocks) = .ok m') (hsim' : NodeSim n m') :
    ∃ db', writeConnectedBestNode params db n b.hash = .ok db' ∧
      RunInv fuel params genesis ((b, n) :: hist) db' := by
  obtain ⟨m, hm, -⟩ := h.nodes hist (suffix_refl hist)
  have hfew' : ∀ b' ∈ b.stake :: hist.blocks, b'.newTickets.length ≤ 255 :=
    forall_mem_cons.2 ⟨hfew, h.few⟩
  obtain ⟨db', hdb', hmir⟩ := (h.mirrors m hm).connect hm hreplay hfew' (by simpa using hlen) b.hash
  refine ⟨db', (writeConnectedBestNode_sim hsim' _ _ _).trans hdb', hfew', hlen,
    fun hist' hsuf => ?_, fun m'' hm'' => ?_⟩
  · rcases suffix_cons_iff.1 hsuf with rfl | hsuf
    · exact ⟨m', hreplay, hsim'⟩
    · exact h.nodes hist' hsuf
  · cases hreplay.symm.trans hm''
    exact hmir

/-- **Connecting a block**: the write does not fail, and the invariant is kept. -/
theorem RunInv.connect
    (hn : connectNode fuel params hist.tipNode (calcHash256PRNGIV b.header) b.ticketsVoted
      b.revokedTickets b.newTickets = .ok n) :
    ∃ db', writeConnectedBestNode params db n b.hash = .ok db' ∧
      RunInv fuel params genesis ((b, n) :: hist) db' := by
  obtain ⟨m, hm, hsim⟩ := h.nodes hist (suffix_refl hist)
  obtain ⟨m', hm', hsim'⟩ := (connectNode_sim hsim _ _ _ _ _ _).ok_left hn
  exact h.write_connected hfew hlen (bind_eq_ok.2 ⟨m, hm, hm'⟩) hsim'

end

variable {m : StakeNode Tickets}

/-- The database holds the data of every block up to the best one. -/
theorem RunInv.dbFetchParentData_eq (h : RunInv fuel params genesis hist db) {bs : List StakeBlock}
    (hsuf : bs <:+ hist.blocks) (hm : replay fuel params bs = .ok m) :
    dbFetchParentData db m.height = .ok (m.databaseUndoUpdate, m.databaseBlockTickets) := by
  obtain ⟨m', hm', -⟩ := h.nodes hist (suffix_refl _)
  have hfetch := (h.mirrors m' hm').fetch h.few (by simpa using h.length) hsuf hm
  rw [← (replay_base hm).height] at hfetch
  unfold dbFetchParentData
  rw [hfetch.1, hfetch.2]
  rfl

section

variable (h : RunInv fuel params genesis ((b, n) :: hist) db) {utds : Option (List UndoTicketData)}
  {tickets : Option (List Hash)}

include h

/-- The data of the parent, passed or looked up. -/
theorem RunInv.parentData_eq (hm : replay fuel params hist.blocks = .ok m)
    (hsim : NodeSim hist.tipNode m)
    (hutds : utds = none ∨ utds = some hist.tipNode.databaseUndoUpdate)
    (htickets : tickets = none ∨ tickets = some hist.tipNode.databaseBlockTickets) :
    parentData utds tickets (some (dbFetchParentData db)) m.height =
      .ok (m.databaseUndoUpdate, m.databaseBlockTickets) := by
  have hdb := h.dbFetchParentData_eq (blocks_suffix (suffix_cons (b, n) hist)) hm
  rw [hsim.undo] at hutds
  rw [hsim.tickets] at htickets
  rcases hutds with rfl | rfl <;> rcases htickets with rfl | rfl <;> first | exact hdb | rfl

/-- **Writing the node of the parent** does not fail and keeps the invariant, if the best block can
be undone. -/
theorem RunInv.write_disconnected {m' : StakeNode Tickets}
    (hm : replay fuel params hist.blocks = .ok m)
    (hm' : replay fuel params (b.stake :: hist.blocks) = .ok m') {iv : Hash}
    {dbFetch : Option (Nat → Except StakeError (List UndoTicketData × List Hash))}
    {r' : StakeNode Tickets} (hr' : disconnectNode fuel params m' iv utds tickets dbFetch = .ok r')
    (hsimp : NodeSim p m) :
    ∃ db', writeDisconnectedBestNode params db p (hist.tipBlock genesis).1 m'.databaseUndoUpdate =
        .ok db' ∧ RunInv fuel params genesis (hist.setTip p) db' := by
  have hfew : ∀ b' ∈ b.stake :: hist.blocks, b'.newTickets.length ≤ 255 := h.few
  have hlen : hist.length + 1 < 2 ^ 32 := h.length
  obtain ⟨db', hdb', hmir⟩ := (h.mirrors m' hm').disconnect hm hm' hr' hfew
    (by simpa using hlen) (hist.tipBlock genesis).1
  refine ⟨db', ?_, ?_, ?_, fun hist' hsuf => ?_, fun m'' hm'' => ?_⟩
  · rw [writeDisconnectedBestNode_sim hsimp]
    exact hdb'
  · rw [blocks_setTip]
    exact (forall_mem_cons.1 hfew).2
  · rw [length_setTip]
    omega
  · rcases suffix_setTip hsuf with rfl | hsuf
    · refine ⟨m, by rwa [blocks_setTip], ?_⟩
      cases hist with
      | nil =>
        cases hm
        exact genesisNode_sim
      | cons a hist => exact hsimp
    · exact h.nodes hist' (hsuf.trans (suffix_cons _ _))
  · rw [blocks_setTip] at hm''
    cases hm.symm.trans hm''
    rw [blocks_setTip, tipBlock_setTip]
    exact hmir

/-- **Disconnecting a block**: the write does not fail, and the invariant is kept. -/
theorem RunInv.disconnect {utds : Option (List UndoTicketData)} {tickets : Option (List Hash)}
    (hutds : utds = none ∨ utds = some hist.tipNode.databaseUndoUpdate)
    (htickets : tickets = none ∨ tickets = some hist.tipNode.databaseBlockTickets)
    (hr : disconnectNode fuel params n (calcHash256PRNGIV (hist.tipBlock genesis).2) utds tickets
      (some (dbFetchParentData db)) = .ok r)
    (hp : p = r ∨ p = hist.tipNode) :
    ∃ db', writeDisconnectedBestNode params db p (hist.tipBlock genesis).1 n.databaseUndoUpdate =
        .ok db' ∧ RunInv fuel params genesis (hist.setTip p) db' := by
  obtain ⟨m, hm, hsim⟩ := h.nodes hist (suffix_cons _ _)
  obtain ⟨m', hm', hsim'⟩ := h.nodes _ (suffix_refl _)
  obtain ⟨r', hr', hsimr⟩ := (disconnectNode_sim hsim' _ _ _ _ _ _).ok_left hr
  obtain ⟨m₀, hm₀, hc⟩ := bind_eq_ok.1 hm'
  cases hm.symm.trans hm₀
  have hgen : hist.blocks = [] → m = genesisNode := fun hbs => by
    rw [hbs] at hm
    cases hm
    rfl
  -- The node that is returned is the parent's.
  have hback : r' = m := by
    by_cases hist0 : hist = []
    · subst hist0
      have hh : m'.height = 1 := (replay_base hm').height
      unfold disconnectNode at hr'
      rw [if_pos hh] at hr'
      cases hr'
      exact (hgen rfl).symm
    · rw [← lastIV_blocks genesis hist0] at hr'
      exact (replay_base hm).eq_of_disconnect hgen
        (fun _ => h.parentData_eq hm hsim hutds htickets) hc hr'
  have hsimp : NodeSim p m := by
    rcases hp with rfl | rfl
    · exact hback ▸ hsimr
    · exact hsim
  rw [show n.databaseUndoUpdate = m'.databaseUndoUpdate from hsim'.undo]
  exact h.write_disconnected hm hm' hr' hsimp

end

theorem StakeRun.inv (h : StakeRun fuel params genesis hist db) :
    RunInv fuel params genesis hist db := by
  induction h with
  | init h => exact runInv_init h
  | connect _ hfew hlen hn hw ih =>
    obtain ⟨db'', hdb'', hinv⟩ := ih.connect hfew hlen hn
    cases hw.symm.trans hdb''
    exact hinv
  | disconnect _ hutds htickets hr hp hw ih =>
    obtain ⟨db'', hdb'', hinv⟩ := ih.disconnect hutds htickets hr hp
    cases hw.symm.trans hdb''
    exact hinv

end Step

/-- The database and the in-memory nodes of the main chain agree. -/
structure Mirrored (hist : History) (db : TicketDB) : Prop where
  /-- The node of the best block is loaded, with all its tickets, records and winners. -/
  load : ∃ r, loadBestNode fuel params db hist.length (hist.tipBlock genesis).1
    (hist.tipBlock genesis).2 = .ok r ∧ r.toMap = hist.tipNode.toMap
  /-- The records of every block of the chain are there. -/
  records : ∀ hist', hist' <:+ hist →
    dbFetchBlockUndoData db hist'.length = .ok (tipNode hist').databaseUndoUpdate ∧
      dbFetchNewTickets db hist'.length = .ok (tipNode hist').databaseBlockTickets
  /-- There are no other records. -/
  undo_keys : ∀ k v, db.blockUndoData.get? k = some v → ∃ h ≤ hist.length, k = heightKey h
  ticket_keys : ∀ k v, db.ticketsInBlock.get? k = some v → ∃ h ≤ hist.length, k = heightKey h
  /-- The next block that connects is written. -/
  connects : ∀ (b : ChainBlock) n, b.newTickets.length ≤ 255 → hist.length + 1 < 2 ^ 32 →
    connectNode fuel params hist.tipNode (calcHash256PRNGIV b.header) b.ticketsVoted
      b.revokedTickets b.newTickets = .ok n →
    ∃ db', writeConnectedBestNode params db n b.hash = .ok db'
  /-- The best block, if it can be undone, is removed. -/
  disconnects : ∀ b (n : StakeNode Immutable) hist' utds tickets r p, hist = (b, n) :: hist' →
    (utds = none ∨ utds = some (tipNode hist').databaseUndoUpdate) →
    (tickets = none ∨ tickets = some (tipNode hist').databaseBlockTickets) →
    disconnectNode fuel params n (calcHash256PRNGIV (tipBlock genesis hist').2) utds tickets
      (some (dbFetchParentData db)) = .ok r →
    (p = r ∨ p = tipNode hist') →
    ∃ db', writeDisconnectedBestNode params db p (tipBlock genesis hist').1
      n.databaseUndoUpdate = .ok db'

/-- **The stake database mirrors the in-memory stake state** in every state of every run. -/
theorem stakeRun_mirrors (fuel : Nat) (params : Params) (genesis : Hash × List UInt8)
    (hist : History) (db : TicketDB) (h : StakeRun fuel params genesis hist db) :
    Mirrored fuel params genesis hist db := by
  have hinv := h.inv
  have hlen : hist.blocks.length < 2 ^ 32 := by simpa using hinv.length
  obtain ⟨m, hm, hsim⟩ := hinv.nodes hist (suffix_refl hist)
  have hmir := hinv.mirrors m hm
  constructor
  · obtain ⟨r, hr, hsimr⟩ := hmir.load hm hinv.few hlen
      (hist.tipBlock genesis).2 fun hne => lastIV_blocks genesis fun he => by
        rw [he] at hne
        exact hne rfl
    rw [length_blocks] at hr
    exact ⟨r, hr, hsimr.toMap_eq.trans hsim.toMap_eq.symm⟩
  · intro hist' hsuf
    obtain ⟨m', hm', hsim'⟩ := hinv.nodes hist' hsuf
    rw [hsim'.undo, hsim'.tickets, ← length_blocks hist']
    exact hmir.fetch hinv.few hlen (blocks_suffix hsuf) hm'
  · simpa using hmir.undo.keys
  · simpa using hmir.newTickets.keys
  · intro b n hfew hlen hn
    obtain ⟨db', hdb', -⟩ := hinv.connect hfew hlen hn
    exact ⟨db', hdb'⟩
  · rintro b n hist' utds tickets r p rfl hutds htickets hr hp
    obtain ⟨db', hdb', -⟩ := hinv.disconnect hutds htickets hr hp
    exact ⟨db', hdb'⟩

end Runs

section SmallRun

/-- Tickets mature in the first block, and the second draws winners. -/
def smallFirst : ChainBlock :=
  ⟨smallTicket 1, [1], [], [], [smallTicket 10, smallTicket 11, smallTicket 12]⟩

def smallSecond : ChainBlock := ⟨smallTicket 2, [2], [], [], [smallTicket 13]⟩

/-- Connects the two blocks and disconnects the second one, in memory. -/
def smallUndo [Blake256] : Except StakeError (StakeNode Immutable) := do
  let n₁ ← connectNode 100 smallParams genesisNode (calcHash256PRNGIV smallFirst.header) [] []
    smallFirst.newTickets
  let n₂ ← connectNode 100 smallParams n₁ (calcHash256PRNGIV smallSecond.header) [] []
    smallSecond.newTickets
  disconnectNode 100 smallParams n₂ (calcHash256PRNGIV smallFirst.header)
    (some n₁.databaseUndoUpdate) (some n₁.databaseBlockTickets) none

theorem smallUndo_isOk : (@smallUndo sumHash).isOk = true := by decide +kernel

/-- Two blocks are connected, and the second one is disconnected. -/
theorem stakeRun_mirrors_smallUndo : ∃ (n₁ n₂ r : StakeNode Immutable) (db₂ db₃ : TicketDB),
    @StakeRun sumHash 100 smallParams (default, []) [(smallSecond, n₂), (smallFirst, n₁)] db₂ ∧
      @Mirrored sumHash 100 smallParams (default, []) [(smallSecond, n₂), (smallFirst, n₁)] db₂ ∧
      @StakeRun sumHash 100 smallParams (default, []) [(smallFirst, r)] db₃ ∧
      @Mirrored sumHash 100 smallParams (default, []) [(smallFirst, r)] db₃ := by
  let _ := sumHash
  obtain ⟨r, hr⟩ := exists_of_isOk smallUndo_isOk
  obtain ⟨n₁, hc₁, hr⟩ := bind_eq_ok.1 hr
  obtain ⟨n₂, hc₂, hr⟩ := bind_eq_ok.1 hr
  have hinit : (initDatabaseState smallParams default 0).isOk = true := by decide +kernel
  obtain ⟨⟨g, db₀⟩, hdb₀⟩ := exists_of_isOk hinit
  have r₀ : StakeRun 100 smallParams (default, []) [] db₀ := .init hdb₀
  obtain ⟨db₁, hdb₁⟩ := (stakeRun_mirrors 100 smallParams _ _ _ r₀).connects smallFirst n₁
    (by decide) (by decide) hc₁
  have r₁ := r₀.connect (by decide) (by decide) hc₁ hdb₁
  obtain ⟨db₂, hdb₂⟩ := (stakeRun_mirrors 100 smallParams _ _ _ r₁).connects smallSecond n₂
    (by decide) (by simp) hc₂
  have r₂ := r₁.connect (by decide) (by simp) hc₂ hdb₂
  have m₂ := stakeRun_mirrors 100 smallParams _ _ _ r₂
  obtain ⟨db₃, hdb₃⟩ := m₂.disconnects _ _ _ _ _ _ _ rfl (.inr rfl) (.inr rfl) hr (.inl rfl)
  have r₃ := r₂.disconnect (.inr rfl) (.inr rfl) hr (.inl rfl) hdb₃
  exact ⟨n₁, n₂, r, db₂, db₃, r₂, m₂, r₃, stakeRun_mirrors 100 smallParams _ _ _ r₃⟩

end SmallRun

end Fnod
