import Fnod.Mempool.Outpoints

/-!
# Conflicts of a confirmed transaction

`RemoveDoubleSpends` looks up every outpoint of the confirmed transaction in the index, and removes
what it finds together with its redeemers. The index has one entry for an outpoint, so of two votes
for one ticket it finds one; and every vote spends the null outpoint of its stakebase, so the
confirmation of a vote finds the vote that came last, for whichever ticket.

**Theorem (`removeDoubleSpends_run`).** In every pool that a history reaches, the call removes the
conflicts of the transaction and their descendants, and nothing else, exactly if the null outpoint
leads to one of them, and each of them is the only spender of what it is to leave for and is found
(`Confirmable`).

The call is described in terms of the pool before it (`Purged`); the theorem then only argues about
that pool.
-/

namespace Fnod

open List Option Relation TxPool

namespace TxPool

variable {n : Naming} {w : World} {cfg : PoolConfig} {mp mp' : TxPool} {tx r t t' : Tx}
  {op : OutPoint} {done rest : List OutPoint}

/-! ## What has to leave -/

/-- Another transaction of the pool that spends an output which the transaction spends. -/
def Conflicts (mp : TxPool) (tx t : Tx) : Prop :=
  t ∈ mp.txs ∧ t.hash ≠ tx.hash ∧ ∃ op ∈ tx.prevOuts, op ≠ nullOutPoint ∧ op ∈ t.prevOuts

/-- A transaction of the pool that spends an output of another one. -/
def Child (mp : TxPool) (r t : Tx) : Prop := t ∈ mp.txs ∧ ∃ op ∈ r.outPoints, op ∈ t.prevOuts

/-- A conflict of the transaction or a descendant of one. -/
def Doomed (mp : TxPool) (tx t : Tx) : Prop :=
  ∃ k, Conflicts mp tx k ∧ ReflTransGen (Child mp) k t

/-- A transaction that has to leave because it spends the outpoint. -/
structure Concerned (mp : TxPool) (tx : Tx) (op : OutPoint) (t : Tx) : Prop where
  mem : t ∈ mp.txs
  spends : op ∈ t.prevOuts
  notNull : op ≠ nullOutPoint
  cause : (op ∈ tx.prevOuts ∧ t.hash ≠ tx.hash) ∨ ∃ d, Doomed mp tx d ∧ op ∈ d.outPoints

/-- What makes the call exact, in the pool before it. -/
structure Confirmable (mp : TxPool) (tx : Tx) : Prop where
  stakebase : nullOutPoint ∈ tx.prevOuts → ∀ v, mp.outpoints nullOutPoint = some v →
    v.hash ≠ tx.hash → Doomed mp tx v
  one : ∀ op t t', Concerned mp tx op t → Concerned mp tx op t' → t = t'
  found : ∀ op t, Concerned mp tx op t → mp.outpoints op = some t ∨
    (nullOutPoint ∈ tx.prevOuts ∧ mp.outpoints nullOutPoint = some t ∧ t.hash ≠ tx.hash)

theorem Doomed.mem (h : Doomed mp tx t) : t ∈ mp.txs := by
  obtain ⟨k, hk, hpath⟩ := h
  cases hpath with
  | refl => exact hk.1
  | tail _ hlast => exact hlast.1

theorem Concerned.doomed (h : Concerned mp tx op t) : Doomed mp tx t := by
  rcases h.cause with ⟨hop, hne⟩ | ⟨d, ⟨k, hk, hpath⟩, hop⟩
  · exact ⟨t, ⟨h.mem, hne, op, hop, h.notNull, h.spends⟩, .refl⟩
  · exact ⟨k, hk, hpath.tail ⟨h.mem, op, hop, h.spends⟩⟩

/-! ## What the index finds -/

theorem outPoints_ne_null (h : n.Names r) (hop : op ∈ r.outPoints) : op ≠ nullOutPoint := by
  rintro rfl
  have hhash : default = r.hash := mem_outPoints hop
  have hknown : n.known default = some r.msgTx := hhash ▸ h
  rw [n.null] at hknown
  cases hknown

theorem IndexInv.redeemer_mem (h : IndexInv cfg n mp) (hr : r ∈ mp.txs)
    (hpath : ReflTransGen (Redeemer mp) r t) : t ∈ mp.txs := by
  cases hpath with
  | refl => exact hr
  | tail _ hlast =>
    obtain ⟨op, -, hsome⟩ := hlast
    exact (h.sound op t hsome).1

theorem IndexInv.rank_le (h : IndexInv cfg n mp) (hpath : ReflTransGen (Redeemer mp) r t) :
    n.rank r.hash ≤ n.rank t.hash := by
  induction hpath with
  | refl => exact le_rfl
  | @tail d t _ hlast ih =>
    obtain ⟨op, hop, hsome⟩ := hlast
    obtain ⟨ht, hspends⟩ := h.sound op t hsome
    have hlt := (h.named t ht).rank_lt hspends
    rw [mem_outPoints hop] at hlt
    omega

theorem IndexInv.child (h : IndexInv cfg n mp) : Redeemer mp ≤ Child mp := by
  rintro r t ⟨op, hop, hsome⟩
  obtain ⟨ht, hspends⟩ := h.sound op t hsome
  exact ⟨ht, op, hop, hspends⟩

/-- A vote or a revocation spends one output. -/
theorem eq_of_ticket? {ticket : OutPoint} (h : t.ticket? = some ticket) (hop : op ∈ t.prevOuts)
    (hnull : op ≠ nullOutPoint) : op = ticket := by
  obtain ⟨txIn, -, hticket, hmem⟩ := ticket?_of_redeemer (isRedeemer_of_ticket? h)
  cases h.symm.trans hticket
  rcases (hmem op).1 hop with heq | ⟨-, heq⟩
  · exact heq
  · exact absurd heq hnull

/-- The index finds a vote or a revocation below another transaction through its ticket. -/
theorem IndexInv.entry_of_path (h : IndexInv cfg n mp) (hr : r ∈ mp.txs)
    (hpath : ReflTransGen (Redeemer mp) r t) (hticket : t.ticket? = some op) :
    t = r ∨ (mp.outpoints op = some t ∧ n.rank r.hash ≤ n.rank op.hash) := by
  cases hpath with
  | refl => exact .inl rfl
  | @tail d _ hpath hlast =>
    obtain ⟨op', hop', hsome⟩ := hlast
    have hd := h.redeemer_mem hr hpath
    obtain rfl := eq_of_ticket? hticket (h.sound op' t hsome).2
      (outPoints_ne_null (h.named d hd) hop')
    exact .inr ⟨hsome, mem_outPoints hop' ▸ h.rank_le hpath⟩

/-! ## The loop over the inputs -/

/-- The body of the loop. -/
def removeSpender (tx : Tx) (mp : TxPool) (op : OutPoint) : Option TxPool :=
  match mp.outpoints op with
  | some txRedeemer =>
    if txRedeemer.hash ≠ tx.hash then mp.removeTransaction txRedeemer true else some mp
  | none => some mp

theorem removeDoubleSpends_eq (mp : TxPool) (tx : Tx) :
    mp.removeDoubleSpends tx = tx.prevOuts.foldlM (removeSpender tx) mp := rfl

/-- The loop, after the outpoints `done`. -/
structure Purging (mp : TxPool) (tx : Tx) (done : List OutPoint) (mp' : TxPool) : Prop where
  dropped : Dropped mp mp'
  closed : ∀ r ∈ mp.txs, r ∉ mp'.txs → ∀ op ∈ r.outPoints, mp'.outpoints op = none
  roots : ∀ op ∈ done, ∀ r, mp'.outpoints op = some r → r.hash = tx.hash
  found : ∀ t ∈ mp.txs, t ∉ mp'.txs → ∃ op ∈ done, ∃ r, mp.outpoints op = some r ∧
    r.hash ≠ tx.hash ∧ ReflTransGen (Redeemer mp) r t

theorem removeSpender_spec (h : IndexInv cfg n mp) (tx : Tx) (op : OutPoint) :
    Returns (removeSpender tx mp op) fun mp' => Purging mp tx [op] mp' ∧
      ∀ r, mp.outpoints op = some r → r.hash ≠ tx.hash → r ∉ mp'.txs := by
  have hkeep : (∀ r, mp.outpoints op = some r → r.hash = tx.hash) → Purging mp tx [op] mp ∧
      ∀ r, mp.outpoints op = some r → r.hash ≠ tx.hash → r ∉ mp.txs := by
    intro hroot
    refine ⟨⟨.refl mp, fun _ hr hnot => absurd hr hnot, fun op' hop' => ?_,
      fun _ ht hnot => absurd ht hnot⟩, fun r hr hne => absurd (hroot r hr) hne⟩
    rw [mem_singleton.1 hop']
    exact hroot
  unfold removeSpender
  cases hr : mp.outpoints op with
  | none => exact returns_some (by simpa [hr] using hkeep)
  | some r =>
    rw [hr] at hkeep
    refine .ite (fun hne => ?_) fun heq => returns_some (hkeep ?_)
    · obtain ⟨hmem, hspends⟩ := h.sound op r hr
      refine (removeTransaction_spec h (h.named r hmem)).imp fun mp' he => ?_
      have hgone : r ∉ mp'.txs := fun hr' => he.gone r hr' rfl
      refine ⟨⟨he.dropped, fun d hd hnot => he.closed d (.inr ⟨hd, hnot⟩),
        fun op' hop' r' hr' => ?_,
        fun t ht hnot => ⟨op, mem_singleton_self op, r, hr, hne, he.only t ht hnot⟩⟩, ?_⟩
      · rw [mem_singleton.1 hop', he.dropped.cleared r hmem hgone op hspends] at hr'
        cases hr'
      · rintro _ ⟨⟩ -
        exact hgone
    · rintro _ ⟨⟩
      exact not_not.1 heq

theorem Purging.trans {done' : List OutPoint} {mp'' : TxPool} (h : Purging mp tx done mp')
    (h' : Purging mp' tx done' mp'') : Purging mp tx (done ++ done') mp'' := by
  refine ⟨h.dropped.trans h'.dropped, fun r hr hnot op hop => ?_, fun op hop r hr => ?_,
    fun t ht hnot => ?_⟩
  · by_cases hr' : r ∈ mp'.txs
    · exact h'.closed r hr' hnot op hop
    · exact h'.dropped.none (h.closed r hr hr' op hop)
  · rcases mem_append.1 hop with hop | hop
    · exact h.roots op hop r (h'.dropped.of_some hr)
    · exact h'.roots op hop r hr
  · by_cases ht' : t ∈ mp'.txs
    · obtain ⟨op, hop, r, hr, hne, hpath⟩ := h'.found t ht' hnot
      exact ⟨op, mem_append_right _ hop, r, h.dropped.of_some hr, hne,
        ReflTransGen.mono (Redeemer.mono h.dropped) _ _ hpath⟩
    · obtain ⟨op, hop, hfound⟩ := h.found t ht ht'
      exact ⟨op, mem_append_left _ hop, hfound⟩

theorem purge_spec (h : IndexInv cfg n mp) (tx : Tx) (prevOuts : List OutPoint) :
    Returns (prevOuts.foldlM (removeSpender tx) mp) (Purging mp tx prevOuts) := by
  refine Returns.foldlM (I := Purging mp tx) ⟨.refl mp, fun _ hr hnot => absurd hr hnot, nofun,
    fun _ ht hnot => absurd ht hnot⟩ fun done op mp' _ hp => ?_
  exact (removeSpender_spec (h.dropped hp.dropped) tx op).imp fun mp'' hstep => hp.trans hstep.1

/-- A vote or a revocation that left without the null outpoint was found through its ticket. -/
theorem Purging.entry (hp : Purging mp tx done mp') (h : IndexInv cfg n mp)
    (hnull : nullOutPoint ∉ done) (ht : t ∈ mp.txs) (hgone : t ∉ mp'.txs)
    (hticket : t.ticket? = some op) : mp.outpoints op = some t := by
  obtain ⟨op', hop', r, hr, -, hpath⟩ := hp.found t ht hgone
  obtain ⟨hmem, hspends⟩ := h.sound op' r hr
  rcases h.entry_of_path hmem hpath hticket with rfl | ⟨hsome, -⟩
  · obtain rfl := eq_of_ticket? hticket hspends fun heq => hnull (heq ▸ hop')
    exact hr
  · exact hsome

variable {op₀ : OutPoint}

/-- Of the redeemers of a ticket one lookup removes at most one. -/
theorem Purging.once (hp : Purging mp tx [op₀] mp') (h : IndexInv cfg n mp)
    (ht : t ∈ mp.txs) (hgone : t ∉ mp'.txs) (hticket : t.ticket? = some op) (ht' : t' ∈ mp.txs)
    (hgone' : t' ∉ mp'.txs) (hticket' : t'.ticket? = some op) : t = t' := by
  obtain ⟨_, hop, r, hr, -, hpath⟩ := hp.found t ht hgone
  obtain ⟨_, hop', r', hr', -, hpath'⟩ := hp.found t' ht' hgone'
  rw [mem_singleton.1 hop] at hr
  rw [mem_singleton.1 hop'] at hr'
  cases hr.symm.trans hr'
  obtain ⟨hmem, -⟩ := h.sound op₀ r hr
  -- a transaction does not descend from a redeemer of its output
  have hearlier : ∀ v ∈ mp.txs, v.ticket? = some op → n.rank op.hash < n.rank v.hash :=
    fun v hv hvote => (h.named v hv).rank_lt (mem_prevOuts_of_ticket? hvote)
  rcases h.entry_of_path hmem hpath hticket with rfl | ⟨hsome, hle⟩
  · rcases h.entry_of_path hmem hpath' hticket' with rfl | ⟨-, hle'⟩
    · rfl
    · exact absurd (hearlier t ht hticket) (by omega)
  · rcases h.entry_of_path hmem hpath' hticket' with rfl | ⟨hsome', -⟩
    · exact absurd (hearlier t' ht' hticket') (by omega)
    · exact Option.some.inj (hsome.symm.trans hsome')

/-- What the call does. -/
structure Purged (mp : TxPool) (tx : Tx) (mp' : TxPool) : Prop
    extends Purging mp tx tx.prevOuts mp' where
  stakebase : nullOutPoint ∈ tx.prevOuts → ∀ v, mp.outpoints nullOutPoint = some v →
    v.hash ≠ tx.hash → v ∉ mp'.txs
  once : ∀ t ∈ mp.txs, t ∉ mp'.txs → ∀ t' ∈ mp.txs, t' ∉ mp'.txs → ∀ op, t.ticket? = some op →
    t'.ticket? = some op → t = t'

/-- The first outpoint, which may be null, and the others, which are not. -/
theorem purge_cons (h : IndexInv cfg n mp)
    (hrun : (op₀ :: rest).foldlM (removeSpender tx) mp = some mp') :
    ∃ mp₁, Purging mp tx [op₀] mp₁ ∧ Purging mp₁ tx rest mp' ∧
      ∀ r, mp.outpoints op₀ = some r → r.hash ≠ tx.hash → r ∉ mp₁.txs := by
  rw [foldlM_cons] at hrun
  obtain ⟨mp₁, hsome, hhead, hroot⟩ := removeSpender_spec h tx op₀
  rw [hsome] at hrun
  exact ⟨mp₁, hhead, (purge_spec (h.dropped hhead.dropped) tx rest).ensures mp' hrun, hroot⟩

theorem once_of_purge_cons {mp₁ : TxPool} (h : IndexInv cfg n mp)
    (hhead : Purging mp tx [op₀] mp₁) (hrest : Purging mp₁ tx rest mp')
    (hnull : nullOutPoint ∉ rest) (ht : t ∈ mp.txs) (hgone : t ∉ mp'.txs)
    (hticket : t.ticket? = some op) (ht' : t' ∈ mp.txs) (hgone' : t' ∉ mp'.txs)
    (hticket' : t'.ticket? = some op) : t = t' := by
  have h₁ := h.dropped hhead.dropped
  have hcleared : ∀ u ∈ mp.txs, u ∉ mp₁.txs → u.ticket? = some op → mp₁.outpoints op = none :=
    fun u hu hgone hticket => hhead.dropped.cleared u hu hgone op (mem_prevOuts_of_ticket? hticket)
  by_cases h₁t : t ∈ mp₁.txs
  · have hentry := hrest.entry h₁ hnull h₁t hgone hticket
    by_cases h₁t' : t' ∈ mp₁.txs
    · exact Option.some.inj (hentry.symm.trans (hrest.entry h₁ hnull h₁t' hgone' hticket'))
    · rw [hcleared t' ht' h₁t' hticket'] at hentry
      cases hentry
  · by_cases h₁t' : t' ∈ mp₁.txs
    · have hentry := hrest.entry h₁ hnull h₁t' hgone' hticket'
      rw [hcleared t ht h₁t hticket] at hentry
      cases hentry
    · exact hhead.once h ht h₁t hticket ht' h₁t' hticket'

/-- **`RemoveDoubleSpends`** returns, for a transaction whose null outpoint, if any, comes first. -/
theorem removeDoubleSpends_spec (h : IndexInv cfg n mp) (hfirst : nullOutPoint ∉ tx.prevOuts.tail) :
    Returns (mp.removeDoubleSpends tx) (Purged mp tx) := by
  rw [removeDoubleSpends_eq]
  obtain ⟨mp', hrun, hp⟩ := purge_spec h tx tx.prevOuts
  refine ⟨mp', hrun, hp, fun hmem v hv hne hv' => ?_,
    fun t ht hgone t' ht' hgone' op hticket hticket' => ?_⟩
  · cases hprev : tx.prevOuts with
    | nil => simp [hprev] at hmem
    | cons op₀ rest =>
      rw [hprev] at hrun hfirst hmem
      obtain ⟨mp₁, -, hrest, hroot⟩ := purge_cons h hrun
      rcases mem_cons.1 hmem with rfl | hmem
      · exact hroot v hv hne (hrest.dropped.subset hv')
      · exact hfirst hmem
  · cases hprev : tx.prevOuts with
    | nil =>
      obtain ⟨_, hop, -⟩ := hp.found t ht hgone
      simp [hprev] at hop
    | cons op₀ rest =>
      rw [hprev] at hrun hfirst
      obtain ⟨mp₁, hhead, hrest, -⟩ := purge_cons h hrun
      exact once_of_purge_cons h hhead hrest hfirst ht hgone hticket ht' hgone' hticket'

/-! ## Exactness -/

/-- Exactly the conflicts and their descendants left. -/
def ConflictsGone (mp : TxPool) (tx : Tx) (mp' : TxPool) : Prop :=
  ∀ t ∈ mp.txs, t ∉ mp'.txs ↔ Doomed mp tx t

/-- A transaction that left was found through what it is concerned by, or through the null
outpoint. -/
theorem Purging.found_of_concerned (hp : Purging mp tx tx.prevOuts mp') (h : IndexInv cfg n mp)
    (hc : Concerned mp tx op t) (hgone : t ∉ mp'.txs) : mp.outpoints op = some t ∨
      (nullOutPoint ∈ tx.prevOuts ∧ mp.outpoints nullOutPoint = some t ∧ t.hash ≠ tx.hash) := by
  by_cases hredeemer : (t.isSSGen || t.isSSRtx) = true
  · obtain ⟨txIn, -, hticket, -⟩ := ticket?_of_redeemer hredeemer
    obtain rfl := eq_of_ticket? hticket hc.spends hc.notNull
    obtain ⟨op', hop', r, hr, hne, hpath⟩ := hp.found t hc.mem hgone
    obtain ⟨hmem, hspends⟩ := h.sound op' r hr
    rcases h.entry_of_path hmem hpath hticket with rfl | ⟨hsome, -⟩
    · by_cases hnull : op' = nullOutPoint
      · exact .inr ⟨hnull ▸ hop', hnull ▸ hr, hne⟩
      · obtain rfl := eq_of_ticket? hticket hspends hnull
        exact .inl hr
    · exact .inl hsome
  · have hplain := (h.kinds t hc.mem).plain (by simpa using hredeemer) op hc.spends
    exact .inl (h.plain t hc.mem op hc.spends hc.notNull hplain)

theorem confirmable_of_conflictsGone (h : IndexInv cfg n mp) (hp : Purged mp tx mp')
    (hexact : ConflictsGone mp tx mp') : Confirmable mp tx := by
  have hgone : ∀ {op t}, Concerned mp tx op t → t ∉ mp'.txs := fun hc =>
    (hexact _ hc.mem).2 hc.doomed
  refine ⟨fun hmem v hv hne => ?_, fun op t t' hc hc' => ?_, fun op t hc => ?_⟩
  · exact (hexact v (h.sound _ v hv).1).1 (hp.stakebase hmem v hv hne)
  · by_contra hne
    obtain ⟨hticket, hticket'⟩ := h.apart hc.mem hc'.mem hne hc.spends hc'.spends hc.notNull
    exact hne (hp.once t hc.mem (hgone hc) t' hc'.mem (hgone hc') op hticket hticket')
  · exact hp.found_of_concerned h hc (hgone hc)

/-- What leaves is a conflict or a descendant of one. -/
theorem Confirmable.doomed (hcond : Confirmable mp tx) (h : IndexInv cfg n mp)
    (hp : Purging mp tx tx.prevOuts mp') (ht : t ∈ mp.txs) (hgone : t ∉ mp'.txs) :
    Doomed mp tx t := by
  obtain ⟨op, hop, r, hr, hne, hpath⟩ := hp.found t ht hgone
  have hroot : Doomed mp tx r := by
    by_cases hnull : op = nullOutPoint
    · subst hnull
      exact hcond.stakebase hop r hr hne
    · obtain ⟨hmem, hspends⟩ := h.sound op r hr
      exact ⟨r, ⟨hmem, hne, op, hop, hnull, hspends⟩, .refl⟩
  obtain ⟨k, hk, hkr⟩ := hroot
  exact ⟨k, hk, hkr.trans (ReflTransGen.mono h.child _ _ hpath)⟩

/-- An entry that was deleted had a spender that left. -/
theorem spender_of_cleared (hd : Dropped mp mp') (hsome : mp.outpoints op = some t)
    (hnone : mp'.outpoints op = none) : ∃ u ∈ mp.txs, op ∈ u.prevOuts ∧ u ∉ mp'.txs := by
  by_contra hall
  simp only [not_exists, not_and, not_not] at hall
  rw [hd.kept op hall, hsome] at hnone
  cases hnone

theorem Confirmable.conflict_gone (hcond : Confirmable mp tx) (h : IndexInv cfg n mp)
    (hp : Purged mp tx mp') {k : Tx} (hk : Conflicts mp tx k) : k ∉ mp'.txs := by
  intro hstays
  obtain ⟨hmem, hne, op, hop, hnull, hspends⟩ := hk
  have hc : Concerned mp tx op k := ⟨hmem, hspends, hnull, .inl ⟨hop, hne⟩⟩
  rcases hcond.found op k hc with hsome | ⟨hin, hsome, -⟩
  · have hnone : mp'.outpoints op = none := by
      rcases hp.dropped.outpoints op with hnone | hsame
      · exact hnone
      · exact absurd (hp.roots op hop k (hsame.trans hsome)) hne
    obtain ⟨u, hu, hspendsU, hgone⟩ := spender_of_cleared hp.dropped hsome hnone
    have hneU : u ≠ k := fun heq => hgone (heq ▸ hstays)
    by_cases hhash : u.hash = tx.hash
    · -- the transaction itself left, as a descendant: its ticket leaves too
      obtain ⟨k', hk', hpath⟩ := hcond.doomed h hp.toPurging hu hgone
      cases hpath with
      | refl => exact hk'.2.1 hhash
      | @tail d _ hpath hlast =>
        obtain ⟨-, op', hop', hspends'⟩ := hlast
        have hd : Doomed mp tx d := ⟨k', hk', hpath⟩
        obtain ⟨hticket, -⟩ := h.apart hu hmem hneU hspendsU hspends hnull
        obtain rfl := eq_of_ticket? hticket hspends' (outPoints_ne_null (h.named d hd.mem) hop')
        exact hneU (hcond.one _ u k ⟨hu, hspendsU, hnull, .inr ⟨d, hd, hop'⟩⟩ hc)
    · exact hneU (hcond.one op u k ⟨hu, hspendsU, hnull, .inl ⟨hop, hhash⟩⟩ hc)
  · exact hp.stakebase hin k hsome hne hstays

theorem conflictsGone_of_confirmable (h : IndexInv cfg n mp) (hp : Purged mp tx mp')
    (hcond : Confirmable mp tx) : ConflictsGone mp tx mp' := by
  refine fun t ht => ⟨hcond.doomed h hp.toPurging ht, ?_⟩
  rintro ⟨k, hk, hpath⟩
  clear ht
  induction hpath with
  | refl => exact hcond.conflict_gone h hp hk
  | @tail d c hpath hlast ih =>
    -- the index has no entry for the output of the parent, so a spender of it has left
    intro hstays
    obtain ⟨hmem, op, hop, hspends⟩ := hlast
    have hd : Doomed mp tx d := ⟨k, hk, hpath⟩
    have hnull := outPoints_ne_null (h.named d hd.mem) hop
    have hc : Concerned mp tx op c := ⟨hmem, hspends, hnull, .inr ⟨d, hd, hop⟩⟩
    rcases hcond.found op c hc with hsome | ⟨hin, hsome, hne⟩
    · obtain ⟨u, hu, hspendsU, hgone⟩ :=
        spender_of_cleared hp.dropped hsome (hp.closed d hd.mem ih op hop)
      obtain rfl := hcond.one op u c ⟨hu, hspendsU, hnull, .inr ⟨d, hd, hop⟩⟩ hc
      exact hgone hstays
    · exact hp.stakebase hin c hsome hne hstays

end TxPool

/-- **Confirming a transaction** evicts exactly its conflicts and their descendants, in a pool that
a history reaches, exactly if the pool is `Confirmable`; what stays is untouched. -/
theorem removeDoubleSpends_run {n : Naming} {w : World} {cfg : PoolConfig} {steps : List PoolStep}
    {mp : TxPool} (hw : n.Honest w) (hrun : PoolRun w cfg steps mp)
    (hN : ∀ s ∈ steps, ∀ tx ∈ s.op.tx?, n.Names tx) {tx : Tx}
    (hfirst : nullOutPoint ∉ tx.prevOuts.tail) :
    ∃ mp', (PoolOp.removeDoubleSpends tx).run w cfg mp = some mp' ∧ mp'.pool.Sublist mp.pool ∧
      (ConflictsGone mp tx mp' ↔ Confirmable mp tx) := by
  have h : IndexInv cfg n mp := hrun.inv (indexInv_preserved hw) (indexInv_new cfg n) hN
  obtain ⟨mp', hsome, hp⟩ := removeDoubleSpends_spec h hfirst
  exact ⟨mp', hsome, hp.dropped.pool, confirmable_of_conflictsGone h hp,
    conflictsGone_of_confirmable h hp⟩

open SmallPool in
/-- A vote is confirmed, and evicts another vote for its ticket. -/
theorem removeDoubleSpends_run_voteA' : ∃ mp, PoolRun world (.regNet 0)
        ([] ++ [⟨newTxPool, .processTransaction voteA false false true, mp⟩]) mp ∧
      mp.txs = [voteA] ∧ Confirmable mp voteA' ∧
      ∃ mp', (PoolOp.removeDoubleSpends voteA').run world (.regNet 0) mp = some mp' ∧
        ConflictsGone mp voteA' mp' := by
  have hcalls : ((PoolOp.processTransaction voteA false false true).run world (.regNet 0)
      newTxPool).map (fun mp => (mp.txs, mp.outpoints ⟨Hash.ofNat 2, 0, txTreeStake⟩)) =
      some ([voteA], some voteA) := by decide +kernel
  obtain ⟨mp, hmp, hcalls⟩ := map_eq_some_iff.1 hcalls
  obtain ⟨htxs, hentry⟩ := Prod.mk.inj hcalls
  have hrun := PoolRun.call (w := world) .new hmp
  have hnames : ∀ s ∈ [] ++
      [(⟨newTxPool, .processTransaction voteA false false true, mp⟩ : PoolStep)],
      ∀ tx ∈ s.op.tx?, naming.Names tx := by
    simp [PoolOp.tx?, names_voteA]
  have hinv : IndexInv (.regNet 0) naming mp :=
    hrun.inv (indexInv_preserved honest_world) (indexInv_new _ _) hnames
  have honly : ∀ t ∈ mp.txs, t = voteA := by simp [htxs]
  have hticket : voteA.ticket? = some ⟨Hash.ofNat 2, 0, txTreeStake⟩ := by decide +kernel
  have hconflict : Conflicts mp voteA' voteA :=
    ⟨by simp [htxs], by decide +kernel, ⟨Hash.ofNat 2, 0, txTreeStake⟩, by decide +kernel,
      by decide +kernel, by decide +kernel⟩
  have hcond : Confirmable mp voteA' := by
    refine ⟨fun _ v hv _ => ?_, fun op t t' ht ht' => ?_, fun op t ht => .inl ?_⟩
    · rw [honly v (hinv.sound _ v hv).1]
      exact ⟨voteA, hconflict, .refl⟩
    · rw [honly t ht.mem, honly t' ht'.mem]
    · have hspends := ht.spends
      rw [honly t ht.mem] at hspends ⊢
      rw [eq_of_ticket? hticket hspends ht.notNull]
      exact hentry
  have hfirst : nullOutPoint ∉ voteA'.prevOuts.tail := by decide +kernel
  obtain ⟨mp', hmp', -, hiff⟩ := removeDoubleSpends_run honest_world hrun hnames hfirst
  exact ⟨mp, hrun, htxs, hcond, mp', hmp', hiff.2 hcond⟩

open SmallPool in
/-- A vote is confirmed, and evicts a vote for another ticket. -/
theorem removeDoubleSpends_stakebase : ∃ mp mp', PoolRun world (.regNet 0)
        ([] ++ [⟨newTxPool, .processTransaction voteB false false true, mp⟩]) mp ∧
      (PoolOp.removeDoubleSpends voteA).run world (.regNet 0) mp = some mp' ∧
      mp.txs = [voteB] ∧ mp'.txs = [] ∧ ¬ConflictsGone mp voteA mp' := by
  have hcalls : (do
      let mp ← (PoolOp.processTransaction voteB false false true).run world (.regNet 0) newTxPool
      let mp' ← (PoolOp.removeDoubleSpends voteA).run world (.regNet 0) mp
      some (mp.txs, mp'.txs)) = some ([voteB], []) := by
    decide +kernel
  obtain ⟨mp, hmp, hcalls⟩ := bind_eq_some_iff.1 hcalls
  obtain ⟨mp', hmp', hcalls⟩ := bind_eq_some_iff.1 hcalls
  obtain ⟨htxs, htxs'⟩ := Prod.mk.inj (Option.some.inj hcalls)
  refine ⟨mp, mp', .call .new hmp, hmp', htxs, htxs', fun hexact => ?_⟩
  obtain ⟨k, ⟨hk, -, op, hop, hnull, hspends⟩, -⟩ :=
    (hexact voteB (by simp [htxs])).1 (by simp [htxs'])
  rw [htxs, mem_singleton] at hk
  subst hk
  have hapart : ∀ op ∈ voteA.prevOuts, op ≠ nullOutPoint → op ∉ voteB.prevOuts := by
    decide +kernel
  exact hapart op hop hnull hspends

end Fnod
