import Fnod.Mempool.PoolRules
import Mathlib.Data.List.Nodup

/-!
# The pool of orphan transactions

A transaction with unknown inputs waits as an orphan, and `orphansByPrev` lists the orphans that
spend an outpoint. `removeOrphan` takes an orphan out of this index, then removes the orphans that
redeem its outputs, and only then the orphan itself; while it is at work the index and the pool
differ by the orphans that are being removed.

**Theorem (`orphanTxs_run`).** In every history the pool has no more orphans than the limit allows,
and the index lists for each outpoint exactly the orphans that spend it.

The invariant is `Linked S`: the index lists the orphans whose hashes are not in `S`, where `S` are
the orphans that are being removed. A call of `removeOrphan` keeps `Linked S` for the `S` that it
finds (`removeOrphanRec_spec`), by induction over the fuel; each nested call adds an orphan to `S`,
so that the depth is at most the number of orphans and every call returns.
-/

namespace Fnod

open List TxPool

namespace TxPool

variable {w : World} {cfg : PoolConfig} {mp mp' mp'' : TxPool} {tx : Tx} {S : List Hash}

/-! ## The loops over the inputs -/

@[simp] theorem collectionEntry_getD {α : Type} (l : List α) : (collectionEntry l).getD [] = l := by
  cases l <;> rfl

theorem collectionEntry_ne {α : Type} (l : List α) : collectionEntry l ≠ some [] := by
  cases l <;> simp [collectionEntry]

/-- What only orphans are removed from or added to. -/
structure SamePool (mp mp' : TxPool) : Prop where
  pool : mp'.pool = mp.pool
  outpoints : mp'.outpoints = mp.outpoints
  votes : mp'.votes = mp.votes

theorem SamePool.refl (mp : TxPool) : SamePool mp mp := ⟨rfl, rfl, rfl⟩

theorem SamePool.trans (h : SamePool mp mp') (h' : SamePool mp' mp'') : SamePool mp mp'' :=
  ⟨h'.pool.trans h.pool, h'.outpoints.trans h.outpoints, h'.votes.trans h.votes⟩

/-- The lists of some outpoints are changed by `g`, and nothing else is. -/
structure Relisted (g : List Tx → List Tx) (ops : List OutPoint) (mp mp' : TxPool) : Prop where
  same : SamePool mp mp'
  orphans : mp'.orphans = mp.orphans
  filled : (∀ op, mp.orphansByPrev op ≠ some []) → ∀ op, mp'.orphansByPrev op ≠ some []
  list : ∀ op, mp'.orphansOf op = if op ∈ ops then g (mp.orphansOf op) else mp.orphansOf op

theorem relisted_foldl {f : TxPool → OutPoint → TxPool} {g : List Tx → List Tx}
    (hg : ∀ l, g (g l) = g l) (hf : ∀ mp op, Relisted g [op] mp (f mp op)) (ops : List OutPoint)
    (mp : TxPool) : Relisted g ops mp (ops.foldl f mp) := by
  induction ops generalizing mp with
  | nil => exact ⟨.refl mp, rfl, id, fun _ => (if_neg not_mem_nil).symm⟩
  | cons op' ops ih =>
    have h := hf mp op'
    have h' := ih (f mp op')
    refine ⟨h.same.trans h'.same, h'.orphans.trans h.orphans,
      fun hfilled => h'.filled (h.filled hfilled), fun op => ?_⟩
    rw [foldl_cons, h'.list, h.list]
    by_cases hop : op = op' <;> simp [hop, hg]

/-- **The first loop of `removeOrphan`** takes the orphan out of the lists of its inputs. -/
theorem relisted_unlinkOrphan (mp : TxPool) (tx : Tx) :
    Relisted (·.filter (·.hash ≠ tx.hash)) tx.prevOuts mp (mp.unlinkOrphan tx) := by
  refine relisted_foldl (fun l => by simp [filter_filter]) (fun mp op => ?_) _ _
  unfold unlinkPrev
  cases hprev : mp.orphansByPrev op with
  | none =>
    refine ⟨.refl mp, rfl, id, fun op' => ?_⟩
    by_cases hop : op' = op <;> simp [hop, orphansOf, hprev]
  | some l =>
    refine ⟨⟨rfl, rfl, rfl⟩, rfl, fun hfilled op' => ?_, fun op' => ?_⟩
    · dsimp only
      split_ifs
      · exact collectionEntry_ne _
      · exact hfilled op'
    · by_cases hop : op' = op <;> simp [hop, orphansOf, hprev]

/-- **The loop of `addOrphan`** puts the orphan into the lists of its inputs. -/
theorem relisted_link (mp : TxPool) (tx : Tx) (ops : List OutPoint) :
    Relisted (fun l => l.filter (·.hash ≠ tx.hash) ++ [tx]) ops mp
      (ops.foldl (linkPrev tx) mp) := by
  refine relisted_foldl (fun l => by simp [filter_filter]) (fun mp op => ?_) _ _
  refine ⟨⟨rfl, rfl, rfl⟩, rfl, fun hfilled op' => ?_, fun op' => ?_⟩
  · unfold linkPrev
    dsimp only
    split_ifs
    · simp
    · exact hfilled op'
  · unfold linkPrev
    by_cases hop : op' = op <;> simp [hop, orphansOf]

/-! ## The invariant -/

/-- The index lists the orphans that are not in `S`. -/
structure Linked (S : List Hash) (mp : TxPool) : Prop where
  nodup : (mp.orphans.map (·.hash)).Nodup
  filled : ∀ op, mp.orphansByPrev op ≠ some []
  distinct : ∀ op, (mp.orphansOf op).Nodup
  mem : ∀ op tx, tx ∈ mp.orphansOf op ↔ tx ∈ mp.orphans ∧ tx.hash ∉ S ∧ op ∈ tx.prevOuts

theorem Linked.hash_inj (h : Linked S mp) {tx' : Tx} (htx : tx ∈ mp.orphans)
    (htx' : tx' ∈ mp.orphans) (heq : tx.hash = tx'.hash) : tx = tx' :=
  inj_on_of_nodup_map h.nodup htx htx' heq

/-- The orphan that is being removed leaves the index. -/
theorem Linked.unlink (h : Linked S mp) (htx : tx ∈ mp.orphans) :
    Linked (tx.hash :: S) (mp.unlinkOrphan tx) := by
  obtain ⟨-, horphans, hfilled, hlist⟩ := relisted_unlinkOrphan mp tx
  refine ⟨horphans ▸ h.nodup, hfilled h.filled, fun op => ?_, fun op tx' => ?_⟩
  · rw [hlist]
    split_ifs with hop
    · exact (h.distinct op).filter _
    · exact h.distinct op
  · rw [hlist, horphans, mem_cons]
    split_ifs with hop
    · rw [mem_filter, h.mem]
      simp only [ne_eq, decide_not, Bool.not_eq_eq_eq_not, Bool.not_true, decide_eq_false_iff_not]
      tauto
    · rw [h.mem]
      constructor
      · rintro ⟨htx', hS, hop'⟩
        refine ⟨htx', ?_, hop'⟩
        rintro (heq | hS')
        · exact hop (h.hash_inj htx' htx heq ▸ hop')
        · exact hS hS'
      · rintro ⟨htx', hS, hop'⟩
        exact ⟨htx', fun hmem => hS (.inr hmem), hop'⟩

theorem Linked.delete {h : Hash} (hlinked : Linked (h :: S) mp) :
    Linked S { mp with orphans := mp.orphans.filter (·.hash ≠ h) } := by
  refine ⟨hlinked.nodup.sublist (filter_sublist.map _), hlinked.filled, hlinked.distinct,
    fun op tx => (hlinked.mem op tx).trans ?_⟩
  simp only [mem_cons, not_or, mem_filter, ne_eq, decide_not, Bool.not_eq_eq_eq_not, Bool.not_true,
    decide_eq_false_iff_not]
  tauto

theorem Linked.ask (h : Linked S mp) : Linked S mp.ask := ⟨h.nodup, h.filled, h.distinct, h.mem⟩

/-! ## `removeOrphan` -/

/-- What a removal may change: orphans that are not being removed elsewhere are taken away, and the
index follows. -/
structure Shrinks (S : List Hash) (mp mp' : TxPool) : Prop where
  linked : Linked S mp'
  sublist : mp'.orphans.Sublist mp.orphans
  kept : ∀ tx ∈ mp.orphans, tx.hash ∈ S → tx ∈ mp'.orphans
  same : SamePool mp mp'

theorem Shrinks.refl (h : Linked S mp) : Shrinks S mp mp :=
  ⟨h, .refl _, fun _ htx _ => htx, .refl mp⟩

theorem Shrinks.trans (h : Shrinks S mp mp') (h' : Shrinks S mp' mp'') : Shrinks S mp mp'' :=
  ⟨h'.linked, h'.sublist.trans h.sublist, fun tx htx hS => h'.kept tx (h.kept tx htx hS) hS,
    h.same.trans h'.same⟩

theorem Shrinks.ask (h : Linked S mp) : Shrinks S mp mp.ask :=
  ⟨h.ask, .refl _, fun _ htx _ => htx, ⟨rfl, rfl, rfl⟩⟩

/-- The orphans that are not being removed. -/
def idle (S : List Hash) (mp : TxPool) : Nat := mp.orphans.countP (·.hash ∉ S)

theorem Shrinks.idle_le (h : Shrinks S mp mp') : idle S mp' ≤ idle S mp := h.sublist.countP_le

/-- An orphan that starts to be removed is no longer idle. -/
theorem idle_cons_lt (htx : tx ∈ mp.orphans) (hS : tx.hash ∉ S) :
    idle (tx.hash :: S) mp < idle S mp := by
  unfold idle
  refine countP_lt_countP_of_imp (fun t _ ht => ?_) htx (by simp) (by simpa using hS)
  simp only [mem_cons, not_or, decide_eq_true_eq] at ht ⊢
  exact ht.2

/-- A loop over the orphans that spend an outpoint, where each visit removes the orphan. -/
theorem rangeOrphans_spec {body : TxPool → Tx → Option TxPool} (h : Linked S mp) (op : OutPoint)
    (hbody : ∀ mp' orphan, Shrinks S mp mp' → orphan ∈ mp'.orphansOf op →
      Returns (body mp' orphan) fun mp'' => Shrinks S mp' mp'' ∧ orphan ∉ mp''.orphans) :
    Returns (rangeOrphans w body mp op) fun mp' => Shrinks S mp mp' ∧ mp'.orphansOf op = [] := by
  unfold rangeOrphans
  have hloop := Returns.foldlM (l := w.order Tx mp.asked (mp.orphansOf op)) (s := mp.ask)
    (f := fun mp orphan => if orphan ∈ mp.orphansOf op then body mp orphan else some mp)
    (I := fun done mp' => Shrinks S mp mp' ∧ ∀ orphan ∈ done, orphan ∉ mp'.orphansOf op)
    ⟨.ask h, nofun⟩ ?_
  · refine hloop.imp fun mp' ⟨hshrinks, hgone⟩ => ⟨hshrinks, ?_⟩
    refine eq_nil_iff_forall_not_mem.2 fun orphan horphan => hgone orphan ?_ horphan
    rw [(w.order_perm _ _ _).mem_iff, h.mem]
    obtain ⟨hmem, hS, hop⟩ := (hshrinks.linked.mem op orphan).1 horphan
    exact ⟨hshrinks.sublist.subset hmem, hS, hop⟩
  · rintro done orphan mp' - ⟨hshrinks, hgone⟩
    -- what has left the list of the outpoint does not come back
    have hstep : ∀ mp'', Shrinks S mp' mp'' → orphan ∉ mp''.orphansOf op →
        Shrinks S mp mp'' ∧ ∀ o ∈ done ++ [orphan], o ∉ mp''.orphansOf op := by
      intro mp'' hs hnot
      refine ⟨hshrinks.trans hs, fun o ho hmem => ?_⟩
      rcases mem_append.1 ho with ho | ho
      · obtain ⟨hin, hS, hop⟩ := (hs.linked.mem op o).1 hmem
        exact hgone o ho ((hshrinks.linked.mem op o).2 ⟨hs.sublist.subset hin, hS, hop⟩)
      · rw [mem_singleton.1 ho] at hmem
        exact hnot hmem
    split_ifs with horphan
    · refine (hbody mp' orphan hshrinks horphan).imp fun mp'' ⟨hs, hnot⟩ =>
        hstep mp'' hs fun hmem => ?_
      exact hnot ((hs.linked.mem op orphan).1 hmem).1
    · exact returns_some (hstep mp' (.refl hshrinks.linked) horphan)

/-- **`removeOrphan`** returns, removes the orphan and keeps the index. -/
theorem removeOrphanRec_spec (fuel : Nat)
    (removeRedeemers : Bool) (h : Linked S mp) (hS : tx.hash ∉ S) (hfuel : idle S mp < fuel) :
    Returns (removeOrphanRec w fuel mp tx removeRedeemers) fun mp' =>
      Shrinks S mp mp' ∧ ∀ o ∈ mp'.orphans, o.hash ≠ tx.hash := by
  induction fuel generalizing mp S tx removeRedeemers with
  | zero => omega
  | succ fuel ih =>
    rw [removeOrphanRec]
    cases hfind : mp.orphans.find? (·.hash = tx.hash) with
    | none =>
      refine returns_some ⟨.refl h, fun o ho heq => ?_⟩
      exact absurd heq (by simpa using List.find?_eq_none.1 hfind o ho)
    | some orphan =>
      have hmem := mem_of_find?_eq_some hfind
      have hhash : orphan.hash = tx.hash := by simpa using List.find?_some hfind
      rw [← hhash] at hS ⊢
      obtain ⟨hsame, horphans, -⟩ := relisted_unlinkOrphan mp orphan
      have hlinked := h.unlink hmem
      have hidle : idle (orphan.hash :: S) (mp.unlinkOrphan orphan) < fuel := by
        have hlt := idle_cons_lt hmem hS
        rw [idle, horphans]
        exact lt_of_lt_of_le hlt (by omega)
      -- the redeemers are removed while the orphan is still in the pool
      have hredeemers : Returns (if removeRedeemers then orphan.outPoints.foldlM (rangeOrphans w
          fun mp o => removeOrphanRec w fuel mp o true) (mp.unlinkOrphan orphan)
          else some (mp.unlinkOrphan orphan))
          (Shrinks (orphan.hash :: S) (mp.unlinkOrphan orphan)) := by
        refine Returns.ite (fun _ => ?_) fun _ => returns_some (.refl hlinked)
        refine Returns.foldlM
          (I := fun _ => Shrinks (orphan.hash :: S) (mp.unlinkOrphan orphan)) (.refl hlinked) ?_
        intro _ op mp' _ hshrinks
        refine (rangeOrphans_spec hshrinks.linked op fun mp'' o hs ho => ?_).imp fun _ h' =>
          hshrinks.trans h'.1
        obtain ⟨-, ho', -⟩ := (hs.linked.mem op o).1 ho
        have hle := (hshrinks.trans hs).idle_le
        refine (ih true hs.linked ho' (by omega)).imp fun _ h' => ⟨h'.1, fun hin => ?_⟩
        exact h'.2 o hin rfl
      refine hredeemers.map fun mp' hshrinks => ⟨⟨hshrinks.linked.delete, ?_, ?_, ?_⟩, ?_⟩
      · exact filter_sublist.trans (horphans ▸ hshrinks.sublist)
      · intro o ho hoS
        refine mem_filter.2 ⟨hshrinks.kept o (horphans ▸ ho) (mem_cons_of_mem _ hoS), ?_⟩
        simpa using fun heq : o.hash = orphan.hash => hS (heq ▸ hoS)
      · exact hsame.trans ⟨hshrinks.same.pool, hshrinks.same.outpoints, hshrinks.same.votes⟩
      · intro o ho
        simpa using (mem_filter.1 ho).2

theorem removeOrphan_spec (h : Linked [] mp) (tx : Tx) (removeRedeemers : Bool) :
    Returns (mp.removeOrphan w tx removeRedeemers) fun mp' =>
      Shrinks [] mp mp' ∧ ∀ o ∈ mp'.orphans, o.hash ≠ tx.hash :=
  removeOrphanRec_spec _ removeRedeemers h not_mem_nil
    (Nat.lt_succ_of_le countP_le_length)

/-! ## The bound -/

/-- The orphans and their index agree, and there are not too many. -/
structure OrphansRight (cfg : PoolConfig) (mp : TxPool) : Prop where
  linked : Linked [] mp
  bound : (mp.orphans.length : Int) ≤ max 0 cfg.maxOrphanTxs

theorem OrphansRight.shrinks (h : OrphansRight cfg mp) (hs : Shrinks [] mp mp') :
    OrphansRight cfg mp' :=
  ⟨hs.linked, le_trans (by exact_mod_cast hs.sublist.length_le) h.bound⟩

theorem limitNumOrphans_spec (h : OrphansRight cfg mp) (hlimit : 0 < cfg.maxOrphanTxs) :
    Returns (mp.limitNumOrphans w cfg) fun mp' =>
      Shrinks [] mp mp' ∧ (mp'.orphans.length : Int) + 1 ≤ cfg.maxOrphanTxs := by
  unfold limitNumOrphans
  refine Returns.ite (fun hroom => returns_some ⟨.refl h.linked, hroom⟩) fun hfull => ?_
  have hbound := h.bound
  rw [max_eq_right hlimit.le] at hbound
  have hperm := w.order_perm Tx mp.asked mp.orphans
  cases horder : w.order Tx mp.asked mp.orphans with
  | nil =>
    rw [horder] at hperm
    rw [nil_perm.1 hperm] at hfull
    simp only [length_nil] at hfull
    omega
  | cons tx rest =>
    have htx : tx ∈ mp.orphans := hperm.mem_iff.1 (by rw [horder]; exact mem_cons_self)
    refine (removeOrphan_spec h.linked.ask tx false).imp fun mp' ⟨hs, hgone⟩ => ?_
    refine ⟨(Shrinks.ask h.linked).trans hs, ?_⟩
    -- the evicted orphan is not in the pool any more
    have hlt : mp'.orphans.length < mp.orphans.length := by
      refine lt_of_le_of_ne hs.sublist.length_le fun heq => hgone tx ?_ rfl
      rw [hs.sublist.eq_of_length heq]
      exact htx
    omega

/-- The new orphan enters the pool and the index. -/
theorem Linked.add (h : Linked [] mp) (htx : ∀ o ∈ mp.orphans, o.hash ≠ tx.hash) :
    Linked [] (tx.prevOuts.foldl (linkPrev tx)
      { mp with orphans := mp.orphans.filter (·.hash ≠ tx.hash) ++ [tx] }) := by
  have hfilter : ∀ l : List Tx, (∀ o ∈ l, o ∈ mp.orphans) →
      l.filter (fun o => decide (o.hash ≠ tx.hash)) = l := fun l hl =>
    filter_eq_self.2 fun o ho => by simpa using htx o (hl o ho)
  have hof : ∀ op, ∀ o ∈ mp.orphansOf op, o ∈ mp.orphans := fun op o ho => ((h.mem op o).1 ho).1
  have hnot : tx ∉ mp.orphans := fun hmem => htx tx hmem rfl
  rw [hfilter mp.orphans fun _ ho => ho]
  obtain ⟨-, horphans, hfilled, hrelisted⟩ :=
    relisted_link { mp with orphans := mp.orphans ++ [tx] } tx tx.prevOuts
  have hlist : ∀ op, (tx.prevOuts.foldl (linkPrev tx)
      { mp with orphans := mp.orphans ++ [tx] }).orphansOf op =
      if op ∈ tx.prevOuts then mp.orphansOf op ++ [tx] else mp.orphansOf op := by
    intro op
    rw [hrelisted]
    show (if _ then (mp.orphansOf op).filter _ ++ [tx] else mp.orphansOf op) = _
    rw [hfilter _ (hof op)]
  refine ⟨?_, hfilled h.filled, fun op => ?_, fun op o => ?_⟩
  · rw [horphans, map_append, nodup_append]
    refine ⟨h.nodup, nodup_singleton _, ?_⟩
    rintro _ ha _ hb rfl
    obtain ⟨o, ho, heq⟩ := mem_map.1 ha
    exact htx o ho (heq.trans (mem_singleton.1 hb))
  · rw [hlist]
    split_ifs with hop
    · rw [nodup_append]
      refine ⟨h.distinct op, nodup_singleton _, ?_⟩
      rintro o ho _ hb rfl
      exact hnot (mem_singleton.1 hb ▸ hof op o ho)
    · exact h.distinct op
  · rw [hlist, horphans, mem_append, mem_singleton]
    split_ifs with hop
    · rw [mem_append, mem_singleton, h.mem]
      constructor
      · rintro (⟨ho, hS, hop'⟩ | rfl)
        · exact ⟨.inl ho, hS, hop'⟩
        · exact ⟨.inr rfl, not_mem_nil, hop⟩
      · rintro ⟨ho | rfl, hS, hop'⟩
        · exact .inl ⟨ho, hS, hop'⟩
        · exact .inr rfl
    · rw [h.mem]
      constructor
      · rintro ⟨ho, hS, hop'⟩
        exact ⟨.inl ho, hS, hop'⟩
      · rintro ⟨ho | rfl, hS, hop'⟩
        · exact ⟨ho, hS, hop'⟩
        · exact absurd hop' hop

/-- **`addOrphan`** returns, and keeps the index and the bound. -/
theorem addOrphan_spec (h : OrphansRight cfg mp) (htx : mp.isOrphanInPool tx.hash = false) :
    Returns (mp.addOrphan w cfg tx) fun mp' =>
      OrphansRight cfg mp' ∧ SamePool mp mp' ∧ ∀ o ∈ mp'.orphans, o ∈ mp.orphans ∨ o = tx := by
  unfold addOrphan
  refine Returns.ite (fun _ => returns_some ⟨h, .refl mp, fun o ho => .inl ho⟩) fun hlimit => ?_
  refine (limitNumOrphans_spec h (by omega)).bind fun mp' ⟨hs, hroom⟩ => returns_some ?_
  have hnew : ∀ o ∈ mp'.orphans, o.hash ≠ tx.hash := by
    intro o ho heq
    have hin := any_eq_false.1 htx o (hs.sublist.subset ho)
    exact hin (by simpa using heq)
  obtain ⟨⟨hpool, houtpoints, hvotes⟩, horphans, -⟩ := relisted_link
    { mp' with orphans := mp'.orphans.filter (·.hash ≠ tx.hash) ++ [tx] } tx tx.prevOuts
  refine ⟨⟨hs.linked.add hnew, ?_⟩, hs.same.trans ⟨hpool, houtpoints, hvotes⟩, fun o ho => ?_⟩
  swap
  · rw [horphans, mem_append, mem_singleton] at ho
    exact ho.imp_left fun hin => hs.sublist.subset (mem_filter.1 hin).1
  have hle := length_filter_le (fun o : Tx => decide (o.hash ≠ tx.hash)) mp'.orphans
  rw [horphans, max_eq_right (by omega)]
  simp only [length_append, length_singleton, Nat.cast_add, Nat.cast_one]
  omega

/-! ## Histories -/

/-- The orphans and their index are the same. -/
def SameOrphans (mp mp' : TxPool) : Prop :=
  mp'.orphans = mp.orphans ∧ mp'.orphansByPrev = mp.orphansByPrev

theorem OrphansRight.congr (h : OrphansRight cfg mp) (hsame : SameOrphans mp mp') :
    OrphansRight cfg mp' := by
  obtain ⟨horphans, hprev⟩ := hsame
  have hof : mp'.orphansOf = mp.orphansOf := by
    funext op
    rw [orphansOf, orphansOf, hprev]
  refine ⟨⟨?_, ?_, ?_, ?_⟩, ?_⟩
  · rw [horphans]
    exact h.linked.nodup
  · rw [hprev]
    exact h.linked.filled
  · rw [hof]
    exact h.linked.distinct
  · rw [hof, horphans]
    exact h.linked.mem
  · rw [horphans]
    exact h.bound

theorem sameOrphans_accept {isNew rateLimit allowHighFees rejectDupOrphans : Bool}
    {verdict : Except PoolError (List Hash)}
    (h : AcceptStep w cfg mp tx isNew rateLimit allowHighFees rejectDupOrphans mp' verdict) :
    SameOrphans mp mp' := by
  cases h with
  | refused => exact ⟨rfl, rfl⟩
  | missing => exact ⟨rfl, rfl⟩
  | accepted _ hvote =>
    obtain ⟨votes, rfl⟩ := recordVote_frame hvote
    exact ⟨rfl, rfl⟩

theorem sameOrphans_drop (mp : TxPool) (hash : Hash) :
    SameOrphans mp (mp.dropTransaction hash) := by
  unfold dropTransaction
  split <;> exact ⟨rfl, rfl⟩

theorem orphansRight_preserved : Preserved w cfg (fun _ => True) (OrphansRight cfg) where
  ask _ h := h.congr ⟨rfl, rfl⟩
  drop mp hash h := h.congr (sameOrphans_drop mp hash)
  orphan _ _ _ _ _ := trivial
  removeOrphan _ tx removeRedeemers h :=
    ((removeOrphan_spec h.linked tx removeRedeemers).imp fun _ hs => h.shrinks hs.1).ensures
  addOrphan _ _ h _ hnew := ((addOrphan_spec h hnew).imp fun _ h' => h'.1).ensures
  accept _ _ _ _ _ _ h _ _ hr := h.congr (sameOrphans_accept (maybeAcceptTransaction_step hr))

theorem orphansRight_new (cfg : PoolConfig) : OrphansRight cfg newTxPool := by
  refine ⟨⟨nodup_nil, fun _ => nofun, fun _ => nodup_nil, fun op tx => ?_⟩, le_max_left _ _⟩
  simp [orphansOf, newTxPool]

end TxPool

/-- **The orphan pool** keeps to its limit in every history. Its index has, for each outpoint that
an orphan spends and no other, an entry with exactly the orphans that spend it; and the removal of
an orphan with its redeemers returns. -/
theorem orphanTxs_run {w : World} {cfg : PoolConfig} {steps : List PoolStep} {mp : TxPool}
    (h : PoolRun w cfg steps mp) : (mp.orphans.length : Int) ≤ max 0 cfg.maxOrphanTxs ∧
      (∀ op, mp.orphansByPrev op = none ↔ ∀ tx ∈ mp.orphans, op ∉ tx.prevOuts) ∧
      (∀ op orphans, mp.orphansByPrev op = some orphans →
        orphans.Nodup ∧ ∀ tx, tx ∈ orphans ↔ tx ∈ mp.orphans ∧ op ∈ tx.prevOuts) ∧
      (mp.orphans.map (·.hash)).Nodup ∧
      ∀ tx removeRedeemers, (mp.removeOrphan w tx removeRedeemers).isSome := by
  obtain ⟨hlinked, hbound⟩ := h.inv orphansRight_preserved (orphansRight_new cfg)
    fun _ _ _ _ => trivial
  have hmem : ∀ op tx, tx ∈ mp.orphansOf op ↔ tx ∈ mp.orphans ∧ op ∈ tx.prevOuts := fun op tx => by
    simpa using hlinked.mem op tx
  refine ⟨hbound, fun op => ⟨fun hnone tx htx hop => ?_, fun hall => ?_⟩, fun op l hl => ?_,
    hlinked.nodup, fun tx removeRedeemers => ?_⟩
  · have hin := (hmem op tx).2 ⟨htx, hop⟩
    rw [orphansOf, hnone] at hin
    exact not_mem_nil hin
  · cases hprev : mp.orphansByPrev op with
    | none => rfl
    | some l =>
      cases l with
      | nil => exact absurd hprev (hlinked.filled op)
      | cons tx l =>
        have hin := (hmem op tx).1 (by rw [orphansOf, hprev]; exact mem_cons_self)
        exact absurd hin.2 (hall tx hin.1)
  · have hof : mp.orphansOf op = l := by rw [orphansOf, hl, Option.getD_some]
    exact ⟨hof ▸ hlinked.distinct op, fun tx => hof ▸ hmem op tx⟩
  · obtain ⟨mp', hsome, -⟩ := removeOrphan_spec (w := w) hlinked tx removeRedeemers
    rw [hsome]
    rfl

/-- A transaction that spends an output of a transaction that nobody knows. -/
def orphanTx (hash : Nat) : Tx where
  hash := Hash.ofNat hash
  msgTx := ⟨1, [⟨⟨Hash.ofNat 1, 0, txTreeRegular⟩, 0, 0, 0, []⟩], [⟨1, 0, []⟩], 0⟩
  txType := .regular
  typed := by decide +kernel

/-- Two orphans that spend one output enter a pool that has room for two, and one is removed. -/
theorem orphanTxs_run_removed : ∃ steps mp,
    PoolRun (.constant (.lenient 0 fun _ => newUtxoViewpoint)) (.regNet 2) steps mp ∧
      steps.map (·.op) = [.processTransaction (orphanTx 2) true false false,
        .processTransaction (orphanTx 3) true false false, .removeOrphan (orphanTx 2)] ∧
      ∃ orphans, mp.orphansByPrev ⟨Hash.ofNat 1, 0, txTreeRegular⟩ = some orphans ∧
        ∀ tx, tx ∈ orphans ↔ tx = orphanTx 3 := by
  have hrun : (runAll (.constant (.lenient 0 fun _ => newUtxoViewpoint)) (.regNet 2)
      [.processTransaction (orphanTx 2) true false false,
        .processTransaction (orphanTx 3) true false false, .removeOrphan (orphanTx 2)]).map
      (·.orphans) = some [orphanTx 3] := by decide +kernel
  obtain ⟨mp, hmp, horphans⟩ := Option.map_eq_some_iff.1 hrun
  obtain ⟨steps, h, hops⟩ := PoolRun.of_runAll hmp
  obtain ⟨-, hnone, hsome, -⟩ := orphanTxs_run h
  have hspends : (⟨Hash.ofNat 1, 0, txTreeRegular⟩ : OutPoint) ∈ (orphanTx 3).prevOuts := by decide
  refine ⟨steps, mp, h, hops, ?_⟩
  cases hprev : mp.orphansByPrev ⟨Hash.ofNat 1, 0, txTreeRegular⟩ with
  | none => exact absurd hspends ((hnone _).1 hprev _ (by rw [horphans]; exact mem_cons_self))
  | some orphans =>
    refine ⟨orphans, rfl, fun tx => ?_⟩
    rw [(hsome _ _ hprev).2 tx, horphans, mem_singleton, and_iff_left_of_imp]
    rintro rfl
    exact hspends

end Fnod
