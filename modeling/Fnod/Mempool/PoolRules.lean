import Fnod.Lib.Returns
import Fnod.Mempool.TxPool
import Mathlib.Data.List.Induction

/-!
# What a call can do to the pool

A call on the pool is made of a few primitive changes: a transaction is accepted
(`maybeAcceptTransaction`, taken apart in `AcceptStep`), one is dropped, an orphan is removed or
added, and a question is asked.

**Theorem (`run_inv`).** What every primitive change preserves is preserved by every call; by
induction it holds in every history (`PoolRun.inv`).
-/

namespace Fnod

open Ensures List TxPool

variable {w : World} {cfg : PoolConfig} {mp : TxPool}

namespace TxPool

variable {mp' : TxPool} {tx : Tx}
variable {isNew rateLimit allowHighFees rejectDupOrphans : Bool}

/-- The ways in which `maybeAcceptTransaction` ends. -/
inductive AcceptStep (w : World) (cfg : PoolConfig) (mp : TxPool) (tx : Tx)
    (isNew rateLimit allowHighFees rejectDupOrphans : Bool) :
    TxPool → Except PoolError (List Hash) → Prop
  | refused {e} : mp.checkTransaction cfg (w.env mp.asked) tx isNew rateLimit allowHighFees
        rejectDupOrphans = .error (.err e) →
      AcceptStep w cfg mp tx isNew rateLimit allowHighFees rejectDupOrphans mp.ask (.error e)
  | missing {parents} : mp.checkTransaction cfg (w.env mp.asked) tx isNew rateLimit allowHighFees
        rejectDupOrphans = .ok (.inl parents) →
      AcceptStep w cfg mp tx isNew rateLimit allowHighFees rejectDupOrphans mp.ask (.ok parents)
  | accepted {fee mp'} : mp.checkTransaction cfg (w.env mp.asked) tx isNew rateLimit allowHighFees
        rejectDupOrphans = .ok (.inr fee) →
      (mp.ask.addTransaction tx (w.env mp.asked).bestHeight fee).recordVote tx = some mp' →
      AcceptStep w cfg mp tx isNew rateLimit allowHighFees rejectDupOrphans mp' (.ok [])

/-- **`maybeAcceptTransaction`** ends in one of these ways. -/
theorem maybeAcceptTransaction_step {verdict : Except PoolError (List Hash)}
    (h : mp.maybeAcceptTransaction w cfg tx isNew rateLimit allowHighFees rejectDupOrphans =
      some (mp', verdict)) :
    AcceptStep w cfg mp tx isNew rateLimit allowHighFees rejectDupOrphans mp' verdict := by
  unfold maybeAcceptTransaction at h
  dsimp only at h
  split at h
  · cases h
  · next e hcheck =>
    cases h
    exact .refused hcheck
  · next parents hcheck =>
    cases h
    exact .missing hcheck
  · next fee hcheck =>
    obtain ⟨_, hvote, heq⟩ := Option.map_eq_some_iff.1 h
    cases heq
    exact .accepted hcheck hvote

theorem refuseIf_eq_ok {bad : Prop} [Decidable bad] {code : RejectCode} {u : Unit} :
    refuseIf bad code = .ok u ↔ ¬bad := by
  unfold refuseIf
  by_cases hbad : bad <;> simp [hbad]

/-- A transaction that passes the first check is not known. -/
theorem not_known_of_checkTransaction {env : PoolEnv} {r : List Hash ⊕ Int}
    (h : mp.checkTransaction cfg env tx isNew rateLimit allowHighFees rejectDupOrphans = .ok r) :
    mp.isTransactionInPool tx.hash = false ∧
      (rejectDupOrphans = true → mp.isOrphanInPool tx.hash = false) := by
  unfold checkTransaction at h
  obtain ⟨_, hdup, -⟩ := Except.bind_eq_ok.1 h
  have hknown := refuseIf_eq_ok.1 hdup
  rw [Bool.or_eq_true, not_or, Bool.not_eq_true, Bool.not_eq_true, Bool.and_eq_false_iff] at hknown
  refine ⟨hknown.1, fun hreject => hknown.2.resolve_left ?_⟩
  simp [hreject]

theorem recordVote_frame (h : mp.recordVote tx = some mp') :
    ∃ votes, mp' = { mp with votes := votes } := by
  unfold recordVote insertVote at h
  split_ifs at h
  · split at h
    · dsimp only at h
      split_ifs at h
      · cases h
        exact ⟨mp.votes, rfl⟩
      · split at h
        · cases h
          exact ⟨_, rfl⟩
        · cases h
    · cases h
  · cases h
    exact ⟨mp.votes, rfl⟩

/-! ## Loops -/

section Rules

variable {I : TxPool → Prop} (hask : ∀ mp, I mp → I mp.ask) {N : Tx → Prop}

include hask in
theorem rangeOrphans_inv {body : TxPool → Tx → Option TxPool}
    (hbody : ∀ mp orphan, I mp → Ensures (body mp orphan) I) (h : I mp) (op : OutPoint) :
    Ensures (rangeOrphans w body mp op) I := by
  unfold rangeOrphans
  refine foldlM (hask mp h) fun orphan mp' _ h' => ?_
  split_ifs with horphan
  · exact hbody mp' orphan h'
  · exact ensures_some h'

include hask in
theorem rangePool_inv {body : TxPool → TxDesc → Option TxPool}
    (hbody : ∀ mp' desc, desc ∈ mp.pool → I mp' → Ensures (body mp' desc) I) (h : I mp) :
    Ensures (rangePool w body mp) I := by
  unfold rangePool
  refine foldlM (hask mp h) fun desc mp' hmem h' => ?_
  split_ifs with hdesc
  · exact hbody mp' desc ((w.order_perm _ _ _).mem_iff.1 hmem) h'
  · exact ensures_some h'

/-! ### Transactions that leave -/

section

variable (hdrop : ∀ mp hash, I mp → I (mp.dropTransaction hash))

include hdrop

theorem removeTransactionRec_inv (fuel : Nat) (h : I mp) (tx : Tx) (removeRedeemers : Bool) :
    Ensures (removeTransactionRec fuel mp tx removeRedeemers) I := by
  induction fuel generalizing mp tx removeRedeemers with
  | zero => exact ensures_none
  | succ fuel ih =>
    rw [removeTransactionRec]
    refine Ensures.map (P := I) ?_ fun mp' h' => hdrop mp' tx.hash h'
    split_ifs with hr
    · refine foldlM h fun op mp' _ h' => ?_
      cases mp'.outpoints op with
      | none => exact ensures_some h'
      | some redeemer => exact ih h' redeemer true
    · exact ensures_some h

theorem removeTransaction_inv (h : I mp) (tx : Tx)
    (removeRedeemers : Bool) : Ensures (mp.removeTransaction tx removeRedeemers) I :=
  removeTransactionRec_inv hdrop _ h tx removeRedeemers

theorem removeDoubleSpends_inv (h : I mp) (tx : Tx) : Ensures (mp.removeDoubleSpends tx) I := by
  unfold removeDoubleSpends
  refine foldlM h fun op mp' _ h' => ?_
  cases mp'.outpoints op with
  | none => exact ensures_some h'
  | some redeemer =>
    dsimp only
    split_ifs with hne
    · exact removeTransaction_inv hdrop h' redeemer true
    · exact ensures_some h'

theorem pruneIf_inv (h : I mp) (bad : Prop) [Decidable bad]
    (desc : TxDesc) : Ensures (pruneIf bad mp desc) I := by
  unfold pruneIf
  split_ifs with hbad
  · exact removeTransaction_inv hdrop h desc.tx true
  · exact ensures_some h

end

include hask in
theorem pruneStakeTx_inv (hdrop : ∀ mp hash, I mp → I (mp.dropTransaction hash)) (h : I mp)
    (requiredStakeDifficulty : Int) (height : Nat) :
    Ensures (mp.pruneStakeTx w requiredStakeDifficulty height) I := by
  unfold pruneStakeTx
  refine rangePool_inv hask (fun mp' desc _ h' => ?_) h
  exact (pruneIf_inv hdrop h' _ desc).bind fun _ h₁ =>
    (pruneIf_inv hdrop h₁ _ desc).bind fun _ h₂ => pruneIf_inv hdrop h₂ _ desc

include hask in
theorem pruneExpiredTx_inv (hdrop : ∀ mp hash, I mp → I (mp.dropTransaction hash)) (h : I mp) :
    Ensures (mp.pruneExpiredTx w) I := by
  unfold pruneExpiredTx
  exact rangePool_inv hask (fun _ desc _ h' => pruneIf_inv hdrop h' _ desc) (hask mp h)

/-! ### Orphans that are adopted -/

section Adopt

variable (horphan : ∀ mp op tx, I mp → tx ∈ mp.orphansOf op → N tx)
  (hremove : ∀ mp tx removeRedeemers, I mp → Ensures (mp.removeOrphan w tx removeRedeemers) I)
  (haccept : ∀ mp tx isNew rateLimit allowHighFees rejectDupOrphans, I mp → N tx →
    Ensures (mp.maybeAcceptTransaction w cfg tx isNew rateLimit allowHighFees rejectDupOrphans)
      fun r => I r.1)

include hremove haccept in
theorem tryOrphans_inv (orphans : List Tx) (hN : ∀ tx ∈ orphans, N tx) (h : I mp) :
    Ensures (tryOrphans w cfg orphans mp) fun r => I r.1 := by
  induction orphans generalizing mp with
  | nil => exact ensures_some h
  | cons tx orphans ih =>
    rw [tryOrphans]
    refine (haccept mp tx true true true false h (hN tx mem_cons_self)).bind fun r hr => ?_
    obtain ⟨mp', verdict⟩ := r
    match verdict with
    | .error _ => exact (hremove mp' tx true hr).bind fun _ h' => ensures_some h'
    | .ok (_ :: _) => exact ih (forall_mem_cons.1 hN).2 hr
    | .ok [] => exact (hremove mp' tx false hr).bind fun _ h' => ensures_some h'

include hask horphan hremove haccept in
theorem processOutput_inv (s : TxPool × List Tx) (h : I s.1) (prevOut : OutPoint) :
    Ensures (processOutput w cfg s prevOut) fun r => I r.1 := by
  unfold processOutput
  cases hprev : s.1.orphansByPrev prevOut with
  | none => exact ensures_some h
  | some orphans =>
    have hN : ∀ tx ∈ w.order Tx s.1.asked orphans, N tx := by
      intro tx htx
      refine horphan s.1 prevOut tx h ?_
      rw [orphansOf, hprev]
      exact (w.order_perm _ _ _).mem_iff.1 htx
    exact (tryOrphans_inv hremove haccept _ hN (hask _ h)).bind fun _ h' => ensures_some h'

include hask horphan hremove haccept in
theorem processQueue_inv (fuel : Nat) (queue acceptedTxns : List Tx) (h : I mp) :
    Ensures (processQueue w cfg fuel mp queue acceptedTxns) fun r => I r.1 := by
  induction fuel generalizing mp queue acceptedTxns with
  | zero => exact ensures_none
  | succ fuel ih =>
    cases queue with
    | nil => exact ensures_some h
    | cons item queue =>
      rw [processQueue]
      refine Ensures.bind (P := fun r => I r.1) ?_ fun r hr => ih _ _ hr
      exact foldlM h fun op s _ hs => processOutput_inv hask horphan hremove haccept s hs op

include hask hremove in
theorem removeOrphanDoubleSpends_inv (h : I mp) (tx : Tx) :
    Ensures (mp.removeOrphanDoubleSpends w tx) I := by
  unfold removeOrphanDoubleSpends
  exact foldlM h fun op mp' _ h' =>
    rangeOrphans_inv hask (fun mp orphan hmp => hremove mp orphan true hmp) h' op

include hask horphan hremove haccept in
/-- **`processOrphans`** preserves what acceptance and the removal of orphans preserve. -/
theorem processOrphans_inv (h : I mp) (acceptedTx : Tx) :
    Ensures (mp.processOrphans w cfg acceptedTx) fun r => I r.1 := by
  unfold processOrphans
  refine (processQueue_inv hask horphan hremove haccept _ _ _ h).bind fun r hr => ?_
  refine Ensures.bind (P := I) ?_ fun _ h' => ensures_some h'
  exact foldlM hr fun tx mp' _ h' => removeOrphanDoubleSpends_inv hask hremove h' tx

end Adopt

/-! ## Calls -/

/-- A property that every step of taking in a transaction preserves, where the transactions that
come in have a property of their own. -/
structure PreservedByIntake (w : World) (cfg : PoolConfig) (N : Tx → Prop) (I : TxPool → Prop) :
    Prop where
  ask : ∀ mp, I mp → I mp.ask
  orphan : ∀ mp op tx, I mp → tx ∈ mp.orphansOf op → N tx
  removeOrphan : ∀ mp tx removeRedeemers, I mp → Ensures (mp.removeOrphan w tx removeRedeemers) I
  addOrphan : ∀ mp tx, I mp → N tx → mp.isOrphanInPool tx.hash = false →
    Ensures (mp.addOrphan w cfg tx) I
  accept : ∀ mp tx isNew rateLimit allowHighFees rejectDupOrphans, I mp → N tx →
    Ensures (mp.maybeAcceptTransaction w cfg tx isNew rateLimit allowHighFees rejectDupOrphans)
      fun r => I r.1

/-- A property that every primitive change of the pool preserves. -/
structure Preserved (w : World) (cfg : PoolConfig) (N : Tx → Prop) (I : TxPool → Prop) : Prop
    extends PreservedByIntake w cfg N I where
  drop : ∀ mp hash, I mp → I (mp.dropTransaction hash)

section Calls

theorem processTransaction_inv (hI : PreservedByIntake w cfg N I) (h : I mp) (hN : N tx)
    (allowOrphan rateLimit allowHighFees : Bool) :
    Ensures (mp.processTransaction w cfg tx allowOrphan rateLimit allowHighFees)
      fun r => I r.1 := by
  unfold processTransaction
  refine Ensures.bind (P := fun r => I r.1 ∧ ∀ p ps, r.2 = .ok (p :: ps) →
    r.1.isOrphanInPool tx.hash = false) (fun r hr => ⟨hI.accept mp tx _ _ _ _ h hN r hr, ?_⟩) ?_
  · intro p ps hverdict
    obtain ⟨mp', verdict⟩ := r
    cases maybeAcceptTransaction_step hr with
    | refused => cases hverdict
    | missing hcheck => exact (not_known_of_checkTransaction hcheck).2 rfl
    | accepted => cases hverdict
  · rintro ⟨mp', verdict⟩ ⟨h', hnew⟩
    match verdict with
    | .error _ => exact ensures_some h'
    | .ok [] =>
      exact (processOrphans_inv hI.ask hI.orphan hI.removeOrphan hI.accept h' tx).bind fun _ h'' =>
        ensures_some h''
    | .ok (p :: ps) =>
      dsimp only
      split_ifs with hallow
      · exact ensures_some h'
      · refine Ensures.bind (P := fun r => I r.1) ?_ fun _ h'' => ensures_some h''
        unfold maybeAddOrphan
        split_ifs
        · exact ensures_some (hI.ask _ h')
        · exact (hI.addOrphan _ tx (hI.ask _ h') hN (hnew p ps rfl)).bind fun _ h'' =>
            ensures_some h''

variable {op : PoolOp}

/-- **The calls that take in** preserve what each of their steps preserves. -/
theorem intake_inv (hI : PreservedByIntake w cfg N I) (h : I mp) (hop : op.IsIntake)
    (hN : ∀ tx ∈ op.tx?, N tx) : Ensures (op.run w cfg mp) I := by
  cases op with
  | processTransaction tx allowOrphan rateLimit allowHighFees =>
    exact (processTransaction_inv hI h (hN tx rfl) _ _ _).map fun _ h' => h'
  | maybeAcceptTransaction tx isNew rateLimit =>
    exact (hI.accept mp tx _ _ _ _ h (hN tx rfl)).map fun _ h' => h'
  | processOrphans acceptedTx =>
    exact (processOrphans_inv hI.ask hI.orphan hI.removeOrphan hI.accept h acceptedTx).map
      fun _ h' => h'
  | removeOrphan tx => exact hI.removeOrphan mp tx false h
  | removeTransaction | removeDoubleSpends | pruneStakeTx | pruneExpiredTx => cases hop

/-- **The calls that take out** preserve what the removal of a transaction preserves. -/
theorem removal_inv (hask : ∀ mp, I mp → I mp.ask)
    (hdrop : ∀ mp hash, I mp → I (mp.dropTransaction hash)) (h : I mp) (hop : ¬op.IsIntake) :
    Ensures (op.run w cfg mp) I := by
  cases op with
  | removeTransaction tx removeRedeemers => exact removeTransaction_inv hdrop h tx removeRedeemers
  | removeDoubleSpends tx => exact removeDoubleSpends_inv hdrop h tx
  | pruneStakeTx requiredStakeDifficulty height => exact pruneStakeTx_inv hask hdrop h _ _
  | pruneExpiredTx => exact pruneExpiredTx_inv hask hdrop h
  | processTransaction | maybeAcceptTransaction | processOrphans | removeOrphan =>
    exact absurd trivial hop

/-- **Every call** preserves what the primitive changes preserve. -/
theorem run_inv (hI : Preserved w cfg N I) (h : I mp) (hN : ∀ tx ∈ op.tx?, N tx) :
    Ensures (op.run w cfg mp) I := by
  by_cases hop : op.IsIntake
  · exact intake_inv hI.toPreservedByIntake h hop hN
  · exact removal_inv hI.ask hI.drop h hop

end Calls

end Rules

end TxPool

section Run

variable {N : Tx → Prop} {I : TxPool → Prop} {steps : List PoolStep}

section

variable (hI : Preserved w cfg N I) (hnew : I newTxPool) (hrun : PoolRun w cfg steps mp)
  (hN : ∀ s ∈ steps, ∀ tx ∈ s.op.tx?, N tx)

include hI hnew hrun hN

/-- **Every history** preserves what the primitive changes preserve. -/
theorem PoolRun.inv : I mp := by
  induction hrun with
  | new => exact hnew
  | call _ hop ih =>
    have h := ih fun s hs => hN s (mem_append_left _ hs)
    exact run_inv hI h (hN _ (mem_append_right _ mem_cons_self)) _ hop

theorem PoolRun.inv_before : ∀ s ∈ steps, I s.before ∧ s.op.run w cfg s.before = some s.after := by
  induction hrun with
  | new => nofun
  | @call steps mp mp' op hrun hop ih =>
    have hNold : ∀ s ∈ steps, ∀ tx ∈ s.op.tx?, N tx := fun s hs => hN s (mem_append_left _ hs)
    exact forall_mem_append.2 ⟨ih hNold, forall_mem_singleton.2 ⟨hrun.inv hI hnew hNold, hop⟩⟩

end

/-- If from a good pool the result of a call is right exactly if the call meets a condition, and
right results are good, then all results of a history are right exactly if all calls meet it. -/
theorem PoolRun.forall_iff {G : TxPool → Prop} {R C : PoolStep → Prop}
    (hrun : PoolRun w cfg steps mp) (hnew : G newTxPool)
    (hstep : ∀ s ∈ steps, G s.before → (R s ↔ C s)) (hgood : ∀ s ∈ steps, R s → G s.after) :
    (∀ s ∈ steps, R s) ↔ ∀ s ∈ steps, C s := by
  suffices hgen : ((∀ s ∈ steps, R s) ↔ ∀ s ∈ steps, C s) ∧ ((∀ s ∈ steps, R s) → G mp) from hgen.1
  induction hrun with
  | new => exact ⟨⟨nofun, nofun⟩, fun _ => hnew⟩
  | @call steps mp mp' op _ _ ih =>
    simp only [mem_append, mem_singleton, or_imp, forall_and, forall_eq] at hstep hgood ⊢
    obtain ⟨hiff, hmp⟩ := ih hstep.1 hgood.1
    refine ⟨⟨fun hr => ⟨hiff.1 hr.1, (hstep.2 (hmp hr.1)).1 hr.2⟩, fun hc => ?_⟩,
      fun hr => hgood.2 hr.2⟩
    have hold := hiff.2 hc.1
    exact ⟨hold, (hstep.2 (hmp hold)).2 hc.2⟩

end Run

/-- The pool after some calls, if they all return. -/
def runAll (w : World) (cfg : PoolConfig) (ops : List PoolOp) : Option TxPool :=
  ops.foldlM (PoolOp.run w cfg) newTxPool

theorem PoolRun.of_runAll {w : World} {cfg : PoolConfig} {ops : List PoolOp} {mp : TxPool}
    (h : runAll w cfg ops = some mp) :
    ∃ steps, PoolRun w cfg steps mp ∧ steps.map (·.op) = ops := by
  unfold runAll at h
  induction ops using List.reverseRecOn generalizing mp with
  | nil =>
    cases h
    exact ⟨[], .new, rfl⟩
  | append_singleton ops op ih =>
    rw [List.foldlM_append] at h
    obtain ⟨mid, hmid, hlast⟩ := Option.bind_eq_some_iff.1 h
    obtain ⟨steps, hrun, hops⟩ := ih hmid
    refine ⟨steps ++ [⟨mid, op, mp⟩], hrun.call (by simpa using hlast), by simp [hops]⟩

end Fnod
