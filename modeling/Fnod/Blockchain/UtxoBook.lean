import Fnod.Blockchain.UtxoViewpoint

/-!
# Where the entries of a view come from

A hash names one transaction: `known` is the transaction of each hash, and an entry is `Genuine` if
its outputs are outputs of the transaction that its hash names.

**Theorem (`UtxoViewpoint.All.addTxOuts_genuine`).** If the entries of a view are genuine, so are
those after the outputs of a transaction are added. The entry of the transaction then has its
outputs and no others.
-/

namespace Fnod

open Except Option UtxoViewpoint

/-! ## Entries -/

/-- The output without the mark that says whether it is spent. -/
def UtxoOutput.txOut (o : UtxoOutput) : TxOut := ⟨o.amount, o.scriptVersion, o.pkScript⟩

/-- The outputs of a transaction that enter the utxo set. -/
def MsgTx.outputs (msgTx : MsgTx) (i : Nat) : Option TxOut :=
  (msgTx.txOut[i]?).filter fun o => !isUnspendable o.value o.pkScript

/-- **The loop of `AddTxOuts`**: the outputs that may be spent replace what the entry had. -/
theorem get?_addOutputs (outputs : OrdMap Nat UtxoOutput) (txOuts : List TxOut) (k i : Nat) :
    (addOutputs outputs (txOuts.zipIdx k)).get? i =
      ((if k ≤ i then (txOuts[i - k]?).filter fun o => !isUnspendable o.value o.pkScript
        else none).map newOutput).or (outputs.get? i) := by
  induction txOuts generalizing outputs k with
  | nil => simp [addOutputs]
  | cons out txOuts ih =>
    have hcons : addOutputs outputs ((out :: txOuts).zipIdx k) =
        addOutputs (if isUnspendable out.value out.pkScript then outputs
          else outputs.insert k (newOutput out)) (txOuts.zipIdx (k + 1)) := rfl
    rw [hcons, ih]
    by_cases hu : isUnspendable out.value out.pkScript = true
    · rcases Nat.lt_trichotomy i k with hlt | rfl | hlt
      · simp [hu, show ¬ k + 1 ≤ i by omega, show ¬ k ≤ i by omega]
      · simp [hu, show ¬ i + 1 ≤ i by omega, filter_some]
      · simp [hu, show k + 1 ≤ i by omega, show k ≤ i by omega,
          show i - k = i - (k + 1) + 1 by omega]
    · rcases Nat.lt_trichotomy i k with hlt | rfl | hlt
      · simp [hu, show ¬ k + 1 ≤ i by omega, show ¬ k ≤ i by omega, OrdMap.get?_insert, hlt.ne]
      · simp [hu, show ¬ i + 1 ≤ i by omega, filter_some]
      · simp [hu, show k + 1 ≤ i by omega, show k ≤ i by omega,
          show i - k = i - (k + 1) + 1 by omega, OrdMap.get?_insert, hlt.ne']

/-! ## Entries of a view -/

namespace UtxoViewpoint

@[simp] theorem lookupEntry_setEntry (view : UtxoViewpoint) (h h' : Hash) (e : UtxoEntry) :
    (view.setEntry h e).lookupEntry h' = if h' = h then some e else view.lookupEntry h' := by
  unfold lookupEntry setEntry
  by_cases hh : h' = h <;> simp [hh]

theorem get?_addTxOuts_entry (view : UtxoViewpoint) (tx : Tx) (blockHeight blockIndex i : Nat) :
    (addOutputs (view.entryFor tx blockHeight blockIndex).sparseOutputs
        tx.msgTx.txOut.zipIdx).get? i =
      ((tx.msgTx.outputs i).map newOutput).or
        ((view.lookupEntry tx.hash).bind (·.sparseOutputs.get? i)) := by
  rw [get?_addOutputs, if_pos (Nat.zero_le i), Nat.sub_zero]
  unfold entryFor
  cases view.lookupEntry tx.hash <;> rfl

end UtxoViewpoint

/-! ## Where entries come from -/

/-- The outputs of the entry, spent or not, are outputs of the transaction that the hash names. -/
def Genuine (known : Hash → Option MsgTx) (h : Hash) (entry : UtxoEntry) : Prop :=
  ∃ msgTx, known h = some msgTx ∧
    ∀ i o, entry.sparseOutputs.get? i = some o → msgTx.outputs i = some o.txOut

/-- A property of all entries of a view. -/
def UtxoViewpoint.All (P : Hash → UtxoEntry → Prop) (view : UtxoViewpoint) : Prop :=
  ∀ h e, view.lookupEntry h = some e → P h e

section All

variable {P : Hash → UtxoEntry → Prop} {view : UtxoViewpoint}

theorem UtxoViewpoint.All.setEntry (hv : view.All P) {h : Hash} {e : UtxoEntry} (he : P h e) :
    (view.setEntry h e).All P := by
  intro h' e' hl
  rw [lookupEntry_setEntry] at hl
  split_ifs at hl with hh
  · cases hl
    exact hh ▸ he
  · exact hv h' e' hl

theorem UtxoViewpoint.All.addTxOuts (hv : view.All P) {tx : Tx} {blockHeight blockIndex : Nat}
    (hadd : P tx.hash
      { view.entryFor tx blockHeight blockIndex with
        modified := true
        sparseOutputs := addOutputs (view.entryFor tx blockHeight blockIndex).sparseOutputs
          tx.msgTx.txOut.zipIdx }) :
    (view.addTxOuts tx blockHeight blockIndex).All P := hv.setEntry hadd

end All

/-! ## The outputs of a transaction -/

section Genuine

open UtxoViewpoint

variable {view : UtxoViewpoint} {tx : Tx} {blockHeight blockIndex : Nat}
  {known : Hash → Option MsgTx}

/-- The entry of a transaction after `AddTxOuts` has its outputs and no others. -/
theorem get?_addTxOuts_of_genuine (hv : view.All (Genuine known))
    (hk : known tx.hash = some tx.msgTx) (i : Nat) :
    (addOutputs (view.entryFor tx blockHeight blockIndex).sparseOutputs
        tx.msgTx.txOut.zipIdx).get? i = (tx.msgTx.outputs i).map newOutput := by
  rw [get?_addTxOuts_entry]
  cases ho : tx.msgTx.outputs i with
  | some out => rfl
  | none =>
    cases hl : view.lookupEntry tx.hash with
    | none => rfl
    | some e =>
      obtain ⟨msgTx, hk', hout⟩ := hv _ _ hl
      cases hk.symm.trans hk'
      cases hi : e.sparseOutputs.get? i with
      | none => simp [hi]
      | some o =>
        rw [hout i o hi] at ho
        cases ho

theorem UtxoViewpoint.All.addTxOuts_genuine (hv : view.All (Genuine known))
    (hk : known tx.hash = some tx.msgTx) :
    (view.addTxOuts tx blockHeight blockIndex).All (Genuine known) := by
  refine hv.addTxOuts ⟨tx.msgTx, hk, fun i o hi => ?_⟩
  rw [get?_addTxOuts_of_genuine hv hk] at hi
  obtain ⟨out, ho, rfl⟩ := map_eq_some_iff.1 hi
  exact ho

end Genuine

end Fnod
