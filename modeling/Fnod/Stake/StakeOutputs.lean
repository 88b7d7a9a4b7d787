import Fnod.Stake.StakeTx
import Fnod.Txscript.Script

/-!
# The inputs of stake transactions

What `DetermineTxType` says about a transaction fixes the shape of its inputs: a vote has a
stakebase and the input of its ticket (`voteInputs_of_ssgen`), and a revocation has the input of its
ticket alone (`txIn_of_ssrtx`).
-/

namespace Fnod

open Except

variable {tx : MsgTx}

/-- A type other than regular is told by its own check. -/
theorem check_of_determineTxType {txType : TxType} (h : determineTxType tx = .ok txType) :
    (txType = .sstx → checkSStx tx = .ok ()) ∧ (txType = .ssgen → checkSSGen tx = .ok ()) ∧
      (txType = .ssrtx → checkSSRtx tx = .ok ()) := by
  unfold determineTxType at h
  obtain ⟨isSStx, hsstx, h⟩ := bind_eq_ok.1 h
  split_ifs at h with hb
  · cases h
    subst hb
    exact ⟨fun _ => passes_eq_ok_true.1 hsstx, nofun, nofun⟩
  obtain ⟨isSSGen, hssgen, h⟩ := bind_eq_ok.1 h
  split_ifs at h with hb
  · cases h
    subst hb
    exact ⟨nofun, fun _ => passes_eq_ok_true.1 hssgen, nofun⟩
  obtain ⟨isSSRtx, hssrtx, h⟩ := bind_eq_ok.1 h
  cases h
  refine ⟨?_, ?_, fun ht => ?_⟩
  · split_ifs <;> nofun
  · split_ifs <;> nofun
  · split_ifs at ht with hb
    subst hb
    exact passes_eq_ok_true.1 hssrtx

/-! ## Inputs -/

theorem voteInputs_of_ssgen (h : determineTxType tx = .ok .ssgen) :
    ∃ stakebase ticket, VoteInputs tx stakebase ticket := by
  have hcheck := (check_of_determineTxType h).2.1 rfl
  unfold checkSSGen at hcheck
  obtain ⟨_, hin, -⟩ := bind_eq_ok.1 hcheck
  exact ((checkSSGenInputs_safely tx).of_eq_ok hin).1

theorem isVote_of_ssgen (h : determineTxType tx = .ok .ssgen) : IsVote tx := by
  have hcheck := (check_of_determineTxType h).2.1 rfl
  by_cases hlone : LoneReference tx
  · rw [checkSSGen_panics hlone] at hcheck
    cases hcheck
  · exact (checkSSGen_safely hlone).of_eq_ok hcheck

theorem txIn_of_ssrtx (h : determineTxType tx = .ok .ssrtx) : ∃ ticket, tx.txIn = [ticket] := by
  have hcheck := (check_of_determineTxType h).2.2 rfl
  unfold checkSSRtx at hcheck
  obtain ⟨_, hin, -⟩ := bind_eq_ok.1 hcheck
  exact List.length_eq_one_iff.1 (not_not.1 (failIf_eq_ok.1 hin))

end Fnod
