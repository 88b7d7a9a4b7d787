import Mathlib.Algebra.BigOperators.Group.List.Basic
import Fnod.Lib.Buffer
import Fnod.Txscript.Parse
import Fnod.Wire.TxCodec

/-!
# `sighash.go`: what a signature commits to

The hash that is signed is made of the hash type, the hash of a prefix and the hash of a witness.
The prefix is that of the transaction after the hash type has removed or cleared parts of it
(`coveredTx`), the witness has the script at the place of the input that is signed.

**Theorem (`calcSignatureHash_commits`).** The three buffers are filled exactly, and the hash of the
transaction's own prefix can be used for the hash of the prefix. If the hash function has no
collision among the buffers of two signatures with the same hash, then these agree in the hash type,
in all that it covers and in the script; and they sign the same input, unless this is not covered:
for an empty script, or if anyone can pay and not a single output is signed.

The writers are described by what they write (`Slice.Cursor.Writes`), and equal buffers are read
back to equal values (`Codec.Reads`).
-/

namespace Fnod

open Blake256 Codec Except List Slice Wire Wire.MsgTx Wire.TxIn

/-! ## Hash types -/

def sigHashAll : UInt8 := 0x1

def sigHashNone : UInt8 := 0x2

def sigHashSingle : UInt8 := 0x3

def sigHashAnyOneCanPay : UInt8 := 0x80

def sigHashMask : UInt8 := 0x1f

def sigHashSerializePrefix : UInt16 := 1

def sigHashSerializeWitness : UInt16 := 3

/-- `OP_CODESEPARATOR`. -/
def opCodeSeparator : UInt8 := 0xab

/-- Whether a single output is signed. -/
abbrev IsSingle (hashType : UInt8) : Prop := hashType &&& sigHashMask = sigHashSingle

variable (hashType : UInt8) (signTxInIdx : Nat)

/-- Whether no output is signed. -/
abbrev IsNone : Prop := hashType &&& sigHashMask = sigHashNone

/-- Whether anyone can add inputs. -/
abbrev AnyOneCanPay : Prop := hashType &&& sigHashAnyOneCanPay ≠ 0

/-! ## Sizes

`varIntSerializeSize` and `putVarInt` of this package are those of package `wire`. -/

/-- The script of an output that is written. -/
def committedPkScript (signIdx : Nat) (txOut : Wire.TxOut × Nat) : List UInt8 :=
  if IsSingle hashType ∧ txOut.2 ≠ signIdx then [] else txOut.1.pkScript

def sigHashPrefixSerializeSize (txIns : List Wire.TxIn)
    (txOuts : List Wire.TxOut) (signIdx : Nat) : Nat :=
  4 + varIntSerializeSize (UInt64.ofNat txIns.length) + txIns.length * (hashSize + 4 + 1 + 4) +
    varIntSerializeSize (UInt64.ofNat txOuts.length) + txOuts.length * (8 + 2) + 4 + 4 +
    (txOuts.zipIdx.map fun txOut =>
      let pkScript := committedPkScript hashType signIdx txOut
      varIntSerializeSize (UInt64.ofNat pkScript.length) + pkScript.length).sum

def sigHashWitnessSerializeSize (txIns : List Wire.TxIn) (signScript : List UInt8) : Nat :=
  4 + varIntSerializeSize (UInt64.ofNat txIns.length) + txIns.length +
    varIntSerializeSize (UInt64.ofNat signScript.length) + signScript.length - 1

/-! ## The buffers -/

/-- A version with the kind of serialization above it. -/
def sigHashVersion (tx : Wire.MsgTx) (serType : UInt16) : UInt32 :=
  tx.version.toUInt32 ||| serType.toUInt32 <<< 16

/-- The sequence of an input that is written. -/
def committedSequence (txIn : Wire.TxIn × Nat) : UInt32 :=
  if (IsNone hashType ∨ IsSingle hashType) ∧ txIn.2 ≠ signTxInIdx then 0 else txIn.1.sequence

def putTxIn (b : Cursor UInt8) (txIn : Wire.TxIn × Nat) :
    Except (Fault ScriptError) (Cursor UInt8) := do
  let prevOut := txIn.1.previousOutPoint
  let b ← .ok (b.copy prevOut.hash.bytes)
  let b ← b.put (putUint32 prevOut.index)
  let b ← b.put (putUint8 prevOut.tree.toUInt8)
  b.put (putUint32 (committedSequence hashType signTxInIdx txIn))

def putTxOut (idx : Nat) (b : Cursor UInt8) (txOut : Wire.TxOut × Nat) :
    Except (Fault ScriptError) (Cursor UInt8) := do
  let value := if IsSingle hashType ∧ txOut.2 ≠ idx then -1 else txOut.1.value
  let pkScript := committedPkScript hashType idx txOut
  let b ← b.put (putInt64 value)
  let b ← b.put (putUint16 txOut.1.version)
  let b ← b.put (writeVarInt (UInt64.ofNat pkScript.length))
  .ok (b.copy pkScript)

/-- The outputs that are written. -/
def committedOutputs (tx : Wire.MsgTx) (idx : Nat) : Except (Fault ScriptError) (List Wire.TxOut) :=
  if IsNone hashType then .ok []
  else if IsSingle hashType then Slice.slice tx.txOut 0 (idx + 1)
  else .ok tx.txOut

def prefixBuf (hashType : UInt8) (tx : Wire.MsgTx) (idx : Nat) (txIns : List Wire.TxIn)
    (signTxInIdx : Nat) : Except (Fault ScriptError) (Cursor UInt8) := do
  let txOuts ← committedOutputs hashType tx idx
  let b := Cursor.new (sigHashPrefixSerializeSize hashType txIns txOuts idx)
  let b ← b.put (putUint32 (sigHashVersion tx sigHashSerializePrefix))
  let b ← b.put (writeVarInt (UInt64.ofNat txIns.length))
  let b ← txIns.zipIdx.foldlM (putTxIn hashType signTxInIdx) b
  let b ← b.put (writeVarInt (UInt64.ofNat txOuts.length))
  let b ← txOuts.zipIdx.foldlM (putTxOut hashType idx) b
  let b ← b.put (putUint32 tx.lockTime)
  b.put (putUint32 tx.expiry)

def putScript (signScript : List UInt8) (signTxInIdx : Nat) (b : Cursor UInt8)
    (txInIdx : Nat) : Except (Fault ScriptError) (Cursor UInt8) := do
  let commitScript := if txInIdx ≠ signTxInIdx then [] else signScript
  let b ← b.put (writeVarInt (UInt64.ofNat commitScript.length))
  .ok (b.copy commitScript)

def witnessBuf (tx : Wire.MsgTx) (txIns : List Wire.TxIn) (signTxInIdx : Nat)
    (signScript : List UInt8) : Except (Fault ScriptError) (Cursor UInt8) := do
  let b := Cursor.new (sigHashWitnessSerializeSize txIns signScript)
  let b ← b.put (putUint32 (sigHashVersion tx sigHashSerializeWitness))
  let b ← b.put (writeVarInt (UInt64.ofNat txIns.length))
  (List.range txIns.length).foldlM (putScript signScript signTxInIdx) b

def sigHashBuf (hashType : UInt8) (prefixHash witnessHash : Hash) :
    Except (Fault ScriptError) (Cursor UInt8) := do
  let b := Cursor.new (hashSize * 2 + 4)
  let b ← b.put (putUint32 hashType.toUInt32)
  let b ← .ok (b.copy prefixHash.bytes)
  .ok (b.copy witnessHash.bytes)

/-! ## The hash -/

def removeOpcode (pkscript : List ParsedOpcode) (opcode : UInt8) : List ParsedOpcode :=
  pkscript.filter fun pop => pop.opcode ≠ opcode

/-- The script that is signed. An error of `unparseScript` is dropped. -/
def signScript (prevOutScript : List ParsedOpcode) : Except (Fault ScriptError) (List UInt8) :=
  match unparseScript (removeOpcode prevOutScript opCodeSeparator) with
  | .ok script => .ok script
  | .error (.err _) => .ok []
  | .error .panic => .error .panic

/-- The inputs that are written, and the place of the one that is signed. -/
def committedInputs (hashType : UInt8) (tx : Wire.MsgTx) (idx : Nat) :
    Except (Fault ScriptError) (List Wire.TxIn × Nat) :=
  if AnyOneCanPay hashType then do
    let txIns ← Slice.slice tx.txIn idx (idx + 1)
    .ok (txIns, 0)
  else .ok (tx.txIn, idx)

section Calc

variable [Blake256]

/-- The hash of the prefix, or the one that was passed. -/
def prefixHash (sigHashOptimization : Bool) (hashType : UInt8) (tx : Wire.MsgTx) (idx : Nat)
    (txIns : List Wire.TxIn) (signTxInIdx : Nat) (cachedPrefix : Option Hash) :
    Except (Fault ScriptError) Hash :=
  let computed := do
    let b ← prefixBuf hashType tx idx txIns signTxInIdx
    .ok (Blake256.hashH (b.slice 0))
  match cachedPrefix with
  | some cached =>
    if sigHashOptimization = true ∧ hashType &&& sigHashMask = sigHashAll ∧
        ¬AnyOneCanPay hashType then
      .ok cached
    else computed
  | none => computed

def calcSignatureHash (sigHashOptimization : Bool) (prevOutScript : List ParsedOpcode)
    (hashType : UInt8) (tx : Wire.MsgTx) (idx : Nat) (cachedPrefix : Option Hash) :
    Except (Fault ScriptError) (List UInt8) :=
  if IsSingle hashType ∧ tx.txOut.length ≤ idx then .error (.err .invalidSigHashSingleIndex)
  else do
    let signScript ← signScript prevOutScript
    let (txIns, signTxInIdx) ← committedInputs hashType tx idx
    let prefixHash ← prefixHash sigHashOptimization hashType tx idx txIns signTxInIdx cachedPrefix
    let witness ← witnessBuf tx txIns signTxInIdx signScript
    let b ← sigHashBuf hashType prefixHash (Blake256.hashH (witness.slice 0))
    .ok (hashB (b.slice 0))

end Calc

/-! ## What is covered -/

/-- The inputs that a hash type covers: without their witnesses, all of them, or the one that is
signed. Unless all outputs are signed, only the sequence of the signed input counts. -/
def coveredIns (hashType : UInt8) (txIn : List Wire.TxIn) (idx : Nat) : List Wire.TxIn :=
  if AnyOneCanPay hashType then (txIn.drop idx).head?.toList.map Wire.TxIn.prefixPart
  else txIn.zipIdx.map fun (t, i) =>
    { t.prefixPart with
      sequence := if (IsNone hashType ∨ IsSingle hashType) ∧ i ≠ idx then 0 else t.sequence }

/-- The outputs that a hash type covers: all of them, none, or the one at the index that is signed
and the versions of those before it. -/
def coveredOuts (hashType : UInt8) (txOut : List Wire.TxOut) (idx : Nat) : List Wire.TxOut :=
  if IsNone hashType then []
  else if IsSingle hashType then
    (txOut.take (idx + 1)).zipIdx.map fun (t, i) => if i = idx then t else ⟨-1, t.version, []⟩
  else txOut

/-- The scripts in the witness. -/
def coveredScripts (numTxIns idx : Nat) (script : List UInt8) : List (List UInt8) :=
  if AnyOneCanPay hashType then [script]
  else (List.range numTxIns).map fun i => if i = idx then script else []

/-- The transaction whose prefix is signed. -/
def coveredTx (hashType : UInt8) (tx : Wire.MsgTx) (idx : Nat) : Wire.MsgTx where
  serType := sigHashSerializePrefix
  version := tx.version
  txIn := coveredIns hashType tx.txIn idx
  txOut := coveredOuts hashType tx.txOut idx
  lockTime := tx.lockTime
  expiry := tx.expiry

def prefixBytes (hashType : UInt8) (tx : Wire.MsgTx) (idx : Nat) : List UInt8 :=
  putUint32 (sigHashVersion tx sigHashSerializePrefix) ++ (coveredTx hashType tx idx).encodePrefix

theorem prefixBytes_eq (hashType : UInt8) (tx : Wire.MsgTx) (idx : Nat) :
    prefixBytes hashType tx idx = putUint32 (coveredTx hashType tx idx).serializedVersion ++
      (coveredTx hashType tx idx).encodePrefix := rfl

def witnessBytes (hashType : UInt8) (tx : Wire.MsgTx) (idx : Nat) (script : List UInt8) :
    List UInt8 :=
  putUint32 (sigHashVersion tx sigHashSerializeWitness) ++
    writeList writeVarBytes (coveredScripts hashType tx.txIn.length idx script)

/-- The bytes of the buffer that is hashed at last. -/
def sigHashBytes (hashType : UInt8) (prefixHash witnessHash : Hash) : List UInt8 :=
  putUint32 hashType.toUInt32 ++ (prefixHash.bytes ++ witnessHash.bytes)

/-! ## The buffers are filled -/

section Buffers

variable {hashType : UInt8} {tx : Wire.MsgTx} {idx k : Nat} {txIns : List Wire.TxIn}
  {txOuts : List Wire.TxOut} {script : List UInt8}

def maskIn (hashType : UInt8) (k : Nat) (t : Wire.TxIn × Nat) : Wire.TxIn :=
  { t.1.prefixPart with sequence := committedSequence hashType k t }

def maskOut (hashType : UInt8) (idx : Nat) (t : Wire.TxOut × Nat) : Wire.TxOut :=
  ⟨if IsSingle hashType ∧ t.2 ≠ idx then -1 else t.1.value, t.1.version,
    committedPkScript hashType idx t⟩

theorem writes_putTxIn (hashType : UInt8) (k : Nat) (t : Wire.TxIn × Nat) :
    Cursor.Writes (fun c => putTxIn hashType k c t) (writeTxInPrefix (maskIn hashType k t)) := by
  have hwrites := (Cursor.Writes.copy t.1.previousOutPoint.hash.bytes).bind
    ((Cursor.Writes.put (putUint32 t.1.previousOutPoint.index)).bind
      ((Cursor.Writes.put (putUint8 t.1.previousOutPoint.tree.toUInt8)).bind
        (Cursor.Writes.put (ε := ScriptError) (putUint32 (committedSequence hashType k t)))))
  have hbytes : writeTxInPrefix (maskIn hashType k t) = t.1.previousOutPoint.hash.bytes ++
      (putUint32 t.1.previousOutPoint.index ++ (putUint8 t.1.previousOutPoint.tree.toUInt8 ++
        putUint32 (committedSequence hashType k t))) := by
    simp [writeTxInPrefix, writeOutPoint, maskIn, prefixPart, withWitness]
  rw [hbytes]
  exact hwrites

theorem writes_putTxOut (hashType : UInt8) (idx : Nat) (t : Wire.TxOut × Nat) :
    Cursor.Writes (fun c => putTxOut hashType idx c t) (writeTxOut (maskOut hashType idx t)) :=
  (Cursor.Writes.put _).bind ((Cursor.Writes.put _).bind ((Cursor.Writes.put _).bind
    (Cursor.Writes.copy _)))

theorem writes_putScript (script : List UInt8) (k i : Nat) :
    Cursor.Writes (fun c => putScript script k c i)
      (writeVarBytes (if i ≠ k then [] else script)) :=
  (Cursor.Writes.put _).bind (Cursor.Writes.copy _)

theorem writes_list {α β : Type} {f : Cursor UInt8 → α → Except (Fault ScriptError) (Cursor UInt8)}
    {put : β → List UInt8} {g : α → β} {l : List α} {n : Nat} (hn : l.length = n)
    (h : ∀ a, Cursor.Writes (fun c => f c a) (put (g a))) :
    Cursor.Writes (fun c => c.put (writeVarInt (UInt64.ofNat n)) >>= fun c => l.foldlM f c)
      (writeList put (l.map g)) := by
  rw [writeList, length_map, flatMap_map, hn]
  exact (Cursor.Writes.put _).bind (.foldlM fun a _ => h a)

theorem length_maskIns (hashType : UInt8) (k : Nat) (txIns : List Wire.TxIn) :
    (writeList writeTxInPrefix (txIns.zipIdx.map (maskIn hashType k))).length =
      varIntSerializeSize (UInt64.ofNat txIns.length) + txIns.length * (hashSize + 4 + 1 + 4) := by
  have hin : ∀ ti, (writeTxInPrefix ti).length = hashSize + 4 + 1 + 4 := by
    intro ti
    simp [writeTxInPrefix, writeOutPoint, putUint8, putUint32, ti.previousOutPoint.hash.size]
  have hconst : (fun _ : Wire.TxIn => hashSize + 4 + 1 + 4) ∘ maskIn hashType k =
      fun _ => hashSize + 4 + 1 + 4 := rfl
  rw [length_writeList hin, map_map, hconst]
  simp

theorem length_maskOuts (hashType : UInt8) (idx : Nat) (txOuts : List Wire.TxOut) :
    (writeList writeTxOut (txOuts.zipIdx.map (maskOut hashType idx))).length =
      varIntSerializeSize (UInt64.ofNat txOuts.length) + txOuts.length * (8 + 2) +
        (txOuts.zipIdx.map fun txOut =>
          varIntSerializeSize (UInt64.ofNat (committedPkScript hashType idx txOut).length) +
            (committedPkScript hashType idx txOut).length).sum := by
  have hout : ∀ o, (writeTxOut o).length =
      8 + 2 + (varIntSerializeSize (UInt64.ofNat o.pkScript.length) + o.pkScript.length) := by
    intro o
    simp [writeTxOut, putInt64, putUint16, putUint64]
    omega
  rw [length_writeList hout, map_map, length_map, length_zipIdx]
  simp only [Function.comp_def, maskOut, sum_map_add, map_const', sum_replicate_nat,
    length_zipIdx]
  omega

/-- **The prefix is filled exactly.** -/
theorem prefixBuf_eq (h : committedOutputs hashType tx idx = .ok txOuts) :
    prefixBuf hashType tx idx txIns k = .ok
      ⟨putUint32 (sigHashVersion tx sigHashSerializePrefix) ++
        (writeList writeTxInPrefix (txIns.zipIdx.map (maskIn hashType k)) ++
          (writeList writeTxOut (txOuts.zipIdx.map (maskOut hashType idx)) ++
            (putUint32 tx.lockTime ++ putUint32 tx.expiry))), 0⟩ := by
  have hins := writes_list (l := txIns.zipIdx) length_zipIdx (writes_putTxIn hashType k)
  have houts := writes_list (l := txOuts.zipIdx) length_zipIdx (writes_putTxOut hashType idx)
  have hwrites := (Cursor.Writes.put (putUint32 (sigHashVersion tx sigHashSerializePrefix))).bind
    (hins.bind (houts.bind ((Cursor.Writes.put (putUint32 tx.lockTime)).bind
      (Cursor.Writes.put (putUint32 tx.expiry)))))
  rw [prefixBuf, h]
  refine Eq.trans ?_ (hwrites.fills (?_ : sigHashPrefixSerializeSize hashType txIns txOuts idx = _))
  · simp only [bind_assoc]
    rfl
  · simp only [length_append, length_maskIns, length_maskOuts, sigHashPrefixSerializeSize,
      putUint32, Bytes.length_putLE]
    omega

theorem sum_range_ite (k s n : Nat) :
    ((List.range n).map fun i => if i ≠ k then 1 else s).sum = if k < n then n + s - 1 else n := by
  induction n with
  | zero => rfl
  | succ n ih =>
    rw [range_succ, map_append, sum_append, ih]
    simp only [map_cons, map_nil, sum_cons, sum_nil]
    split_ifs <;> omega

/-- **The witness is filled exactly**, if the signed input is one of the inputs. -/
theorem witnessBuf_eq (hk : k < txIns.length) : witnessBuf tx txIns k script = .ok
      ⟨putUint32 (sigHashVersion tx sigHashSerializeWitness) ++ writeList writeVarBytes
        ((List.range txIns.length).map fun i => if i ≠ k then [] else script), 0⟩ := by
  have hscripts := writes_list (l := List.range txIns.length) length_range
    (writes_putScript script k)
  have hwrites := (Cursor.Writes.put
    (putUint32 (sigHashVersion tx sigHashSerializeWitness))).bind hscripts
  have hsum : ((List.range txIns.length).map fun i =>
      varIntSerializeSize (UInt64.ofNat (if i ≠ k then [] else script).length) +
        (if i ≠ k then [] else script).length).sum =
      txIns.length + (varIntSerializeSize (UInt64.ofNat script.length) + script.length) - 1 := by
    have hsum := sum_range_ite k (varIntSerializeSize (UInt64.ofNat script.length) + script.length)
      txIns.length
    rw [if_pos hk] at hsum
    rw [← hsum]
    refine congrArg List.sum (map_congr_left fun i _ => ?_)
    split_ifs <;> rfl
  rw [witnessBuf]
  refine hwrites.fills (?_ : sigHashWitnessSerializeSize txIns script = _)
  rw [length_append, length_writeList length_writeVarBytes, map_map, length_map, length_range]
  simp only [Function.comp_def, hsum, sigHashWitnessSerializeSize, putUint32, Bytes.length_putLE]
  omega

theorem sigHashBuf_eq (prefixHash witnessHash : Hash) : sigHashBuf hashType prefixHash witnessHash =
      .ok ⟨sigHashBytes hashType prefixHash witnessHash, 0⟩ := by
  have hwrites := (Cursor.Writes.put (ε := ScriptError) (putUint32 hashType.toUInt32)).bind
    ((Cursor.Writes.copy prefixHash.bytes).bind (Cursor.Writes.copy witnessHash.bytes))
  refine hwrites.fills (?_ : hashSize * 2 + 4 = _)
  simp only [length_append, prefixHash.size, witnessHash.size, putUint32, Bytes.length_putLE]
  omega

/-! ## What is written is what is covered -/

theorem committedInputs_eq (hashType : UInt8) (script : List UInt8) (hidx : idx < tx.txIn.length) :
    ∃ txIns k, committedInputs hashType tx idx = .ok (txIns, k) ∧ k < txIns.length ∧
      txIns.zipIdx.map (maskIn hashType k) = coveredIns hashType tx.txIn idx ∧
      ((List.range txIns.length).map fun i => if i ≠ k then [] else script) =
        coveredScripts hashType tx.txIn.length idx script := by
  unfold committedInputs coveredIns coveredScripts
  by_cases hpay : AnyOneCanPay hashType
  · have hdrop := drop_eq_getElem_cons hidx
    have hslice : (Slice.slice tx.txIn idx (idx + 1) : Except (Fault ScriptError) _) =
        .ok [tx.txIn[idx]] := by
      rw [Slice.slice_eq (Nat.le_succ idx) hidx, drop_take, hdrop, show idx.succ - idx = 1 by omega]
      rfl
    have hmask : maskIn hashType 0 (tx.txIn[idx], 0) = tx.txIn[idx].prefixPart := by
      simp [maskIn, committedSequence, prefixPart, withWitness]
    rw [if_pos hpay, if_pos hpay, if_pos hpay, hslice, hdrop]
    exact ⟨[tx.txIn[idx]], 0, rfl, Nat.one_pos, congrArg (fun t => [t]) hmask, rfl⟩
  · rw [if_neg hpay, if_neg hpay, if_neg hpay]
    refine ⟨tx.txIn, idx, rfl, hidx, rfl, map_congr_left fun i _ => ?_⟩
    by_cases hi : i = idx
    · rw [if_pos hi, if_neg (not_not_intro hi)]
    · rw [if_neg hi, if_pos hi]

theorem committedOutputs_eq (hsingle : IsSingle hashType → idx < tx.txOut.length) :
    ∃ txOuts, committedOutputs hashType tx idx = .ok txOuts ∧
      txOuts.zipIdx.map (maskOut hashType idx) = coveredOuts hashType tx.txOut idx := by
  unfold committedOutputs coveredOuts
  by_cases hnone : IsNone hashType
  · rw [if_pos hnone, if_pos hnone]
    exact ⟨[], rfl, rfl⟩
  rw [if_neg hnone, if_neg hnone]
  split_ifs with hs
  · rw [Slice.slice_eq (Nat.zero_le _) (hsingle hs)]
    refine ⟨_, rfl, map_congr_left fun ⟨t, i⟩ _ => ?_⟩
    by_cases hi : i = idx
    · simp [maskOut, committedPkScript, hi]
    · simp [maskOut, committedPkScript, hi, hs]
  · refine ⟨tx.txOut, rfl, ?_⟩
    have hfst : maskOut hashType idx = Prod.fst := by
      funext t
      simp [maskOut, committedPkScript, hs]
    rw [hfst, zipIdx_map_fst]

end Buffers

/-! ## Reading back

The readers have no limits, other than those of the protocol. -/

section Reading

/-- A byte string of any length. -/
def readVarBytes : Reader (List UInt8) := do
  let count ← readVarInt
  bytes count.toNat

theorem reads_varBytes {b : List UInt8} (h : b.length < 2 ^ 64) :
    Reads readVarBytes (writeVarBytes b) b :=
  (reads_varInt _).bind (.bytes (UInt64.toNat_ofNat_of_lt' h).symm)

/-- An output with a script of any length. -/
def readOutput : Reader Wire.TxOut := do
  let value ← int64
  let version ← uint16
  let pkScript ← readVarBytes
  pure ⟨value, version, pkScript⟩

theorem reads_output {o : Wire.TxOut} (h : o.pkScript.length < 2 ^ 64) :
    Reads readOutput (writeTxOut o) o :=
  (Reads.int64 _).bind ((Reads.uint16 _).bind ((reads_varBytes h).map _))

/-- A prefix of any size. -/
def readPrefix : Reader Wire.MsgTx := do
  let version ← uint32
  let txIn ← readList (0 - 1) (readTxInPrefix txSerializeNoWitness)
  let txOut ← readList (0 - 1) readOutput
  let lockTime ← uint32
  let expiry ← uint32
  pure { (default : Wire.MsgTx).setVersion version with txIn, txOut, lockTime, expiry }

theorem length_le_max {n : Nat} (h : n < 2 ^ 64) : n ≤ (0 - 1 : UInt64).toNat :=
  Nat.le_of_lt_succ h

theorem reads_prefixPart {tx : Wire.MsgTx} (hin : tx.txIn.length < 2 ^ 64)
    (hpre : ∀ t ∈ tx.txIn, t.prefixPart = t) (hout : tx.txOut.length < 2 ^ 64)
    (hscripts : ∀ o ∈ tx.txOut, o.pkScript.length < 2 ^ 64) :
    Reads readPrefix (putUint32 tx.serializedVersion ++ tx.encodePrefix) tx := by
  have hins : ∀ t ∈ tx.txIn, Reads (readTxInPrefix txSerializeNoWitness) (writeTxInPrefix t) t := by
    intro t ht
    have hread : Reads (readTxInPrefix txSerializeNoWitness) (writeTxInPrefix t) t.prefixPart :=
      reads_txInPrefix (by decide) t
    rwa [hpre t ht] at hread
  have hread : Reads readPrefix (putUint32 tx.serializedVersion ++ tx.encodePrefix)
      { (default : Wire.MsgTx).setVersion tx.serializedVersion with
        txIn := tx.txIn, txOut := tx.txOut, lockTime := tx.lockTime, expiry := tx.expiry } :=
    (Reads.uint32 _).bind ((reads_list (length_le_max hin) hins).bind
      ((reads_list (length_le_max hout) fun o ho => reads_output (hscripts o ho)).bind
        ((Reads.uint32 _).bind ((Reads.uint32 _).map _))))
  rw [setVersion_serializedVersion] at hread
  exact hread

end Reading

/-! ## Signatures -/

/-- The arguments of `calcSignatureHash`: an input of a transaction is signed, and the sizes are
those of slices. -/
structure Signing where
  prevOutScript : List ParsedOpcode
  hashType : UInt8
  tx : Wire.MsgTx
  idx : Nat
  script : List UInt8
  script_eq : signScript prevOutScript = .ok script
  idx_lt : idx < tx.txIn.length
  script_lt : script.length < 2 ^ 64
  txIn_lt : tx.txIn.length < 2 ^ 64
  txOut_lt : tx.txOut.length < 2 ^ 64
  pkScript_lt : ∀ txOut ∈ tx.txOut, txOut.pkScript.length < 2 ^ 64

namespace Signing

/-- There is an output to sign. -/
def HasOutput (s : Signing) : Prop := IsSingle s.hashType → s.idx < s.tx.txOut.length

/-- All buffers are filled exactly. -/
def FillsBuffers (s : Signing) : Prop :=
  ∃ txIns k, committedInputs s.hashType s.tx s.idx = .ok (txIns, k) ∧
    (∃ b, prefixBuf s.hashType s.tx s.idx txIns k = .ok ⟨b, 0⟩) ∧
    (∃ b, witnessBuf s.tx txIns k s.script = .ok ⟨b, 0⟩) ∧
    ∀ prefixHash witnessHash, ∃ b, sigHashBuf s.hashType prefixHash witnessHash = .ok ⟨b, 0⟩

variable (s : Signing)

theorem fills (h : s.HasOutput) :
    ∃ txIns k, committedInputs s.hashType s.tx s.idx = .ok (txIns, k) ∧
      prefixBuf s.hashType s.tx s.idx txIns k =
        .ok ⟨prefixBytes s.hashType s.tx s.idx, 0⟩ ∧
      witnessBuf s.tx txIns k s.script =
        .ok ⟨witnessBytes s.hashType s.tx s.idx s.script, 0⟩ := by
  obtain ⟨txIns, k, hin, hk, hmask, hscripts⟩ := committedInputs_eq s.hashType s.script s.idx_lt
  obtain ⟨txOuts, hout, hmaskOut⟩ := committedOutputs_eq h
  refine ⟨txIns, k, hin, ?_, ?_⟩
  · rw [prefixBuf_eq hout, hmask, hmaskOut]
    rfl
  · rw [witnessBuf_eq hk, hscripts]
    rfl

theorem fillsBuffers (h : s.HasOutput) : s.FillsBuffers := by
  obtain ⟨txIns, k, hin, hpre, hwitness⟩ := s.fills h
  exact ⟨txIns, k, hin, ⟨_, hpre⟩, ⟨_, hwitness⟩, fun _ _ => ⟨_, sigHashBuf_eq _ _⟩⟩

section Hash

variable [Blake256]

/-- `calcSignatureHash` for the signature. -/
def sigHash (s : Signing) (sigHashOptimization : Bool) (cachedPrefix : Option Hash) :
    Except (Fault ScriptError) (List UInt8) :=
  calcSignatureHash sigHashOptimization s.prevOutScript s.hashType s.tx s.idx cachedPrefix

/-- The bytes that are hashed at last. -/
def message (s : Signing) : List UInt8 :=
  sigHashBytes s.hashType (Blake256.hashH (prefixBytes s.hashType s.tx s.idx))
    (Blake256.hashH (witnessBytes s.hashType s.tx s.idx s.script))

/-- All that is hashed for the signature. -/
def hashed (s : Signing) : List (List UInt8) :=
  [prefixBytes s.hashType s.tx s.idx, witnessBytes s.hashType s.tx s.idx s.script, s.message]

/-- If all outputs and inputs are signed, the prefix is that of the transaction. -/
theorem hashH_prefixBytes {hashType : UInt8} (tx : Wire.MsgTx) (idx : Nat)
    (hall : hashType &&& sigHashMask = sigHashAll) (hpay : ¬AnyOneCanPay hashType) :
    hashH (prefixBytes hashType tx idx) = tx.txHash := by
  have hnone : ¬IsNone hashType := fun h => absurd (hall.symm.trans h) (by decide)
  have hsingle : ¬IsSingle hashType := fun h => absurd (hall.symm.trans h) (by decide)
  have hcovered : coveredIns hashType tx.txIn idx =
      (tx.txIn.zipIdx.map Prod.fst).map prefixPart := by
    rw [coveredIns, if_neg hpay, map_map]
    refine map_congr_left fun ⟨t, i⟩ _ => ?_
    simp [hnone, hsingle, prefixPart, withWitness]
  have hins : writeList writeTxInPrefix (coveredIns hashType tx.txIn idx) =
      writeList writeTxInPrefix tx.txIn := by
    rw [hcovered, zipIdx_map_fst, writeList, length_map, flatMap_map]
    rfl
  have houts : coveredOuts hashType tx.txOut idx = tx.txOut := by
    rw [coveredOuts, if_neg hnone, if_neg hsingle]
  have hencode : (coveredTx hashType tx idx).encodePrefix = tx.encodePrefix := by
    simp only [encodePrefix, coveredTx, hins, houts]
  rw [prefixBytes, hencode]
  rfl

variable {cachedPrefix : Option Hash}

theorem prefixHash_eq {hashType : UInt8} {tx : Wire.MsgTx} {idx k : Nat} {txIns : List Wire.TxIn}
    (sigHashOptimization : Bool)
    (h : prefixBuf hashType tx idx txIns k = .ok ⟨prefixBytes hashType tx idx, 0⟩)
    (hcached : cachedPrefix = none ∨ cachedPrefix = some tx.txHash) :
    prefixHash sigHashOptimization hashType tx idx txIns k cachedPrefix =
      .ok (hashH (prefixBytes hashType tx idx)) := by
  have hcomputed : (prefixBuf hashType tx idx txIns k >>= fun b =>
      (.ok (hashH (b.slice 0)) : Except (Fault ScriptError) Hash)) =
        .ok (hashH (prefixBytes hashType tx idx)) := by
    rw [h]
    exact congrArg (fun b => Except.ok (hashH b)) (append_nil _)
  unfold prefixHash
  rcases hcached with rfl | rfl
  · exact hcomputed
  · dsimp only
    split_ifs with hall
    · rw [hashH_prefixBytes tx idx hall.2.1 hall.2.2]
    · exact hcomputed

theorem sigHash_eq (s : Signing) (h : s.HasOutput) (sigHashOptimization : Bool)
    (hcached : cachedPrefix = none ∨ cachedPrefix = some s.tx.txHash) :
    s.sigHash sigHashOptimization cachedPrefix = .ok (hashB s.message) := by
  obtain ⟨txIns, k, hin, hpre, hwitness⟩ := s.fills h
  have hhash := prefixHash_eq sigHashOptimization hpre hcached
  have hout : ¬(IsSingle s.hashType ∧ s.tx.txOut.length ≤ s.idx) := fun hs =>
    absurd (h hs.1) (not_lt.2 hs.2)
  rw [sigHash, calcSignatureHash, if_neg hout, s.script_eq]
  have hslice : ∀ b : List UInt8, (Cursor.mk b 0).slice 0 = b := fun b => append_nil b
  simp only [Except.ok_bind, hin, hhash, hwitness, sigHashBuf_eq, hslice]
  rfl

theorem hasOutput_of_ok {s : Signing} {sigHashOptimization : Bool} {h : List UInt8}
    (hok : s.sigHash sigHashOptimization cachedPrefix = .ok h) : s.HasOutput := by
  intro hsingle
  by_contra hlt
  rw [sigHash, calcSignatureHash, if_pos ⟨hsingle, not_lt.1 hlt⟩] at hok
  cases hok

end Hash

/-! ## Commitment -/

theorem prefixPart_of_mem {t : Wire.TxIn}
    (ht : t ∈ coveredIns s.hashType s.tx.txIn s.idx) : t.prefixPart = t := by
  unfold coveredIns at ht
  split_ifs at ht
  · obtain ⟨u, -, rfl⟩ := mem_map.1 ht
    rfl
  · obtain ⟨u, -, rfl⟩ := mem_map.1 ht
    rfl

theorem length_coveredIns : (coveredIns s.hashType s.tx.txIn s.idx).length < 2 ^ 64 := by
  unfold coveredIns
  split_ifs
  · cases (s.tx.txIn.drop s.idx).head? with
    | none => exact Nat.two_pow_pos 64
    | some t => exact Nat.one_lt_two_pow (by decide)
  · rw [length_map, length_zipIdx]
    exact s.txIn_lt

theorem length_coveredOuts : (coveredOuts s.hashType s.tx.txOut s.idx).length < 2 ^ 64 := by
  have hlt := s.txOut_lt
  unfold coveredOuts
  split_ifs
  · decide
  · rw [length_map, length_zipIdx, length_take]
    omega
  · exact hlt

theorem pkScript_coveredOuts :
    ∀ o ∈ coveredOuts s.hashType s.tx.txOut s.idx, o.pkScript.length < 2 ^ 64 := by
  intro o ho
  unfold coveredOuts at ho
  split_ifs at ho
  · cases ho
  · obtain ⟨⟨u, i⟩, hu, rfl⟩ := mem_map.1 ho
    dsimp only
    split_ifs
    · exact s.pkScript_lt u (mem_of_mem_take (fst_mem_of_mem_zipIdx hu))
    · exact Nat.two_pow_pos 64
  · exact s.pkScript_lt o ho

variable {s s' : Signing}

/-- The prefix tells all that it covers. -/
theorem coveredTx_eq_of_prefixBytes
    (h : prefixBytes s.hashType s.tx s.idx = prefixBytes s'.hashType s'.tx s'.idx) :
    coveredTx s.hashType s.tx s.idx = coveredTx s'.hashType s'.tx s'.idx := by
  have hreads : ∀ s : Signing,
      Reads readPrefix (prefixBytes s.hashType s.tx s.idx) (coveredTx s.hashType s.tx s.idx) := by
    intro s
    rw [prefixBytes_eq]
    exact @reads_prefixPart (coveredTx s.hashType s.tx s.idx) s.length_coveredIns
      (fun _ => s.prefixPart_of_mem) s.length_coveredOuts s.pkScript_coveredOuts
  exact (hreads s).unique (h ▸ hreads s')

theorem reads_witness : Reads (uint32 >>= fun _ => readList (0 - 1) readVarBytes)
      (witnessBytes s.hashType s.tx s.idx s.script)
      (coveredScripts s.hashType s.tx.txIn.length s.idx s.script) := by
  have hlength : (coveredScripts s.hashType s.tx.txIn.length s.idx s.script).length < 2 ^ 64 := by
    unfold coveredScripts
    split_ifs
    · exact Nat.one_lt_two_pow (by decide)
    · rw [length_map, length_range]
      exact s.txIn_lt
  have hscripts : ∀ b ∈ coveredScripts s.hashType s.tx.txIn.length s.idx s.script,
      b.length < 2 ^ 64 := by
    intro b hb
    unfold coveredScripts at hb
    split_ifs at hb
    · rw [mem_singleton.1 hb]
      exact s.script_lt
    · obtain ⟨i, -, rfl⟩ := mem_map.1 hb
      split_ifs
      · exact s.script_lt
      · decide
  exact (Reads.uint32 _).bind
    (reads_list (length_le_max hlength) fun b hb => reads_varBytes (hscripts b hb))

/-- The witness tells the script, and its place if there are other inputs and it is not empty. -/
theorem script_eq_of_witnessBytes (htype : s.hashType = s'.hashType)
    (h : witnessBytes s.hashType s.tx s.idx s.script =
      witnessBytes s'.hashType s'.tx s'.idx s'.script) :
    s.script = s'.script ∧ (¬AnyOneCanPay s.hashType → s.script ≠ [] → s.idx = s'.idx) := by
  have heq := s.reads_witness.unique (h ▸ s'.reads_witness)
  unfold coveredScripts at heq
  rw [← htype] at heq
  by_cases hpay : AnyOneCanPay s.hashType
  · rw [if_pos hpay, if_pos hpay] at heq
    exact ⟨(List.cons.inj heq).1, fun hnot => absurd hpay hnot⟩
  rw [if_neg hpay, if_neg hpay] at heq
  have hlen : s.tx.txIn.length = s'.tx.txIn.length := by
    have hlen := congrArg List.length heq
    rwa [length_map, length_map, length_range, length_range] at hlen
  have hat : ∀ i < s.tx.txIn.length, (if i = s.idx then s.script else []) =
      if i = s'.idx then s'.script else [] := by
    intro i hi
    have hi' := congrArg (fun l => l[i]?) heq
    simpa [List.getElem?_map, List.getElem?_range, hi, hlen ▸ hi] using hi'
  have hfirst := hat s.idx s.idx_lt
  have hsecond := hat s'.idx (hlen ▸ s'.idx_lt)
  rw [if_pos rfl] at hfirst
  rw [if_pos rfl] at hsecond
  split_ifs at hfirst with hidx
  · exact ⟨hfirst, fun _ _ => hidx⟩
  · rw [if_neg (Ne.symm hidx)] at hsecond
    exact ⟨hfirst.trans hsecond, fun _ hne => absurd hfirst hne⟩

/-- Two signatures agree in all that is covered. -/
structure CommitsAlike (s s' : Signing) : Prop where
  hashType_eq : s.hashType = s'.hashType
  version_eq : s.tx.version = s'.tx.version
  lockTime_eq : s.tx.lockTime = s'.tx.lockTime
  expiry_eq : s.tx.expiry = s'.tx.expiry
  ins_eq : coveredIns s.hashType s.tx.txIn s.idx = coveredIns s.hashType s'.tx.txIn s'.idx
  outs_eq : coveredOuts s.hashType s.tx.txOut s.idx = coveredOuts s.hashType s'.tx.txOut s'.idx
  script_eq : s.script = s'.script
  idx_eq : IsSingle s.hashType ∨ (¬AnyOneCanPay s.hashType ∧ s.script ≠ []) → s.idx = s'.idx

theorem CommitsAlike.of_bytes (htype : s.hashType = s'.hashType)
    (hpre : prefixBytes s.hashType s.tx s.idx = prefixBytes s'.hashType s'.tx s'.idx)
    (hwitness : witnessBytes s.hashType s.tx s.idx s.script =
      witnessBytes s'.hashType s'.tx s'.idx s'.script)
    (h : s.HasOutput) (h' : s'.HasOutput) : s.CommitsAlike s' := by
  have htx := coveredTx_eq_of_prefixBytes hpre
  obtain ⟨hscript, hplace⟩ := script_eq_of_witnessBytes htype hwitness
  have hversion := congrArg version htx
  have hlockTime := congrArg lockTime htx
  have hexpiry := congrArg expiry htx
  have hins := congrArg txIn htx
  have houts := congrArg txOut htx
  simp only [coveredTx, ← htype] at hins houts
  refine ⟨htype, hversion, hlockTime, hexpiry, hins, houts, hscript, ?_⟩
  rintro (hsingle | ⟨hpay, hne⟩)
  · -- the number of outputs tells the index
    have hnone : ¬IsNone s.hashType := fun hn => absurd (hsingle.symm.trans hn) (by decide)
    have hlt := h hsingle
    have hlt' := h' (htype ▸ hsingle)
    have hlen := congrArg List.length houts
    simp only [coveredOuts, if_neg hnone, if_pos hsingle, length_map, length_zipIdx,
      length_take] at hlen
    omega
  · exact hplace hpay hne

end Signing

theorem sigHashBytes_inj {hashType hashType' : UInt8} {p p' w w' : Hash}
    (h : sigHashBytes hashType p w = sigHashBytes hashType' p' w') :
    hashType = hashType' ∧ p = p' ∧ w = w' := by
  obtain ⟨htype, hrest⟩ := append_inj h (by simp [putUint32])
  obtain ⟨hp, hw⟩ := append_inj hrest (p.size.trans p'.size.symm)
  have htype' := (Reads.uint32 hashType.toUInt32).unique (htype ▸ Reads.uint32 hashType'.toUInt32)
  refine ⟨UInt8.toNat_inj.1 ?_, Hash.ext_bytes hp, Hash.ext_bytes hw⟩
  rw [← UInt8.toNat_toUInt32, ← UInt8.toNat_toUInt32, htype']

section Commits

variable [Blake256]

/-- The hash function tells the byte strings apart. -/
def TellsApart (bs : List (List UInt8)) : Prop :=
  ∀ x ∈ bs, ∀ y ∈ bs, Blake256.hashH x = Blake256.hashH y → x = y

/-- **A signature hash commits to what it covers.** -/
theorem calcSignatureHash_commits (s : Signing) (sigHashOptimization : Bool) :
    (s.HasOutput → s.FillsBuffers) ∧
    s.sigHash sigHashOptimization (some s.tx.txHash) = s.sigHash sigHashOptimization none ∧
    ∀ (s' : Signing) (hash : List UInt8), TellsApart (s.hashed ++ s'.hashed) →
      s.sigHash sigHashOptimization none = .ok hash →
      s'.sigHash sigHashOptimization none = .ok hash → s.CommitsAlike s' := by
  refine ⟨s.fillsBuffers, ?_, ?_⟩
  · by_cases h : s.HasOutput
    · rw [s.sigHash_eq h _ (.inr rfl), s.sigHash_eq h _ (.inl rfl)]
    · obtain ⟨hsingle, hlt⟩ := Classical.not_imp.1 h
      rw [Signing.sigHash, Signing.sigHash, calcSignatureHash, calcSignatureHash,
        if_pos ⟨hsingle, not_lt.1 hlt⟩, if_pos ⟨hsingle, not_lt.1 hlt⟩]
  · intro s' hash hinj hs hs'
    have h := Signing.hasOutput_of_ok hs
    have h' := Signing.hasOutput_of_ok hs'
    rw [s.sigHash_eq h _ (.inl rfl)] at hs
    rw [s'.sigHash_eq h' _ (.inl rfl), ← hs] at hs'
    have hmem : ∀ b ∈ s.hashed, b ∈ s.hashed ++ s'.hashed := fun b => mem_append_left _
    have hmem' : ∀ b ∈ s'.hashed, b ∈ s.hashed ++ s'.hashed := fun b => mem_append_right _
    have hmessage : s.message = s'.message :=
      hinj _ (hmem _ (by simp [Signing.hashed])) _ (hmem' _ (by simp [Signing.hashed]))
        (Hash.ext_bytes (Except.ok.inj hs').symm)
    obtain ⟨htype, hpre, hwitness⟩ := sigHashBytes_inj hmessage
    exact .of_bytes htype
      (hinj _ (hmem _ (by simp [Signing.hashed])) _ (hmem' _ (by simp [Signing.hashed])) hpre)
      (hinj _ (hmem _ (by simp [Signing.hashed])) _ (hmem' _ (by simp [Signing.hashed])) hwitness)
      h h'

instance (bs : List (List UInt8)) : Decidable (TellsApart bs) :=
  inferInstanceAs (Decidable (∀ x ∈ bs, ∀ y ∈ bs, Blake256.hashH x = Blake256.hashH y → x = y))

end Commits

/-! Two inputs and two outputs, and a hash function that is simple enough to compute. -/

namespace TwoInputs

@[reducible] def blake256 : Blake256 where
  hashH b := Hash.ofNat (b.foldl (fun a x => (a * 257 + x.toNat + 1) % 1000003) 7)

def txIn (index : UInt32) : Wire.TxIn :=
  { (default : Wire.TxIn) with previousOutPoint := ⟨default, index, 0⟩, sequence := 0xffffffff }

/-- A transaction with a value in its second output. -/
def tx (value : Int64) : Wire.MsgTx where
  serType := txSerializeFull
  version := 1
  txIn := [txIn 0, txIn 1]
  txOut := [⟨5, 0, [0x51]⟩, ⟨value, 0, [0x52]⟩]
  lockTime := 0
  expiry := 0

/-- The first output is signed. -/
def single (value : Int64) : Signing where
  prevOutScript := [⟨0x51, []⟩, ⟨0xac, []⟩]
  hashType := sigHashSingle
  tx := tx value
  idx := 0
  script := [0x51, 0xac]
  script_eq := by decide
  idx_lt := by simp [tx]
  script_lt := by decide
  txIn_lt := by simp [tx]
  txOut_lt := by simp [tx]
  pkScript_lt := by simp [tx]

end TwoInputs

open TwoInputs in
attribute [local instance] TwoInputs.blake256 in
/-- The second output is not covered. -/
theorem calcSignatureHash_commits_single :
    TellsApart ((single 7).hashed ++ (single 8).hashed) ∧ (single 7).FillsBuffers ∧
      (single 7).sigHash true (some (single 7).tx.txHash) = (single 7).sigHash true none ∧
      (single 7).CommitsAlike (single 8) := by
  have hinj : TellsApart ((single 7).hashed ++ (single 8).hashed) := by decide +kernel
  have hok : (single 7).sigHash true none = .ok (hashB (single 7).message) := by decide +kernel
  have hok' : (single 8).sigHash true none = .ok (hashB (single 7).message) := by decide +kernel
  obtain ⟨hfills, hcached, hcommits⟩ := calcSignatureHash_commits (single 7) true
  exact ⟨hinj, hfills fun _ => by decide, hcached, hcommits (single 8) _ hinj hok hok'⟩

open TwoInputs in
/-- For an empty script the hash does not tell which input is signed, although all inputs and
outputs are covered, and this is so for every hash function. -/
theorem emptyScript_index : ∃ hash : Blake256 → List UInt8, ∀ blake256 : Blake256,
      calcSignatureHash false [] sigHashAll (tx 7) 0 none = .ok (hash blake256) ∧
      calcSignatureHash false [] sigHashAll (tx 7) 1 none = .ok (hash blake256) :=
  ⟨fun _ => (calcSignatureHash false [] sigHashAll (tx 7) 0 none).toOption.getD [],
    fun _ => ⟨rfl, rfl⟩⟩

end Fnod
