import Fnod.Chaincfg.Chainhash
import Fnod.Lib.Matching
import Fnod.Txscript.Script
import Fnod.Txscript.ScriptBuilder
import Mathlib.Data.List.Induction
import Mathlib.Data.List.Infix

/-!
# `opcodeCheckMultiSig`

The opcode takes keys and signatures from the stack and walks over the keys once, with the next
signature that has not been verified. It gives up when there are fewer keys left than signatures.

**Theorem (`opcodeCheckMultiSig_exact`).** With acceptably encoded operands, true is pushed exactly
if the signatures can be assigned to keys in their order so that each verifies; nothing but the
operands is taken from the stack, and no more signatures are verified than there are keys.

The curve and the hash that is signed are parameters (`SigChecker`). The loop is a greedy search for
a matching that keeps the order, and the rules of `Matching` say what each round does to it.
-/

namespace Fnod

open Except Bytes List

/-! ## Encodings -/

def checkHashTypeEncoding (hashType : UInt8) : Except (Fault ScriptError) Unit :=
  let sigHashType := hashType &&& ~~~0x80
  if sigHashType < 1 ∨ sigHashType > 3 then .error (.err .invalidSigHashType) else .ok ()

def checkPubKeyEncoding (pubKey : List UInt8) : Except (Fault ScriptError) Unit :=
  if pubKey.length = 33 ∧ (pubKey.getD 0 0 = 0x02 ∨ pubKey.getD 0 0 = 0x03) then .ok ()
  else if pubKey.length = 65 ∧ pubKey.getD 0 0 = 0x04 then .ok ()
  else .error (.err .pubKeyType)

/-- The checks of one of the two numbers of a signature. -/
def checkSigInteger (sig : List UInt8) (typeOffset offset len : Nat)
    (badID zero negative padded : ScriptError) : Except (Fault ScriptError) Unit := do
  let id ← Slice.get sig typeOffset
  if id ≠ 0x02 then .error (.err badID)
  else if len = 0 then .error (.err zero)
  else do
    let first ← Slice.get sig offset
    if first &&& 0x80 ≠ 0 then .error (.err negative)
    else if len > 1 ∧ first = 0 then do
      let second ← Slice.get sig (offset + 1)
      if second &&& 0x80 = 0 then .error (.err padded) else .ok ()
    else .ok ()

def halfOrder : Nat := 0xFFFFFFFFFFFFFFFFFFFFFFFFFFFFFFFEBAAEDCE6AF48A03BBFD25E8CD0364141 / 2

def checkSignatureEncoding (sig : List UInt8) : Except (Fault ScriptError) Unit :=
  let sigLen := sig.length
  if sigLen < 8 then .error (.err .sigTooShort)
  else if sigLen > 72 then .error (.err .sigTooLong)
  else do
    let seqID ← Slice.get sig 0
    let dataLen ← Slice.get sig 1
    let rLen ← Slice.get sig 3
    let sTypeOffset := 4 + rLen.toNat
    let sLenOffset := sTypeOffset + 1
    if seqID ≠ 0x30 then .error (.err .sigInvalidSeqID)
    else if dataLen.toNat ≠ sigLen - 2 then .error (.err .sigInvalidDataLen)
    else if sTypeOffset ≥ sigLen then .error (.err .sigMissingSTypeID)
    else if sLenOffset ≥ sigLen then .error (.err .sigMissingSLen)
    else do
      let sLen ← Slice.get sig sLenOffset
      if sLenOffset + 1 + sLen.toNat ≠ sigLen then .error (.err .sigInvalidSLen)
      else do
        checkSigInteger sig 2 4 rLen.toNat .sigInvalidRIntID .sigZeroRLen .sigNegativeR
          .sigTooMuchRPadding
        checkSigInteger sig sTypeOffset (sLenOffset + 1) sLen.toNat .sigInvalidSIntID .sigZeroSLen
          .sigNegativeS .sigTooMuchSPadding
        let s ← Slice.slice sig (sLenOffset + 1) (sLenOffset + 1 + sLen.toNat)
        if getBE s > halfOrder then .error (.err .sigHighS) else .ok ()

/-! ## The stack and the script -/

def popByteArray (dstack : DataStack) : Except (Fault ScriptError) (List UInt8 × DataStack) :=
  match dstack.getLast? with
  | none => .error (.err .invalidStackOperation)
  | some so => .ok (so, dstack.dropLast)

def popInt (dstack : DataStack) (maxScriptNumLen : Int) :
    Except (Fault ScriptError) (Int × DataStack) := do
  let (so, dstack) ← popByteArray dstack
  let n ← makeScriptNum so maxScriptNumLen
  .ok (n, dstack)

/-- A number of strings from the stack, the top one first. -/
def popMany : Nat → DataStack → Except (Fault ScriptError) (DataStack × DataStack)
  | 0, dstack => .ok ([], dstack)
  | n + 1, dstack => do
    let (so, dstack) ← popByteArray dstack
    let (sos, dstack) ← popMany n dstack
    .ok (so :: sos, dstack)

def fromBool (v : Bool) : List UInt8 := if v then [1] else []

/-- `Int32`. -/
def scriptNumInt32 (n : Int) : Int :=
  if n > 2 ^ 31 - 1 then 2 ^ 31 - 1 else if n < -2 ^ 31 then -2 ^ 31 else n

def canonicalPush (pop : ParsedOpcode) : Bool :=
  let dataLen := pop.data.length
  if pop.opcode > OP_16 then true
  else if pop.opcode < OP_PUSHDATA1 ∧ pop.opcode > OP_0 ∧ dataLen = 1 ∧ pop.data.getD 0 0 ≤ 16 then
    false
  else if pop.opcode = OP_PUSHDATA1 ∧ dataLen < OP_PUSHDATA1.toNat then false
  else if pop.opcode = OP_PUSHDATA2 ∧ dataLen ≤ 0xff then false
  else if pop.opcode = OP_PUSHDATA4 ∧ dataLen ≤ 0xffff then false
  else true

def removeOpcodeByData (pkscript : List ParsedOpcode) (data : List UInt8) : List ParsedOpcode :=
  pkscript.filter fun pop => !canonicalPush pop || !decide (data <:+: pop.data)

/-! ## The opcode -/

/-- What the engine knows about signatures: the script and the input that are signed, the parsers
of package `secp256k1`, and whether a signature verifies, by the cache or by the curve. -/
structure SigChecker (Sig PubKey : Type) where
  subScript : List ParsedOpcode
  numOps : Nat
  calcSignatureHash : List ParsedOpcode → UInt8 → Except (Fault ScriptError) Hash
  parseDERSignature : List UInt8 → Option Sig
  parsePubKey : List UInt8 → Option PubKey
  verify : Hash → Sig → PubKey → Bool

structure ParsedSigInfo (Sig : Type) where
  signature : List UInt8
  parsedSignature : Option Sig
  parsed : Bool

/-- The encoding of a signature is checked once. -/
def ParsedSigInfo.checkOnce {Sig : Type} (sigInfo : ParsedSigInfo Sig) (hashType : UInt8) :
    Except (Fault ScriptError) Unit :=
  if sigInfo.parsed then .ok ()
  else do
    checkHashTypeEncoding hashType
    checkSignatureEncoding sigInfo.signature.dropLast

def maxOpsPerScript : Nat := 255

/-- The engine after the opcode, and the number of signatures that it verified. -/
structure MultiSigResult where
  dstack : DataStack
  numOps : Nat
  attempts : Nat

namespace SigChecker

variable {Sig PubKey : Type} (vm : SigChecker Sig PubKey)

/-- A signature that is parsed, unless it already is. -/
def parseOnce (sigInfo : ParsedSigInfo Sig) : ParsedSigInfo Sig :=
  if sigInfo.parsed then sigInfo
  else { sigInfo with
    parsed := true, parsedSignature := vm.parseDERSignature sigInfo.signature.dropLast }

variable (script : List ParsedOpcode) (signature : List UInt8)

/-- A parsed signature and a key. -/
def verifyPair (hashType : UInt8) (parsedSig : Sig)
    (pubKey : List UInt8) : Except (Fault ScriptError) (Bool × Nat) := do
  checkPubKeyEncoding pubKey
  match vm.parsePubKey pubKey with
  | none => .ok (false, 0)
  | some parsedPubKey => do
    let hash ← vm.calcSignatureHash script hashType
    .ok (vm.verify hash parsedSig parsedPubKey, 1)

/-- The body of the loop: a signature and a key. -/
def tryPair (sigInfo : ParsedSigInfo Sig) (pubKey : List UInt8) :
    Except (Fault ScriptError) (Bool × ParsedSigInfo Sig × Nat) :=
  match sigInfo.signature.getLast? with
  | none => .ok (false, sigInfo, 0)
  | some hashType => do
    sigInfo.checkOnce hashType
    match (vm.parseOnce sigInfo).parsedSignature with
    | none => .ok (false, vm.parseOnce sigInfo, 0)
    | some parsedSig => do
      let (valid, n) ← vm.verifyPair script hashType parsedSig pubKey
      .ok (valid, vm.parseOnce sigInfo, n)

/-- The loop. `nextKey` is `pubKeyIdx + 1`. -/
def multiSigLoop (script : List ParsedOpcode) (pubKeys : DataStack) :
    Nat → List (ParsedSigInfo Sig) → Nat → Nat → Nat → Nat → Nat →
      Except (Fault ScriptError) (Bool × Nat)
  | 0, _, _, _, _, _, _ => .error .panic
  | fuel + 1, signatures, numSignatures, numPubKeys, nextKey, signatureIdx, attempts =>
    if numSignatures > 0 then
      if numSignatures > numPubKeys - 1 then .ok (false, attempts)
      else do
        let sigInfo ← Slice.get signatures signatureIdx
        let pubKey ← Slice.get pubKeys nextKey
        let (valid, sigInfo, n) ← vm.tryPair script sigInfo pubKey
        let signatures := signatures.set signatureIdx sigInfo
        if valid then
          multiSigLoop script pubKeys fuel signatures (numSignatures - 1) (numPubKeys - 1)
            (nextKey + 1) (signatureIdx + 1) (attempts + n)
        else
          multiSigLoop script pubKeys fuel signatures numSignatures (numPubKeys - 1) (nextKey + 1)
            signatureIdx (attempts + n)
    else .ok (true, attempts)

/-- `opcodeCheckMultiSig`. Every round takes a key, so the loop ends. -/
def opcodeCheckMultiSig (dstack : DataStack) : Except (Fault ScriptError) MultiSigResult := do
  let (numKeys, dstack) ← popInt dstack 4
  let numPubKeys := scriptNumInt32 numKeys
  if numPubKeys < 0 ∨ numPubKeys > maxPubKeysPerMultiSig then .error (.err .invalidPubKeyCount)
  else if vm.numOps + numPubKeys > maxOpsPerScript then .error (.err .tooManyOperations)
  else do
    let (pubKeys, dstack) ← popMany numPubKeys.toNat dstack
    let (numSigs, dstack) ← popInt dstack 4
    let numSignatures := scriptNumInt32 numSigs
    if numSignatures < 0 ∨ numSignatures > numPubKeys then .error (.err .invalidSignatureCount)
    else do
      let (signatures, dstack) ← popMany numSignatures.toNat dstack
      let script := signatures.foldl removeOpcodeByData vm.subScript
      let (success, attempts) ← vm.multiSigLoop script pubKeys (numPubKeys.toNat + 2)
        (signatures.map fun signature => ⟨signature, none, false⟩) numSignatures.toNat
        (numPubKeys.toNat + 1) 0 0 0
      .ok ⟨dstack ++ [fromBool success], vm.numOps + numPubKeys.toNat, attempts⟩

/-! ## What verifies -/

/-- A signature verifies with a key. -/
def Verifies (pubKey : List UInt8) : Prop :=
  ∃ hashType parsedSig parsedPubKey hash, signature.getLast? = some hashType ∧
    vm.parseDERSignature signature.dropLast = some parsedSig ∧
    vm.parsePubKey pubKey = some parsedPubKey ∧
    vm.calcSignatureHash script hashType = .ok hash ∧ vm.verify hash parsedSig parsedPubKey = true

/-- A signature whose encoding passes the checks, or an empty one. -/
def SigAccepted : Prop :=
  ∀ hashType, signature.getLast? = some hashType →
    checkHashTypeEncoding hashType = .ok () ∧ checkSignatureEncoding signature.dropLast = .ok ()

/-- The hash that a signature signs can be calculated. -/
def Hashable : Prop :=
  ∀ hashType, signature.getLast? = some hashType →
    ∃ hash, vm.calcSignatureHash script hashType = .ok hash

/-- What is stored of a signature is right. -/
structure InfoOk (signature : List UInt8) (sigInfo : ParsedSigInfo Sig) : Prop where
  raw : sigInfo.signature = signature
  parsed : sigInfo.parsed = true →
    sigInfo.parsedSignature = vm.parseDERSignature signature.dropLast

variable {vm} {script : List ParsedOpcode} {signature pubKey : List UInt8}
  {sigInfo : ParsedSigInfo Sig}

theorem InfoOk.parseOnce (h : vm.InfoOk signature sigInfo) :
    vm.InfoOk signature (vm.parseOnce sigInfo) ∧
      (vm.parseOnce sigInfo).parsedSignature = vm.parseDERSignature signature.dropLast := by
  unfold SigChecker.parseOnce
  split_ifs with hp
  · exact ⟨h, h.parsed hp⟩
  · obtain rfl := h.raw
    exact ⟨⟨rfl, fun _ => rfl⟩, rfl⟩

theorem InfoOk.checkOnce (h : vm.InfoOk signature sigInfo) (hacc : SigAccepted signature)
    {hashType : UInt8} (hht : signature.getLast? = some hashType) :
    sigInfo.checkOnce hashType = .ok () := by
  unfold ParsedSigInfo.checkOnce
  split_ifs
  · rfl
  · rw [h.raw, (hacc hashType hht).1, ok_bind, (hacc hashType hht).2]

/-- The outcome of one round. -/
inductive PairOutcome (vm : SigChecker Sig PubKey) (script : List ParsedOpcode)
    (signature pubKey : List UInt8) :
    Except (Fault ScriptError) (Bool × ParsedSigInfo Sig × Nat) → Prop
  | tried {valid : Bool} {sigInfo : ParsedSigInfo Sig} {n : Nat}
      (hvalid : valid = true ↔ vm.Verifies script signature pubKey)
      (hinfo : vm.InfoOk signature sigInfo) (hn : n ≤ 1) :
      PairOutcome vm script signature pubKey (.ok (valid, sigInfo, n))
  | failed {e : Fault ScriptError} (h : ¬ vm.Hashable script signature) :
      PairOutcome vm script signature pubKey (.error e)

/-- **One round.** -/
theorem tryPair_outcome (h : vm.InfoOk signature sigInfo) (hacc : SigAccepted signature)
    (hkey : checkPubKeyEncoding pubKey = .ok ()) :
    PairOutcome vm script signature pubKey (vm.tryPair script sigInfo pubKey) := by
  unfold tryPair
  rw [h.raw]
  cases hht : signature.getLast? with
  | none =>
    refine .tried ⟨nofun, ?_⟩ h (Nat.zero_le _)
    rintro ⟨hashType, _, _, _, hlast, -⟩
    cases hht.symm.trans hlast
  | some hashType =>
    obtain ⟨hinfo, hsig⟩ := h.parseOnce
    dsimp only
    rw [h.checkOnce hacc hht, ok_bind, hsig]
    cases hparse : vm.parseDERSignature signature.dropLast with
    | none =>
      refine .tried ⟨nofun, ?_⟩ hinfo (Nat.zero_le _)
      rintro ⟨_, parsedSig, _, _, -, hsig', -⟩
      cases hparse.symm.trans hsig'
    | some parsedSig =>
      dsimp only
      unfold verifyPair
      rw [hkey, ok_bind]
      cases hpub : vm.parsePubKey pubKey with
      | none =>
        refine .tried ⟨nofun, ?_⟩ hinfo (Nat.zero_le _)
        rintro ⟨_, _, parsedPubKey, _, -, -, hpub', -⟩
        cases hpub.symm.trans hpub'
      | some parsedPubKey =>
        cases hhash : vm.calcSignatureHash script hashType with
        | error e =>
          refine .failed fun hable => ?_
          obtain ⟨hash, hok⟩ := hable hashType hht
          cases hhash.symm.trans hok
        | ok hash =>
          refine .tried ⟨fun hv => ⟨_, _, _, _, hht, hparse, hpub, hhash, hv⟩, ?_⟩ hinfo le_rfl
          rintro ⟨hashType', sig', key', hash', hht', hsig', hkey', hhash', hv⟩
          cases hht.symm.trans hht'
          cases hparse.symm.trans hsig'
          cases hpub.symm.trans hkey'
          cases hhash.symm.trans hhash'
          exact hv

theorem not_verifies_of_not_hashable (h : ¬ vm.Hashable script signature) :
    ¬ vm.Verifies script signature pubKey := by
  rintro ⟨hashType, _, _, hash, hht, -, -, hhash, -⟩
  refine h fun hashType' hht' => ?_
  cases hht.symm.trans hht'
  exact ⟨hash, hhash⟩

/-! ## The loop -/

variable {sigs keys : DataStack} {infos : List (ParsedSigInfo Sig)}

/-- The outcome of the loop from signature `k` and key `j` on. -/
inductive LoopOutcome (vm : SigChecker Sig PubKey) (script : List ParsedOpcode)
    (sigs keys : DataStack) (k j attempts : Nat) : Except (Fault ScriptError) (Bool × Nat) → Prop
  | done {success : Bool} {n : Nat}
      (hsuccess : success = true ↔ SublistForall₂ (vm.Verifies script) (sigs.drop k) (keys.drop j))
      (hn : n ≤ attempts + (keys.length - j)) :
      LoopOutcome vm script sigs keys k j attempts (.ok (success, n))
  | failed {e : Fault ScriptError}
      (hno : ¬ SublistForall₂ (vm.Verifies script) (sigs.drop k) (keys.drop j))
      (hsig : ∃ signature ∈ sigs, ¬ vm.Hashable script signature) :
      LoopOutcome vm script sigs keys k j attempts (.error e)

/-- A round that takes key `j` and leaves the same question. -/
theorem LoopOutcome.step {k k' j attempts n : Nat} {res : Except (Fault ScriptError) (Bool × Nat)}
    (h : LoopOutcome vm script sigs keys k' (j + 1) (attempts + n) res) (hn : n ≤ 1)
    (hj : j < keys.length) (hiff : SublistForall₂ (vm.Verifies script) (sigs.drop k) (keys.drop j) ↔
      SublistForall₂ (vm.Verifies script) (sigs.drop k') (keys.drop (j + 1))) :
    LoopOutcome vm script sigs keys k j attempts res := by
  cases h with
  | done hsuccess hbound => exact .done (hsuccess.trans hiff.symm) (by omega)
  | failed hno hsig => exact .failed (mt hiff.1 hno) hsig

/-- **The loop.** -/
theorem multiSigLoop_outcome (hsigs : ∀ signature ∈ sigs, SigAccepted signature)
    (hkeys : ∀ key ∈ keys, checkPubKeyEncoding key = .ok ()) {fuel k j attempts : Nat}
    (hinfos : Forall₂ vm.InfoOk sigs infos) (hk : k ≤ sigs.length) (hj : j ≤ keys.length)
    (hfuel : keys.length - j < fuel) : LoopOutcome vm script sigs keys k j attempts
      (vm.multiSigLoop script keys fuel infos (sigs.length - k) (keys.length - j + 1) j k
        attempts) := by
  induction fuel generalizing infos k j attempts with
  | zero => omega
  | succ fuel ih =>
    rw [multiSigLoop, Nat.add_sub_cancel]
    by_cases hdone : sigs.length - k > 0
    swap
    · have hnil : sigs.drop k = [] := drop_eq_nil_of_le (by omega)
      rw [if_neg hdone]
      exact .done ⟨fun _ => hnil ▸ .nil, fun _ => rfl⟩ (by omega)
    rw [if_pos hdone]
    by_cases hfew : sigs.length - k > keys.length - j
    · rw [if_pos hfew]
      refine .done ⟨nofun, fun hm => ?_⟩ (by omega)
      have := Matching.length_le hm
      rw [length_drop, length_drop] at this
      omega
    rw [if_neg hfew]
    have hk' : k < sigs.length := by omega
    have hj' : j < keys.length := by omega
    have hlen := hinfos.length_eq
    have hinfo : vm.InfoOk sigs[k] infos[k] := hinfos.get hk' (hlen ▸ hk')
    rw [Slice.get_eq (getElem?_eq_getElem (hlen ▸ hk')), ok_bind,
      Slice.get_eq (getElem?_eq_getElem hj'), ok_bind]
    have hpair : PairOutcome vm script sigs[k] keys[j] (vm.tryPair script infos[k] keys[j]) :=
      tryPair_outcome hinfo (hsigs _ (getElem_mem hk')) (hkeys _ (getElem_mem hj'))
    have hdrop := drop_eq_getElem_cons hk'
    have hdrop' := drop_eq_getElem_cons hj'
    generalize vm.tryPair script infos[k] keys[j] = outcome at hpair
    cases hpair with
    | failed hno =>
      refine .failed (fun hm => ?_) ⟨_, getElem_mem hk', hno⟩
      rw [hdrop] at hm
      obtain ⟨key, -, hver⟩ := Matching.exists_rel_of_cons hm
      exact not_verifies_of_not_hashable hno hver
    | @tried valid sigInfo n hvalid hinfo' hn =>
      have hinfos' : Forall₂ vm.InfoOk sigs (infos.set k sigInfo) :=
        Matching.forall₂_set hinfos (getElem?_eq_getElem hk') hinfo'
      rw [ok_bind]
      dsimp only
      split_ifs with hv
      · rw [show sigs.length - k - 1 = sigs.length - (k + 1) by omega,
          show keys.length - j = keys.length - (j + 1) + 1 by omega]
        refine (ih hinfos' hk' hj' (by omega)).step hn hj' ?_
        rw [hdrop, hdrop', Matching.cons_iff_of_rel (hvalid.1 hv)]
      · rw [show keys.length - j = keys.length - (j + 1) + 1 by omega]
        refine (ih hinfos' hk hj' (by omega)).step hn hj' ?_
        rw [hdrop, hdrop', Matching.cons_iff_of_not_rel (mt hvalid.2 hv)]

/-! ## The whole opcode -/

theorem popByteArray_append (dstack : DataStack) (so : List UInt8) :
    popByteArray (dstack ++ [so]) = .ok (so, dstack) := by
  rw [popByteArray, getLast?_concat, dropLast_concat]

theorem popInt_append {dstack : DataStack} {so : List UInt8} {n : Int}
    (h : makeScriptNum so 4 = .ok n) : popInt (dstack ++ [so]) 4 = .ok (n, dstack) := by
  rw [popInt, popByteArray_append, ok_bind]
  dsimp only
  rw [h, ok_bind]

theorem popMany_append (dstack sos : DataStack) :
    popMany sos.length (dstack ++ sos) = .ok (sos.reverse, dstack) := by
  induction sos using List.reverseRecOn with
  | nil =>
    rw [append_nil]
    rfl
  | append_singleton sos so ih =>
    rw [length_append, length_singleton, popMany, ← append_assoc, popByteArray_append, ok_bind]
    dsimp only
    rw [ih, ok_bind, reverse_append]
    rfl

theorem scriptNumInt32_of_le {n : Nat} (h : n ≤ maxPubKeysPerMultiSig) : scriptNumInt32 n = n := by
  unfold scriptNumInt32 maxPubKeysPerMultiSig at *
  rw [if_neg (by omega), if_neg (by omega)]

/-- The operands as they are expected on the stack. -/
structure Operands (vm : SigChecker Sig PubKey) (sigs keys : DataStack) (ns nk : List UInt8) :
    Prop where
  numKeys : makeScriptNum nk 4 = .ok keys.length
  numSigs : makeScriptNum ns 4 = .ok sigs.length
  le_keys : sigs.length ≤ keys.length
  le_max : keys.length ≤ maxPubKeysPerMultiSig
  ops : vm.numOps + keys.length ≤ maxOpsPerScript
  sigs : ∀ signature ∈ sigs, SigAccepted signature
  keys : ∀ key ∈ keys, checkPubKeyEncoding key = .ok ()

/-- The opcode is the loop on what was popped. -/
theorem opcodeCheckMultiSig_eq {rest : DataStack} {ns nk : List UInt8}
    (h : vm.Operands sigs keys ns nk) :
    vm.opcodeCheckMultiSig (rest ++ sigs ++ [ns] ++ keys ++ [nk]) =
      (vm.multiSigLoop (sigs.reverse.foldl removeOpcodeByData vm.subScript) keys.reverse
        (keys.length + 2) (sigs.reverse.map fun signature => ⟨signature, none, false⟩) sigs.length
        (keys.length + 1) 0 0 0).bind fun r =>
          .ok ⟨rest ++ [fromBool r.1], vm.numOps + keys.length, r.2⟩ := by
  have hle := h.le_keys
  have hmax := h.le_max
  have hops := h.ops
  unfold opcodeCheckMultiSig
  rw [popInt_append h.numKeys, ok_bind]
  dsimp only
  rw [scriptNumInt32_of_le hmax, if_neg (by omega), if_neg (by omega), Int.toNat_natCast,
    popMany_append, ok_bind]
  dsimp only
  rw [popInt_append h.numSigs, ok_bind]
  dsimp only
  rw [scriptNumInt32_of_le (hle.trans hmax), if_neg (by omega), Int.toNat_natCast, popMany_append,
    ok_bind]
  rfl

/-- **Checking several signatures is exact.** -/
theorem opcodeCheckMultiSig_exact (vm : SigChecker Sig PubKey) (rest sigs keys : DataStack)
    (ns nk : List UInt8) (h : vm.Operands sigs keys ns nk) :
    let script := sigs.reverse.foldl removeOpcodeByData vm.subScript
    let res := vm.opcodeCheckMultiSig (rest ++ sigs ++ [ns] ++ keys ++ [nk])
    ((∃ r, res = .ok r ∧ r.dstack = rest ++ [fromBool true]) ↔
      ∃ f : Fin sigs.length → Fin keys.length, StrictMono f ∧
        ∀ i, vm.Verifies script (sigs.get i) (keys.get (f i))) ∧
    (∀ r, res = .ok r → r.attempts ≤ keys.length ∧ ∃ b, r.dstack = rest ++ [fromBool b]) ∧
    ((∀ signature ∈ sigs, vm.Hashable script signature) → ∃ r, res = .ok r) := by
  intro script res
  have hinfos : Forall₂ vm.InfoOk sigs.reverse
      (sigs.reverse.map fun signature => ⟨signature, none, false⟩) := by
    rw [forall₂_map_right_iff, forall₂_same]
    exact fun signature _ => ⟨rfl, nofun⟩
  have hres : res = _ := opcodeCheckMultiSig_eq h
  have hloop : LoopOutcome vm script sigs.reverse keys.reverse 0 0 0 _ := multiSigLoop_outcome
    (fun s hs => h.sigs s (mem_reverse.1 hs)) (fun k hk => h.keys k (mem_reverse.1 hk)) hinfos
    (Nat.zero_le _) (Nat.zero_le _) (show _ < keys.length + 2 by rw [length_reverse]; omega)
  have hiff : SublistForall₂ (vm.Verifies script) (sigs.reverse.drop 0) (keys.reverse.drop 0) ↔ _ :=
    Matching.reverse_iff.trans Matching.iff_exists_strictMono
  rw [← hiff]
  rw [Nat.sub_zero, Nat.sub_zero, length_reverse, length_reverse] at hloop
  generalize vm.multiSigLoop _ _ _ _ _ _ _ _ _ = outcome at hres hloop
  cases hloop with
  | @done success n hsuccess hn =>
    rw [Nat.zero_add, length_reverse, Nat.sub_zero] at hn
    replace hres : res = .ok ⟨rest ++ [fromBool success], vm.numOps + keys.length, n⟩ := hres
    refine ⟨?_, fun r hr => ?_, fun _ => ⟨_, hres⟩⟩
    · rw [← hsuccess]
      constructor
      · rintro ⟨r, hr, hstack⟩
        cases hres.symm.trans hr
        have hbool := append_cancel_left hstack
        cases success with
        | true => rfl
        | false => cases hbool
      · rintro rfl
        exact ⟨_, hres, rfl⟩
    · cases hres.symm.trans hr
      exact ⟨hn, success, rfl⟩
  | @failed e hno hsig =>
    replace hres : res = .error e := hres
    refine ⟨⟨?_, fun hm => absurd hm hno⟩, fun r hr => ?_, fun hable => ?_⟩
    · rintro ⟨r, hr, -⟩
      cases hres.symm.trans hr
    · cases hres.symm.trans hr
    · obtain ⟨signature, hmem, hnot⟩ := hsig
      exact absurd (hable signature (mem_reverse.1 hmem)) hnot

/-! ## One of two keys -/

/-- A checker for which every well-formed signature verifies with one key. -/
def oneKey : SigChecker Unit (List UInt8) where
  subScript := []
  numOps := 1
  calcSignatureHash := fun _ _ => .ok (.ofNat 0)
  parseDERSignature := fun _ => some ()
  parsePubKey := some
  verify := fun _ _ key => key.getLast? = some 7

/-- A key that ends in a given byte. -/
def keyEnding (b : UInt8) : List UInt8 := 0x02 :: replicate 31 0 ++ [b]

/-- A signature of the least size, with the type for all inputs and outputs. -/
def leastSig : List UInt8 := [0x30, 0x06, 0x02, 0x01, 0x01, 0x02, 0x01, 0x01, 0x01]

theorem operands_oneOfTwo : oneKey.Operands [leastSig] [keyEnding 9, keyEnding 7] [1] [2] where
  numKeys := by decide +kernel
  numSigs := by decide +kernel
  le_keys := by decide
  le_max := by decide
  ops := by decide
  sigs := by
    intro signature hs hashType hht
    rw [mem_singleton] at hs
    subst hs
    cases hht
    exact ⟨by decide +kernel, by decide +kernel⟩
  keys := by decide +kernel

theorem opcodeCheckMultiSig_exact_oneOfTwo : ∃ r, oneKey.opcodeCheckMultiSig
        ([] ++ [leastSig] ++ [[1]] ++ [keyEnding 9, keyEnding 7] ++ [[2]]) = .ok r ∧
      r.dstack = [] ++ [fromBool true] := by
  have hone : Subsingleton (Fin [leastSig].length) := inferInstanceAs (Subsingleton (Fin 1))
  refine (opcodeCheckMultiSig_exact oneKey [] _ _ _ _ operands_oneOfTwo).1.2
    ⟨fun _ => 1, Subsingleton.strictMono _, fun i => ?_⟩
  obtain rfl : i = 0 := Subsingleton.elim _ _
  exact ⟨1, (), keyEnding 7, .ofNat 0, rfl, rfl, rfl, rfl, by decide⟩

end SigChecker

end Fnod
