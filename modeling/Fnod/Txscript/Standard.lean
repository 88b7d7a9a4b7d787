import Fnod.Lib.Bytes
import Fnod.Lib.Slice

/-!
# Package `txscript`: parsing and classes of scripts

`parseScript` cuts a script into opcodes with their data, and `GetScriptClass` says which of the
standard shapes the opcodes have. All indexing of the script is checked, so that the model shows
whether it could go wrong.

**Theorem (`getScriptClass_total`).** Every script has a class; none makes `GetScriptClass` index
out of range.
-/

namespace Fnod

open Except List Slice

/-! ## Opcodes -/

def OP_0 : UInt8 := 0x00
def OP_DATA_1 : UInt8 := 0x01
def OP_DATA_20 : UInt8 := 0x14
def OP_PUSHDATA4 : UInt8 := 0x4e
def OP_1 : UInt8 := 0x51
def OP_16 : UInt8 := 0x60
def OP_RETURN : UInt8 := 0x6a
def OP_DUP : UInt8 := 0x76
def OP_EQUAL : UInt8 := 0x87
def OP_EQUALVERIFY : UInt8 := 0x88
def OP_HASH160 : UInt8 := 0xa9
def OP_CHECKSIG : UInt8 := 0xac
def OP_CHECKMULTISIG : UInt8 := 0xae
def OP_SSTX : UInt8 := 0xba
def OP_SSGEN : UInt8 := 0xbb
def OP_SSRTX : UInt8 := 0xbc
def OP_SSTXCHANGE : UInt8 := 0xbd
def OP_CHECKSIGALT : UInt8 := 0xbe

variable (pops : List ParsedOpcode) (script : List UInt8) (op : UInt8)

/-- The `length` column of `opcodeArray`: the size of an opcode with its data, or minus the number
of bytes that hold the size of the data. -/
def opcodeLength : Int :=
  if 0x01 ≤ op ∧ op ≤ 0x4b then op.toNat + 1
  else if op = 0x4c then -1
  else if op = 0x4d then -2
  else if op = 0x4e then -4
  else 1

structure ParsedOpcode where
  opcode : UInt8
  data : List UInt8
deriving DecidableEq

/-- The error codes of the package that are modelled. -/
inductive ScriptError where
  | invalidSigHashSingleIndex
  | malformedPush
  | internal
  | minimalData
  | numOutOfRange
  | elementTooBig
  | reservedOpcode
  | stackOverflow
  | invalidStackOperation
  | tooManyOperations
  | invalidPubKeyCount
  | invalidSignatureCount
  | invalidSigHashType
  | pubKeyType
  | sigTooShort
  | sigTooLong
  | sigInvalidSeqID
  | sigInvalidDataLen
  | sigMissingSTypeID
  | sigMissingSLen
  | sigInvalidSLen
  | sigInvalidRIntID
  | sigZeroRLen
  | sigNegativeR
  | sigTooMuchRPadding
  | sigInvalidSIntID
  | sigZeroSLen
  | sigNegativeS
  | sigTooMuchSPadding
  | sigHighS
deriving DecidableEq

/-! ## Parsing -/

/-- The size of the data of an `OP_PUSHDATA`, from its `n` size bytes, least significant first. -/
def pushLength (off n : Nat) : Except (Fault ScriptError) Nat :=
  match n with
  | 1 => do
    let b0 ← Slice.get script off
    .ok b0.toNat
  | 2 => do
    let b1 ← Slice.get script (off + 1)
    let b0 ← Slice.get script off
    .ok (b1.toNat * 2 ^ 8 + b0.toNat)
  | 4 => do
    let b3 ← Slice.get script (off + 3)
    let b2 ← Slice.get script (off + 2)
    let b1 ← Slice.get script (off + 1)
    let b0 ← Slice.get script off
    .ok (b3.toNat * 2 ^ 24 + b2.toNat * 2 ^ 16 + b1.toNat * 2 ^ 8 + b0.toNat)
  | _ => .error (.err .malformedPush)

/-- The opcode at a position of a script, and the position after it. No opcode has length zero. -/
def parseOpcode (i : Nat) : Except (Fault ScriptError) (ParsedOpcode × Nat) := do
  let instr ← Slice.get script i
  let length := opcodeLength instr
  if length = 1 then .ok (⟨instr, []⟩, i + 1)
  else if 1 < length then do
    let rest ← Slice.sliceFrom script i
    if rest.length < length.toNat then .error (.err .malformedPush)
    else do
      let data ← Slice.slice script (i + 1) (i + length.toNat)
      .ok (⟨instr, data⟩, i + length.toNat)
  else do
    let n := (-length).toNat
    let rest ← Slice.sliceFrom script (i + 1)
    if rest.length < n then .error (.err .malformedPush)
    else do
      let l ← pushLength script (i + 1) n
      let rest ← Slice.sliceFrom script (i + 1 + n)
      if rest.length < l then .error (.err .malformedPush)
      else do
        let data ← Slice.slice script (i + 1 + n) (i + 1 + n + l)
        .ok (⟨instr, data⟩, i + (1 + n + l))

/-- The loop of `parseScriptTemplate`. -/
def parseLoop (script : List UInt8) :
    Nat → Nat → List ParsedOpcode → Except (Fault ScriptError) (List ParsedOpcode)
  | 0, i, retScript => if i < script.length then .error .panic else .ok retScript
  | fuel + 1, i, retScript =>
    if i < script.length then do
      let (pop, i) ← parseOpcode script i
      parseLoop script fuel i (retScript ++ [pop])
    else .ok retScript

/-- `parseScript`. Every opcode takes at least one byte, so the loop ends. -/
def parseScript : Except (Fault ScriptError) (List ParsedOpcode) :=
  parseLoop script script.length 0 []

variable {script data : List UInt8}

theorem pushLength_safely {off n : Nat} (h : off + n ≤ script.length) :
    Safely (fun _ => True) (pushLength script off n) := by
  unfold pushLength
  split
  · exact (Safely.get (by omega)).bind fun _ _ => .ok trivial
  · refine (Safely.get (by omega)).bind fun _ _ => ?_
    exact (Safely.get (by omega)).bind fun _ _ => .ok trivial
  · refine (Safely.get (by omega)).bind fun _ _ => ?_
    refine (Safely.get (by omega)).bind fun _ _ => ?_
    refine (Safely.get (by omega)).bind fun _ _ => ?_
    exact (Safely.get (by omega)).bind fun _ _ => .ok trivial
  · exact .err _

variable (pop : ParsedOpcode)

/-- The data of an opcode has the size that the opcode says. -/
structure ParsedOpcode.Formed : Prop where
  bare : opcodeLength pop.opcode = 1 → pop.data = []
  push : 1 < opcodeLength pop.opcode → pop.data.length + 1 = (opcodeLength pop.opcode).toNat

/-- **One opcode**: its bytes are all in the script, and there is at least one. -/
theorem parseOpcode_safely {i : Nat} (h : i < script.length) :
    Safely (fun r => i < r.2 ∧ r.1.Formed) (parseOpcode script i) := by
  unfold parseOpcode
  refine (Safely.get h).bind fun instr _ => .ite (fun hone => .ok ?_) fun hone =>
    .ite (fun hdata => ?_) fun hsize => ?_
  · exact ⟨Nat.lt_succ_self i, fun _ => rfl, fun hpush => absurd hpush (by dsimp only; omega)⟩
  · refine (Safely.sliceFrom (le_of_lt h)).bind fun rest hrest =>
      .ite (fun _ => .err _) fun hlen => ?_
    refine (Safely.slice (by omega) (by omega)).bind fun data hd => .ok ⟨?_, ?_, fun _ => ?_⟩
    · show i < i + (opcodeLength instr).toNat
      omega
    · exact fun hbare => absurd hbare hone
    · dsimp only
      omega
  · refine (Safely.sliceFrom h).bind fun rest hrest => .ite (fun _ => .err _) fun hlen => ?_
    refine (pushLength_safely (by omega)).bind fun l _ => ?_
    refine (Safely.sliceFrom (by omega)).bind fun rest' hrest' =>
      .ite (fun _ => .err _) fun hl => ?_
    refine (Safely.slice (by omega) (by omega)).bind fun data _ => .ok ⟨?_, ?_, ?_⟩
    · show i < i + (1 + _ + l)
      omega
    · exact fun hbare => absurd hbare hone
    · exact fun hpush => absurd hpush hsize

/-- The loop stays in the script and reaches its end. -/
theorem parseLoop_safely {fuel i : Nat} (h : script.length ≤ i + fuel)
    {retScript : List ParsedOpcode} (hret : ∀ pop ∈ retScript, pop.Formed) :
    Safely (fun pops => ∀ pop ∈ pops, pop.Formed) (parseLoop script fuel i retScript) := by
  induction fuel generalizing i retScript with
  | zero =>
    rw [parseLoop, if_neg (by omega)]
    exact .ok hret
  | succ fuel ih =>
    rw [parseLoop]
    refine .ite (fun hi => ?_) fun _ => .ok hret
    refine (parseOpcode_safely hi).bind fun r hr => ih (by omega) ?_
    exact forall_mem_append.2 ⟨hret, forall_mem_singleton.2 hr.2⟩

theorem parseScript_safely (script : List UInt8) :
    Safely (fun pops => ∀ pop ∈ pops, pop.Formed) (parseScript script) :=
  parseLoop_safely (Nat.le_add_left _ _) nofun

/-! ## Classes -/

inductive ScriptClass where
  | nonStandardTy
  | pubKeyTy
  | pubKeyHashTy
  | scriptHashTy
  | multiSigTy
  | nullDataTy
  | stakeSubmissionTy
  | stakeGenTy
  | stakeRevocationTy
  | stakeSubChangeTy
  | pubkeyAltTy
  | pubkeyHashAltTy
deriving DecidableEq

def maxDataCarrierSize : Nat := 256

def defaultScriptVersion : Nat := 0

def isSmallInt : Bool := op = OP_0 ∨ (OP_1 ≤ op ∧ op ≤ OP_16)

def asSmallInt : Nat := if op = OP_0 then 0 else (op - (OP_1 - 1)).toNat

def isOneByteMaxDataPush : Bool :=
  (OP_1 ≤ pop.opcode ∧ pop.opcode ≤ OP_16) ∨ pop.opcode = OP_DATA_1

/-- The opcode is the given one. -/
def isOp : Bool := pop.opcode = op

/-- There are as many opcodes as conditions, and each meets its own. -/
def shaped (shape : List (ParsedOpcode → Bool)) (pops : List ParsedOpcode) : Bool :=
  pops.length == shape.length && (shape.zip pops).all fun (p, pop) => p pop

/-- `isPubkey`: the key has 33 or 65 bytes. -/
def isPubkey : List ParsedOpcode → Bool :=
  shaped [fun pop => pop.data.length = 33 ∨ pop.data.length = 65, isOp OP_CHECKSIG]

def isPubkeyAlt : List ParsedOpcode → Bool :=
  shaped [fun pop => pop.data.length < 512, isOneByteMaxDataPush, isOp OP_CHECKSIGALT]

def isPubkeyHash : List ParsedOpcode → Bool :=
  shaped [isOp OP_DUP, isOp OP_HASH160, isOp OP_DATA_20, isOp OP_EQUALVERIFY, isOp OP_CHECKSIG]

def isPubkeyHashAlt : List ParsedOpcode → Bool :=
  shaped [isOp OP_DUP, isOp OP_HASH160, isOp OP_DATA_20, isOp OP_EQUALVERIFY, isOneByteMaxDataPush,
    isOp OP_CHECKSIGALT]

def isScriptHash : List ParsedOpcode → Bool :=
  shaped [isOp OP_HASH160, isOp OP_DATA_20, isOp OP_EQUAL]

def isMultiSig {ε : Type} (pops : List ParsedOpcode) : Except (Fault ε) Bool :=
  let l := pops.length
  if l < 4 then .ok false
  else do
    let first ← Slice.get pops 0
    let count ← Slice.get pops (l - 2)
    let last ← Slice.get pops (l - 1)
    if !isSmallInt first.opcode || !isSmallInt count.opcode || !isOp OP_CHECKMULTISIG last
        || l - 2 - 1 != asSmallInt count.opcode then
      .ok false
    else do
      let keys ← Slice.slice pops 1 (l - 2)
      .ok (keys.all fun pop => pop.data.length = 33 ∨ pop.data.length = 65)

def isNullData : Bool :=
  shaped [isOp OP_RETURN] pops ||
    shaped [isOp OP_RETURN, fun pop => (isSmallInt pop.opcode ∨ pop.opcode ≤ OP_PUSHDATA4) ∧
      pop.data.length ≤ maxDataCarrierSize] pops

/-- A stake tag followed by one of the two address scripts. -/
def isTagged (tag : UInt8) (pops : List ParsedOpcode) : Bool :=
  shaped [isOp tag, isOp OP_DUP, isOp OP_HASH160, isOp OP_DATA_20, isOp OP_EQUALVERIFY,
      isOp OP_CHECKSIG] pops ||
    shaped [isOp tag, isOp OP_HASH160, isOp OP_DATA_20, isOp OP_EQUAL] pops

def isStakeSubmission : List ParsedOpcode → Bool := isTagged OP_SSTX

def isStakeGen : List ParsedOpcode → Bool := isTagged OP_SSGEN

def isStakeRevocation : List ParsedOpcode → Bool := isTagged OP_SSRTX

def isSStxChange : List ParsedOpcode → Bool := isTagged OP_SSTXCHANGE

/-- `typeOfScript`, past the shapes that are not a multisig script. -/
def typeOfTaggedScript : ScriptClass :=
  if isNullData pops then .nullDataTy
  else if isStakeSubmission pops then .stakeSubmissionTy
  else if isStakeGen pops then .stakeGenTy
  else if isStakeRevocation pops then .stakeRevocationTy
  else if isSStxChange pops then .stakeSubChangeTy
  else .nonStandardTy

def typeOfScript {ε : Type} (pops : List ParsedOpcode) : Except (Fault ε) ScriptClass :=
  if isPubkey pops then .ok .pubKeyTy
  else if isPubkeyAlt pops then .ok .pubkeyAltTy
  else if isPubkeyHash pops then .ok .pubKeyHashTy
  else if isPubkeyHashAlt pops then .ok .pubkeyHashAltTy
  else if isScriptHash pops then .ok .scriptHashTy
  else do
    let multiSig ← isMultiSig pops
    .ok (if multiSig then .multiSigTy else typeOfTaggedScript pops)

/-- `GetScriptClass`: a script that does not parse is not standard. -/
def getScriptClass {ε : Type} (version : Nat) (script : List UInt8) :
    Except (Fault ε) ScriptClass :=
  if version ≠ defaultScriptVersion then .ok .nonStandardTy
  else
    match parseScript script with
    | .ok pops => typeOfScript pops
    | .error (.err _) => .ok .nonStandardTy
    | .error .panic => .error .panic

theorem isMultiSig_total {ε : Type} (pops : List ParsedOpcode) :
    ∃ b, (isMultiSig pops : Except (Fault ε) Bool) = .ok b := by
  unfold isMultiSig
  by_cases h : pops.length < 4
  · exact ⟨false, if_pos h⟩
  · have hget : ∀ i < pops.length, ∃ pop, (Slice.get pops i : Except (Fault ε) _) = .ok pop :=
      fun i hi => ⟨_, get_eq (List.getElem?_eq_getElem hi)⟩
    obtain ⟨first, hfirst⟩ := hget 0 (by omega)
    obtain ⟨count, hcount⟩ := hget (pops.length - 2) (by omega)
    obtain ⟨last, hlast⟩ := hget (pops.length - 1) (by omega)
    simp only [h, if_false, hfirst, hcount, hlast, ok_bind,
      slice_eq (show 1 ≤ pops.length - 2 by omega) (Nat.sub_le _ _)]
    split
    · exact ⟨_, rfl⟩
    · exact ⟨_, rfl⟩

theorem typeOfScript_total {ε : Type} (pops : List ParsedOpcode) :
    ∃ c, (typeOfScript pops : Except (Fault ε) ScriptClass) = .ok c := by
  obtain ⟨multiSig, hmulti⟩ := isMultiSig_total (ε := ε) pops
  unfold typeOfScript
  rw [hmulti]
  split_ifs <;> exact ⟨_, rfl⟩

/-- **Classifying a script** always gives a class. -/
theorem getScriptClass_total {ε : Type} (version : Nat) (script : List UInt8) :
    ∃ c, (getScriptClass version script : Except (Fault ε) ScriptClass) = .ok c := by
  unfold getScriptClass
  by_cases hv : version ≠ defaultScriptVersion
  · exact ⟨_, if_pos hv⟩
  · rw [if_neg hv]
    have hsafe := (parseScript_safely script).safe
    split
    · exact typeOfScript_total _
    · exact ⟨_, rfl⟩
    next h => exact (hsafe h).elim

theorem parseOpcode_return (rest : List UInt8) :
    parseOpcode (OP_RETURN :: rest) 0 = .ok (⟨OP_RETURN, []⟩, 1) := rfl

theorem parseOpcode_data {a op : UInt8} (hop : 0x01 ≤ op ∧ op ≤ 0x4b)
    (hlen : data.length = op.toNat) :
    parseOpcode (a :: op :: data) 1 = .ok (⟨op, data⟩, (a :: op :: data).length) := by
  have hl : opcodeLength op = op.toNat + 1 := if_pos hop
  have hpos : 0 < op.toNat := UInt8.le_iff_toNat_le.1 hop.1
  have hn : (opcodeLength op).toNat = data.length + 1 := by rw [hl, hlen]; rfl
  have hend : 1 + (data.length + 1) = (a :: op :: data).length := by
    simp only [length_cons]
    omega
  rw [parseOpcode, get_eq (show (a :: op :: data)[1]? = some op from rfl), ok_bind]
  dsimp only
  rw [if_neg (by omega), if_pos (by omega), sliceFrom_eq (by simp), ok_bind, hn,
    if_neg (by simp), hend, slice_eq (by simp) (le_rfl), take_length, ok_bind]
  rfl

/-- A push of `data` after `OP_RETURN`, with the length as the opcode. -/
theorem parseScript_nullData {op : UInt8} (hop : 0x01 ≤ op ∧ op ≤ 0x4b)
    (hlen : data.length = op.toNat) :
    parseScript (OP_RETURN :: op :: data) = .ok [⟨OP_RETURN, []⟩, ⟨op, data⟩] := by
  have hend : ∀ fuel i pops, (OP_RETURN :: op :: data).length ≤ i →
      parseLoop (OP_RETURN :: op :: data) fuel i pops = .ok pops := by
    intro fuel i pops hi
    cases fuel <;> rw [parseLoop, if_neg (by omega)]
  rw [parseScript, show (OP_RETURN :: op :: data).length = data.length + 1 + 1 from rfl, parseLoop,
    if_pos (by simp), parseOpcode_return, ok_bind]
  dsimp only
  rw [parseLoop, if_pos (by simp), parseOpcode_data hop hlen, ok_bind]
  exact hend _ _ _ (le_rfl)

theorem getScriptClass_nullData {ε : Type} {op : UInt8} (hop : 0x01 ≤ op ∧ op ≤ 0x4b)
    (hlen : data.length = op.toNat) :
    (getScriptClass defaultScriptVersion (OP_RETURN :: op :: data) : Except (Fault ε) ScriptClass) =
      .ok .nullDataTy := by
  have hop' : op ≤ OP_PUSHDATA4 := UInt8.le_trans hop.2 (by decide)
  have hsize : data.length ≤ maxDataCarrierSize := by
    rw [hlen]
    exact le_trans (UInt8.le_iff_toNat_le.1 hop.2) (by decide)
  rw [getScriptClass, if_neg (by simp), parseScript_nullData hop hlen]
  simp [typeOfScript, isPubkey, isPubkeyAlt, isPubkeyHash, isPubkeyHashAlt, isScriptHash, shaped,
    isMultiSig, typeOfTaggedScript, isNullData, isOp, hop', hsize]

end Fnod
