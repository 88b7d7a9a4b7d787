import Fnod.Txscript.Parse
import Fnod.Txscript.ScriptNum

/-!
# `scriptbuilder.go`: building scripts of data pushes

The builder picks an opcode for each string and each number that it is given. The part of the
engine that runs pushes is here, too; what the other opcodes do is a parameter.

**Theorem (`buildCalls_pushes`).** When the builder accepts a sequence of calls, the script parses,
its pushes are minimal, and it leaves on the stack what was given, or overflows the stack. The byte
zero is pushed as the empty string is. The least 64-bit integer, which has no bytes, is left out.

Everything is compared with one push for each string (`pushFor`).
-/

namespace Fnod

open Bytes Except List ParsedOpcode UInt8

/-! ## The builder -/

def maxScriptSize : Nat := 16384

def maxScriptElementSize : Nat := 2048

def maxStackSize : Nat := 1024

def OP_PUSHDATA1 : UInt8 := 0x4c
def OP_PUSHDATA2 : UInt8 := 0x4d
def OP_1NEGATE : UInt8 := 0x4f
def OP_RESERVED : UInt8 := 0x50

/-- `ErrScriptNotCanonical`. -/
inductive NotCanonical where
  /-- "adding %d bytes of data would exceed the maximum allowed canonical script length" -/
  | data (dataSize : Nat)
  /-- "adding a data element of %d bytes would exceed the maximum allowed script element size" -/
  | element (dataLen : Nat)
  /-- "adding an integer would exceed the maximum allow canonical script length" -/
  | integer
deriving DecidableEq

structure ScriptBuilder where
  script : List UInt8
  err : Option NotCanonical
deriving DecidableEq

variable (data : List UInt8) {ds : DataStack}

def canonicalDataSize : Nat :=
  let dataLen := data.length
  if dataLen = 0 then 1
  else if dataLen = 1 ∧ data.getD 0 0 ≤ 16 then 1
  else if dataLen = 1 ∧ data.getD 0 0 = 0x81 then 1
  else if dataLen < OP_PUSHDATA1.toNat then 1 + dataLen
  else if dataLen ≤ 0xff then 2 + dataLen
  else if dataLen ≤ 0xffff then 3 + dataLen
  else 5 + dataLen

namespace ScriptBuilder

/-- `NewScriptBuilder`. -/
def new : ScriptBuilder := ⟨[], none⟩

variable (b : ScriptBuilder)

def addData (data : List UInt8) : ScriptBuilder :=
  let dataLen := data.length
  if dataLen = 0 ∨ dataLen = 1 ∧ data.getD 0 0 = 0 then { b with script := b.script ++ [OP_0] }
  else if dataLen = 1 ∧ data.getD 0 0 ≤ 16 then
    { b with script := b.script ++ [OP_1 - 1 + data.getD 0 0] }
  else if dataLen = 1 ∧ data.getD 0 0 = 0x81 then { b with script := b.script ++ [OP_1NEGATE] }
  else
    let push :=
      if dataLen < OP_PUSHDATA1.toNat then [UInt8.ofNat (OP_DATA_1.toNat - 1 + dataLen)]
      else if dataLen ≤ 0xff then OP_PUSHDATA1 :: putLE 1 dataLen
      else if dataLen ≤ 0xffff then OP_PUSHDATA2 :: putLE 2 dataLen
      else OP_PUSHDATA4 :: putLE 4 dataLen
    { b with script := b.script ++ push ++ data }

def AddData (data : List UInt8) : ScriptBuilder :=
  if b.err.isSome then b
  else if b.script.length + canonicalDataSize data > maxScriptSize then
    { b with err := some (.data (canonicalDataSize data)) }
  else if data.length > maxScriptElementSize then { b with err := some (.element data.length) }
  else b.addData data

def addInt64 (val : Int) : Except (Fault ScriptError) ScriptBuilder :=
  if b.err.isSome then .ok b
  else if b.script.length + 1 > maxScriptSize then .ok { b with err := some .integer }
  else if val = 0 then .ok { b with script := b.script ++ [OP_0] }
  else if val = -1 ∨ (val ≥ 1 ∧ val ≤ 16) then
    .ok { b with script := b.script ++ [UInt8.ofNat (OP_1.toNat - 1 + val).toNat] }
  else do
    let bytes ← scriptNumBytes val
    .ok (b.AddData bytes)

end ScriptBuilder

/-- A call of the builder. -/
inductive BuilderCall where
  | addData (data : List UInt8)
  | addInt64 (val : Int) (inRange : Int64.InRange val)
deriving DecidableEq

/-- The builder after a call. -/
def ScriptBuilder.call (b : ScriptBuilder) : BuilderCall → Except (Fault ScriptError) ScriptBuilder
  | .addData data => .ok (b.AddData data)
  | .addInt64 val _ => b.addInt64 val

/-- The builder after some calls. -/
def buildCalls (b : ScriptBuilder) (calls : List BuilderCall) :
    Except (Fault ScriptError) ScriptBuilder := calls.foldlM ScriptBuilder.call b

/-! ## Running pushes -/

namespace ParsedOpcode

def checkMinimalDataPush (pop : ParsedOpcode) : Except (Fault ScriptError) Unit :=
  let dataLen := pop.data.length
  let first := pop.data.getD 0 0
  let required (b : Bool) : Except (Fault ScriptError) Unit :=
    if b then .ok () else .error (.err .minimalData)
  if dataLen = 0 ∧ pop.opcode ≠ OP_0 then .error (.err .minimalData)
  else if dataLen = 1 ∧ first ≥ 1 ∧ first ≤ 16 then required (pop.opcode = OP_1 + first - 1)
  else if dataLen = 1 ∧ first = 0x81 then required (pop.opcode = OP_1NEGATE)
  else if dataLen ≤ 75 then required (pop.opcode.toNat = dataLen)
  else if dataLen ≤ 255 then required (pop.opcode = OP_PUSHDATA1)
  else if dataLen ≤ 65535 then required (pop.opcode = OP_PUSHDATA2)
  else .ok ()

/-- What the function of a push opcode pushes: `opcodeFalse`, `opcodePushData`, `opcode1Negate`,
`opcodeReserved` and `opcodeN`. -/
def pushed (pop : ParsedOpcode) : Except (Fault ScriptError) (List UInt8) :=
  if pop.opcode = OP_0 then .ok []
  else if pop.opcode ≤ OP_PUSHDATA4 then .ok pop.data
  else if pop.opcode = OP_1NEGATE then scriptNumBytes (-1)
  else if pop.opcode = OP_RESERVED then .error (.err .reservedOpcode)
  else scriptNumBytes (pop.opcode - (OP_1 - 1)).toNat

end ParsedOpcode

/-- A stack of data, the last one on top. -/
abbrev DataStack := List (List UInt8)

section Run

-- what the opcodes that push nothing do
variable (other : ParsedOpcode → DataStack → Except (Fault ScriptError) DataStack)

/-- `executeOpcode`, outside of conditionals. -/
def executeOpcode (dstack : DataStack) (pop : ParsedOpcode) :
    Except (Fault ScriptError) DataStack :=
  if pop.opcode > OP_16 then other pop dstack
  else if pop.data.length > maxScriptElementSize then .error (.err .elementTooBig)
  else do
    if pop.opcode ≤ OP_PUSHDATA4 then pop.checkMinimalDataPush
    let data ← pop.pushed
    .ok (dstack ++ [data])

/-- `Step`, as far as the stack is concerned. -/
def stepOpcode (dstack : DataStack) (pop : ParsedOpcode) :
    Except (Fault ScriptError) DataStack := do
  let dstack ← executeOpcode other dstack pop
  if dstack.length > maxStackSize then .error (.err .stackOverflow) else .ok dstack

/-- The stack after a script, from an empty one. -/
def runScript (pops : List ParsedOpcode) : Except (Fault ScriptError) DataStack :=
  pops.foldlM (stepOpcode other) []

end Run

/-! ## The push for a string -/

/-- The opcode that stands for a string alone. -/
def bareOpcode? : List UInt8 → Option UInt8
  | [] => some OP_0
  | [b] =>
    if b = 0 then some OP_0
    else if b ≤ 16 then some (OP_1 - 1 + b)
    else if b = 0x81 then some OP_1NEGATE
    else none
  | _ => none

/-- The opcode that pushes `n` bytes. -/
def pushOpcode (n : Nat) : UInt8 :=
  if n < OP_PUSHDATA1.toNat then UInt8.ofNat n
  else if n ≤ 0xff then OP_PUSHDATA1
  else if n ≤ 0xffff then OP_PUSHDATA2
  else OP_PUSHDATA4

/-- The push that the builder picks. -/
def pushFor : ParsedOpcode :=
  match bareOpcode? data with
  | some op => ⟨op, []⟩
  | none => ⟨pushOpcode data.length, data⟩

/-- What the builder makes of a string. -/
def normal : List UInt8 := if data = [0] then [] else data

/-- The string that a call writes. -/
def BuilderCall.given : BuilderCall → Except (Fault ScriptError) (List UInt8)
  | .addData data => .ok data
  | .addInt64 val _ => scriptNumBytes val

/-- What a call should leave on the stack. -/
def BuilderCall.pushes : BuilderCall → Except (Fault ScriptError) (List UInt8)
  | .addData data => .ok (normal data)
  | .addInt64 val _ => scriptNumBytes val

/-- An opcode that stands for a string alone pushes the string, or the empty one for zero. -/
structure StandsFor (op : UInt8) (data : List UInt8) : Prop where
  length : opcodeLength op = 1
  le : op ≤ OP_16
  zero : op ≤ OP_PUSHDATA4 → op = OP_0
  pushed : ParsedOpcode.pushed ⟨op, []⟩ = .ok (normal data)

variable {data : List UInt8} {op : UInt8} {n : Nat}
  {other : ParsedOpcode → DataStack → Except (Fault ScriptError) DataStack}

theorem standsFor_of_bareOpcode? (h : bareOpcode? data = some op) : StandsFor op data := by
  have hbyte : ∀ x : Fin 256, ∀ op ∈ bareOpcode? [UInt8.ofNat x], opcodeLength op = 1 ∧
      op ≤ OP_16 ∧ (op ≤ OP_PUSHDATA4 → op = OP_0) ∧
        pushed ⟨op, []⟩ = .ok (normal [UInt8.ofNat x]) := by decide +kernel
  match data, h with
  | [], h =>
    cases h
    exact ⟨rfl, by decide, fun _ => rfl, rfl⟩
  | [b], h =>
    have hb := hbyte ⟨b.toNat, b.toNat_lt⟩ op
    rw [UInt8.ofNat_toNat] at hb
    obtain ⟨hlen, hle, hzero, hpushed⟩ := hb h
    exact ⟨hlen, hle, hzero, hpushed⟩

theorem ne_nil_of_bareOpcode? (h : bareOpcode? data = none) : data ≠ [] := by
  rintro rfl
  cases h

theorem ne_zero_of_bareOpcode? (h : bareOpcode? data = none) : data ≠ [0] := by
  rintro rfl
  cases h

theorem pushFor_of_none (h : bareOpcode? data = none) :
    pushFor data = ⟨pushOpcode data.length, data⟩ := by
  rw [pushFor, h]

theorem pushFor_of_some (h : bareOpcode? data = some op) : pushFor data = ⟨op, []⟩ := by
  rw [pushFor, h]

theorem opcodeLength_pushOpcode (hn : 0 < n) :
    opcodeLength (pushOpcode n) = if n < 76 then (n : Int) + 1
      else if n ≤ 0xff then -1 else if n ≤ 0xffff then -2 else -4 := by
  unfold pushOpcode
  rw [show OP_PUSHDATA1.toNat = 76 from rfl]
  split_ifs with h1 h2 h3
  · have hbyte : (UInt8.ofNat n).toNat = n := toNat_ofNat_of_lt' (show n < 256 by omega)
    rw [opcodeLength, if_pos, hbyte]
    rw [le_iff_toNat_le, le_iff_toNat_le, hbyte]
    exact ⟨hn, Nat.le_of_lt_succ h1⟩
  · rfl
  · rfl
  · rfl

theorem pushOpcode_cons (hn : 0 < n) : pushOpcode n :: putLE (sizeLength (pushOpcode n)) n =
      if n < OP_PUSHDATA1.toNat then [UInt8.ofNat (OP_DATA_1.toNat - 1 + n)]
      else if n ≤ 0xff then OP_PUSHDATA1 :: putLE 1 n
      else if n ≤ 0xffff then OP_PUSHDATA2 :: putLE 2 n
      else OP_PUSHDATA4 :: putLE 4 n := by
  have hlen := opcodeLength_pushOpcode hn
  unfold sizeLength
  rw [hlen]
  unfold pushOpcode
  rw [show OP_PUSHDATA1.toNat = 76 from rfl, show OP_DATA_1.toNat - 1 + n = n by
    rw [show OP_DATA_1.toNat - 1 = 0 from rfl, zero_add]]
  split_ifs with h1 h2 h3
  · rw [show (-((n : Int) + 1)).toNat = 0 by omega, putLE]
  · rfl
  · rfl
  · rfl

theorem not_special_of_none (h : bareOpcode? data = none) :
    ¬ (data.length = 0 ∨ data.length = 1 ∧ data.getD 0 0 = 0) ∧
      ¬ (data.length = 1 ∧ data.getD 0 0 ≤ 16) ∧ ¬ (data.length = 1 ∧ data.getD 0 0 = 0x81) := by
  match data, h with
  | [b], h =>
    rw [bareOpcode?] at h
    split_ifs at h with h0 h16 h81
    simp [h0, h16, h81]
  | b :: c :: rest, _ => simp

theorem addData_of_none (b : ScriptBuilder) (h : bareOpcode? data = none) :
    b.addData data = { b with script := b.script ++ (pushFor data).encode } := by
  have hpos := length_pos_of_ne_nil (ne_nil_of_bareOpcode? h)
  obtain ⟨h0, h16, h81⟩ := not_special_of_none h
  unfold ScriptBuilder.addData
  rw [if_neg h0, if_neg h16, if_neg h81, pushFor_of_none h]
  dsimp only
  rw [← pushOpcode_cons hpos, encode, append_assoc, cons_append]

theorem encode_bare (h : opcodeLength op = 1) : (⟨op, []⟩ : ParsedOpcode).encode = [op] := by
  rw [encode, sizeLength_of_pos (h ▸ Int.one_pos)]
  rfl

theorem addData_eq (b : ScriptBuilder) (data : List UInt8) :
    b.addData data = { b with script := b.script ++ (pushFor data).encode } := by
  cases h : bareOpcode? data with
  | none => exact addData_of_none b h
  | some op =>
    rw [pushFor_of_some h, encode_bare (standsFor_of_bareOpcode? h).length]
    unfold ScriptBuilder.addData
    match data, h with
    | [], h =>
      cases h
      rfl
    | [x], h =>
      rw [bareOpcode?] at h
      split_ifs at h with h0 h16 h81 <;> cases h <;> simp [*]

theorem canonicalDataSize_eq (data : List UInt8) :
    canonicalDataSize data = (pushFor data).encode.length := by
  cases h : bareOpcode? data with
  | none =>
    have hpos := length_pos_of_ne_nil (ne_nil_of_bareOpcode? h)
    obtain ⟨-, h16, h81⟩ := not_special_of_none h
    unfold canonicalDataSize
    rw [if_neg hpos.ne', if_neg h16, if_neg h81, pushFor_of_none h, encode_length, sizeLength,
      opcodeLength_pushOpcode hpos, show OP_PUSHDATA1.toNat = 76 from rfl]
    dsimp only
    split_ifs <;> omega
  | some op =>
    rw [pushFor_of_some h, encode_bare (standsFor_of_bareOpcode? h).length]
    unfold canonicalDataSize
    rcases data with _ | ⟨x, _ | ⟨y, data⟩⟩
    · rfl
    · rw [bareOpcode?] at h
      split_ifs at h with h0 h16 h81 <;> simp [*]
    · cases h

theorem pushFor_sized (hlen : data.length < 2 ^ 32) : (pushFor data).Sized := by
  cases h : bareOpcode? data with
  | none =>
    have hpos := length_pos_of_ne_nil (ne_nil_of_bareOpcode? h)
    have hop := opcodeLength_pushOpcode hpos
    rw [pushFor_of_none h]
    refine ⟨⟨fun hbare => ?_, fun hpush => ?_⟩, fun hneg => ?_⟩ <;> dsimp only at *
    · rw [hop] at hbare
      split_ifs at hbare
      omega
    · rw [hop] at hpush ⊢
      split_ifs at hpush ⊢ <;> omega
    · rw [sizeLength]
      rw [hop] at hneg ⊢
      split_ifs at hneg ⊢ with h1 h2 h3
      · omega
      · exact lt_of_le_of_lt h2 (by decide)
      · exact lt_of_le_of_lt h3 (by decide)
      · exact hlen
  | some op =>
    have hop := (standsFor_of_bareOpcode? h).length
    rw [pushFor_of_some h]
    refine ⟨⟨fun _ => rfl, fun hpush => ?_⟩, fun hneg => ?_⟩
    · exact absurd hpush (by dsimp only; omega)
    · exact absurd hneg (by dsimp only; omega)

theorem pushOpcode_of_not_lt (h : ¬ n < 76) : pushOpcode n =
    if n ≤ 0xff then OP_PUSHDATA1 else if n ≤ 0xffff then OP_PUSHDATA2 else OP_PUSHDATA4 :=
  if_neg h

theorem pushOpcode_toNat (h : n < 76) : (pushOpcode n).toNat = n := by
  rw [show pushOpcode n = UInt8.ofNat n from if_pos h]
  exact toNat_ofNat_of_lt' (show n < 256 by omega)

theorem pushOpcode_le (n : Nat) : pushOpcode n ≤ OP_PUSHDATA4 := by
  by_cases h : n < 76
  · rw [le_iff_toNat_le, pushOpcode_toNat h]
    exact h.le.trans (by decide)
  · rw [pushOpcode_of_not_lt h]
    split_ifs <;> decide

theorem pushOpcode_ne_zero (hn : 0 < n) : pushOpcode n ≠ OP_0 := by
  intro h0
  have hlen := opcodeLength_pushOpcode hn
  rw [h0, show opcodeLength OP_0 = 1 from rfl] at hlen
  split_ifs at hlen
  omega

theorem pushFor_le (data : List UInt8) : (pushFor data).opcode ≤ OP_16 := by
  cases h : bareOpcode? data with
  | none =>
    rw [pushFor_of_none h]
    exact le_trans (pushOpcode_le _) (by decide)
  | some op =>
    rw [pushFor_of_some h]
    exact (standsFor_of_bareOpcode? h).le

/-- The builder's pushes are minimal. -/
theorem checkMinimalDataPush_pushFor (data : List UInt8)
    (hop : (pushFor data).opcode ≤ OP_PUSHDATA4) :
    (pushFor data).checkMinimalDataPush = .ok () := by
  cases h : bareOpcode? data with
  | none =>
    have hpos := length_pos_of_ne_nil (ne_nil_of_bareOpcode? h)
    obtain ⟨-, h16, h81⟩ := not_special_of_none h
    rw [pushFor_of_none h, checkMinimalDataPush]
    dsimp only
    rw [if_neg (fun hzero => hpos.ne' hzero.1), if_neg (fun hsmall => h16 ⟨hsmall.1, hsmall.2.2⟩),
      if_neg h81]
    by_cases h75 : data.length ≤ 75
    · rw [if_pos h75, pushOpcode_toNat (Nat.lt_succ_of_le h75)]
      simp
    · rw [if_neg h75, pushOpcode_of_not_lt (by omega)]
      split_ifs <;> first | rfl | simp_all
  | some op =>
    rw [pushFor_of_some h] at hop ⊢
    obtain rfl := (standsFor_of_bareOpcode? h).zero hop
    rfl

/-- The builder's pushes push what is given, but for the byte zero. -/
theorem pushed_pushFor (data : List UInt8) : (pushFor data).pushed = .ok (normal data) := by
  cases h : bareOpcode? data with
  | none =>
    have hpos := length_pos_of_ne_nil (ne_nil_of_bareOpcode? h)
    rw [pushFor_of_none h, pushed, if_neg (pushOpcode_ne_zero hpos),
      if_pos (pushOpcode_le _), normal, if_neg (ne_zero_of_bareOpcode? h)]
  | some op =>
    rw [pushFor_of_some h]
    exact (standsFor_of_bareOpcode? h).pushed

/-! ## Running the script -/

section Run

variable {ds dstack dstack' : DataStack}

theorem executeOpcode_pushFor (hlen : data.length ≤ maxScriptElementSize) :
    executeOpcode other dstack (pushFor data) = .ok (dstack ++ [normal data]) := by
  have hdata : ¬ (pushFor data).data.length > maxScriptElementSize := by
    cases h : bareOpcode? data with
    | none =>
      rw [pushFor_of_none h]
      exact not_lt.2 hlen
    | some op =>
      rw [pushFor_of_some h]
      exact Nat.not_lt_zero _
  unfold executeOpcode
  rw [if_neg (not_lt.2 (pushFor_le data)), if_neg hdata, pushed_pushFor]
  split_ifs with hop
  · rw [checkMinimalDataPush_pushFor data hop]
    rfl
  · rfl

theorem runScript_pushFor (hlen : ∀ data ∈ ds, data.length ≤ maxScriptElementSize)
    (hstack : dstack.length ≤ maxStackSize) :
    (ds.map pushFor).foldlM (stepOpcode other) dstack =
      if dstack.length + ds.length ≤ maxStackSize then .ok (dstack ++ ds.map normal)
      else .error (.err .stackOverflow) := by
  induction ds generalizing dstack with
  | nil =>
    rw [map_nil, map_nil, append_nil, length_nil, Nat.add_zero, if_pos hstack]
    rfl
  | cons data ds ih =>
    obtain ⟨hdata, hlen⟩ := forall_mem_cons.1 hlen
    have hsize : (dstack ++ [normal data]).length = dstack.length + 1 := by simp
    rw [map_cons, List.foldlM_cons, stepOpcode, executeOpcode_pushFor hdata, ok_bind, length_cons]
    by_cases hfull : (dstack ++ [normal data]).length > maxStackSize
    · rw [if_pos hfull, if_neg (by omega)]
      rfl
    · rw [if_neg hfull, ok_bind, ih hlen (not_lt.1 hfull), append_assoc, hsize, map_cons,
        singleton_append, Nat.add_right_comm, Nat.add_assoc]

end Run

/-! ## Building the script -/

section Build

variable {b b' : ScriptBuilder} {call : BuilderCall} {calls : List BuilderCall} {val : Int}

theorem AddData_ok (h : (b.AddData data).err = none) :
    b.err = none ∧ data.length ≤ maxScriptElementSize ∧ b.AddData data = b.addData data := by
  unfold ScriptBuilder.AddData at h ⊢
  split_ifs at h ⊢ with herr hsize hlen
  · rw [h] at herr
    cases herr
  · exact ⟨by simpa using herr, not_lt.1 hlen, rfl⟩

/-- The numbers with opcodes of their own. -/
theorem scriptNumBytes_small (h : val = -1 ∨ (val ≥ 1 ∧ val ≤ 16)) :
    ∃ x, scriptNumBytes val = .ok [x] ∧
      bareOpcode? [x] = some (UInt8.ofNat (OP_1.toNat - 1 + val).toNat) := by
  have hsmall : ∀ k : Fin 16, scriptNumBytes (k + 1 : Nat) = .ok [UInt8.ofNat (k + 1)] ∧
      bareOpcode? [UInt8.ofNat (k + 1)] =
        some (UInt8.ofNat (OP_1.toNat - 1 + ((k + 1 : Nat) : Int)).toNat) := by decide +kernel
  rcases h with rfl | ⟨h1, h16⟩
  · exact ⟨0x81, rfl, rfl⟩
  · obtain ⟨k, rfl⟩ : ∃ k : Fin 16, val = (k + 1 : Nat) := ⟨⟨(val - 1).toNat, by omega⟩, by
      dsimp only
      omega⟩
    exact ⟨_, hsmall k⟩

theorem addInt64_ok (h : b.addInt64 val = .ok b') (herr : b'.err = none) :
    b.err = none ∧ ∃ data, scriptNumBytes val = .ok data ∧ data.length ≤ maxScriptElementSize ∧
      b' = b.addData data := by
  unfold ScriptBuilder.addInt64 at h
  split_ifs at h with hb hsize hzero hsmall
  · cases h
    rw [herr] at hb
    cases hb
  · cases h
    cases herr
  · cases h
    subst hzero
    exact ⟨by simpa using hb, [], rfl, Nat.zero_le _, rfl⟩
  · cases h
    obtain ⟨x, hbytes, hop⟩ := scriptNumBytes_small hsmall
    refine ⟨by simpa using hb, [x], hbytes, show 1 ≤ maxScriptElementSize by decide, ?_⟩
    rw [addData_eq, pushFor_of_some hop, encode_bare (standsFor_of_bareOpcode? hop).length]
  · obtain ⟨data, hdata, h⟩ := bind_eq_ok.1 h
    cases h
    obtain ⟨hb, hlen, heq⟩ := AddData_ok herr
    exact ⟨hb, data, hdata, hlen, heq⟩

/-- **One call.** -/
theorem call_ok (h : b.call call = .ok b') (herr : b'.err = none) :
    b.err = none ∧ ∃ data, call.given = .ok data ∧ data.length ≤ maxScriptElementSize ∧
      b' = b.addData data := by
  cases call with
  | addData data =>
    cases h
    obtain ⟨hb, hlen, heq⟩ := AddData_ok herr
    exact ⟨hb, data, rfl, hlen, heq⟩
  | addInt64 val _ => exact addInt64_ok h herr

/-- **All calls.** -/
theorem buildCalls_ok (h : buildCalls b calls = .ok b') (herr : b'.err = none) :
    b.err = none ∧ ∃ ds, Forall₂ (fun call data => call.given = .ok data) calls ds ∧
      (∀ data ∈ ds, data.length ≤ maxScriptElementSize) ∧
      b'.script = b.script ++ (ds.map pushFor).flatMap (·.encode) := by
  unfold buildCalls at h
  induction calls generalizing b with
  | nil =>
    obtain rfl : b = b' := Except.ok.inj h
    exact ⟨herr, [], .nil, nofun, (append_nil _).symm⟩
  | cons call calls ih =>
    rw [foldlM_cons] at h
    obtain ⟨mid, hcall, h⟩ := bind_eq_ok.1 h
    obtain ⟨hmid, ds, hds, hlen, hscript⟩ := ih h
    obtain ⟨hb, data, hgiven, hdata, rfl⟩ := call_ok hcall hmid
    refine ⟨hb, data :: ds, .cons hgiven hds, forall_mem_cons.2 ⟨hdata, hlen⟩, ?_⟩
    rw [hscript, addData_eq, map_cons, flatMap_cons, append_assoc]

theorem given_ok (h : ∀ hr, call ≠ .addInt64 (-2 ^ 63) hr) : ∃ data, call.given = .ok data := by
  cases call with
  | addData data => exact ⟨data, rfl⟩
  | addInt64 val hr =>
    have hne : val ≠ -2 ^ 63 := by
      rintro rfl
      exact h hr rfl
    obtain ⟨bytes, hbytes, -⟩ := makeScriptNum_bytes (lt_of_le_of_ne hr.1 (Ne.symm hne)) hr.2
    exact ⟨bytes, hbytes⟩

theorem exists_call_eq (b : ScriptBuilder) (h : ∀ hr, call ≠ .addInt64 (-2 ^ 63) hr) :
    ∃ b', b.call call = .ok b' := by
  obtain ⟨data, hgiven⟩ := given_ok h
  cases call with
  | addData data => exact ⟨_, rfl⟩
  | addInt64 val _ =>
    show ∃ b', b.addInt64 val = .ok b'
    unfold ScriptBuilder.addInt64
    rw [show scriptNumBytes val = .ok data from hgiven, ok_bind]
    split_ifs <;> exact ⟨_, rfl⟩

theorem exists_buildCalls_eq (b : ScriptBuilder)
    (h : ∀ call ∈ calls, ∀ hr, call ≠ .addInt64 (-2 ^ 63) hr) :
    ∃ b', buildCalls b calls = .ok b' := by
  unfold buildCalls
  induction calls generalizing b with
  | nil => exact ⟨b, rfl⟩
  | cons call calls ih =>
    obtain ⟨hcall, hcalls⟩ := forall_mem_cons.1 h
    obtain ⟨mid, hmid⟩ := exists_call_eq b hcall
    rw [foldlM_cons, hmid]
    exact ih mid hcalls

end Build

/-! ## What the builder pushes -/

variable {calls : List BuilderCall}

/-- No number is written as the byte zero. -/
theorem scriptNumBytes_ne_zero {val : Int} (hr : Int64.InRange val) :
    scriptNumBytes val ≠ .ok [0] := by
  intro h
  by_cases hmin : val = -2 ^ 63
  · subst hmin
    exact absurd h (by decide +kernel)
  · obtain ⟨b, hb, hread⟩ := makeScriptNum_bytes (lt_of_le_of_ne hr.1 (Ne.symm hmin)) hr.2
    obtain rfl : b = [0] := Except.ok.inj (hb.symm.trans h)
    cases hread

theorem pushes_of_given {call : BuilderCall} (h : call.given = .ok data) :
    call.pushes = .ok (normal data) := by
  cases call with
  | addData data =>
    cases h
    rfl
  | addInt64 val hr =>
    have hne : data ≠ [0] := by
      rintro rfl
      exact scriptNumBytes_ne_zero hr h
    rwa [normal, if_neg hne]

/-- **A script that is built** parses to minimal pushes of what is given. -/
theorem built_pushes (other : ParsedOpcode → DataStack → Except (Fault ScriptError) DataStack)
    {script : List UInt8} (h : buildCalls .new calls = .ok ⟨script, none⟩) :
    ∃ pops stack, parseScript script = .ok pops ∧
      (∀ pop ∈ pops, pop.opcode ≤ OP_16 ∧
        (pop.opcode ≤ OP_PUSHDATA4 → pop.checkMinimalDataPush = .ok ())) ∧
      calls.mapM BuilderCall.pushes = .ok stack ∧
      runScript other pops = if calls.length ≤ maxStackSize then .ok stack
        else .error (.err .stackOverflow) := by
  obtain ⟨-, ds, hds, hlen, hscript⟩ := buildCalls_ok h rfl
  refine ⟨ds.map pushFor, ds.map normal, parseScript_eq_ok.2 ⟨fun pop hpop => ?_, hscript⟩,
    fun pop hpop => ?_, ?_, ?_⟩
  · obtain ⟨data, hdata, rfl⟩ := mem_map.1 hpop
    exact pushFor_sized ((hlen data hdata).trans_lt (by decide))
  · obtain ⟨data, -, rfl⟩ := mem_map.1 hpop
    exact ⟨pushFor_le data, checkMinimalDataPush_pushFor data⟩
  · rw [Except.mapM_eq_ok, forall₂_map_right_iff]
    exact hds.imp fun _ _ => pushes_of_given
  · rw [runScript, runScript_pushFor hlen (Nat.zero_le _), hds.length_eq, length_nil, zero_add,
      nil_append]

/-- **The builder pushes what it is given**, but for the byte zero. -/
theorem buildCalls_pushes (other : ParsedOpcode → DataStack → Except (Fault ScriptError) DataStack)
    (calls : List BuilderCall) (hleast : ∀ hr, .addInt64 (-2 ^ 63) hr ∉ calls)
    (hfit : ∀ b, buildCalls .new calls = .ok b → b.err = none) :
    ∃ script pops stack, buildCalls .new calls = .ok ⟨script, none⟩ ∧
      parseScript script = .ok pops ∧
      (∀ pop ∈ pops, pop.opcode ≤ OP_16 ∧
        (pop.opcode ≤ OP_PUSHDATA4 → pop.checkMinimalDataPush = .ok ())) ∧
      calls.mapM BuilderCall.pushes = .ok stack ∧
      (runScript other pops = if calls.length ≤ maxStackSize then .ok stack
        else .error (.err .stackOverflow)) ∧
      ∀ data, .addData data ∈ calls → ∀ b : ScriptBuilder,
        (b.addData data).script.length = b.script.length + canonicalDataSize data := by
  obtain ⟨⟨script, err⟩, hbuild⟩ := @exists_buildCalls_eq calls .new
    fun call hcall hr heq => hleast hr (heq ▸ hcall)
  obtain rfl : err = none := hfit _ hbuild
  obtain ⟨pops, stack, hparse, hminimal, hgiven, hrun⟩ := built_pushes other hbuild
  refine ⟨script, pops, stack, hbuild, hparse, hminimal, hgiven, hrun, fun data _ b => ?_⟩
  rw [addData_eq, canonicalDataSize_eq, length_append]

/-- A hash, a small number and one that needs a byte for its sign. -/
def threePushes : List BuilderCall :=
  [.addData (List.replicate 20 7), .addInt64 16 (by decide), .addInt64 (-255) (by decide)]

theorem buildCalls_pushes_threePushes : ∃ script pops,
    buildCalls .new threePushes = .ok ⟨script, none⟩ ∧ parseScript script = .ok pops ∧
      runScript (fun _ _ => .error .panic) pops =
        .ok [List.replicate 20 7, [16], [0xff, 0x80]] := by
  have hfit : ∀ b, buildCalls .new threePushes = .ok b → b.err = none := by
    intro b hb
    have hbuild : (buildCalls .new threePushes).map ScriptBuilder.err = .ok none := by
      decide +kernel
    rw [hb] at hbuild
    exact Except.ok.inj hbuild
  obtain ⟨script, pops, stack, hbuild, hparse, -, hstack, hrun, -⟩ :=
    buildCalls_pushes (fun _ _ => .error .panic) threePushes (by simp [threePushes]) hfit
  refine ⟨script, pops, hbuild, hparse, ?_⟩
  have hpushes : threePushes.mapM BuilderCall.pushes =
      .ok [List.replicate 20 7, [16], [0xff, 0x80]] := by decide +kernel
  cases hpushes.symm.trans hstack
  exact hrun

theorem buildCalls_empties {n : Nat} {script : List UInt8} (h : script.length + n ≤ maxScriptSize) :
    buildCalls ⟨script, none⟩ (List.replicate n (.addData [])) =
      .ok ⟨script ++ List.replicate n OP_0, none⟩ := by
  unfold buildCalls
  induction n generalizing script with
  | zero => simp
  | succ n ih =>
    have hfits : ¬ script.length + canonicalDataSize [] > maxScriptSize := by
      rw [show canonicalDataSize [] = 1 from rfl]
      omega
    have hcall : ScriptBuilder.call ⟨script, none⟩ (.addData []) = .ok ⟨script ++ [OP_0], none⟩ :=
      congrArg Except.ok ((if_neg nofun).trans (if_neg hfits))
    rw [List.replicate_succ, List.foldlM_cons, hcall, ok_bind, ih (by simp; omega), append_assoc]
    rfl

/-- The byte zero is pushed as the empty string, the opcode for the number five is not minimal on
its own, and 1025 pushes are more than the stack holds. -/
theorem zero_not_pushed : (∃ script pops, buildCalls .new [.addData [0]] = .ok ⟨script, none⟩ ∧
      parseScript script = .ok pops ∧ runScript (fun _ _ => .error .panic) pops = .ok [[]]) ∧
    (∃ script pop, buildCalls .new [.addInt64 5 (by decide)] = .ok ⟨script, none⟩ ∧
      parseScript script = .ok [pop] ∧ pop.checkMinimalDataPush = .error (.err .minimalData)) ∧
    ∃ script pops, buildCalls .new (List.replicate 1025 (.addData [])) = .ok ⟨script, none⟩ ∧
      parseScript script = .ok pops ∧
      runScript (fun _ _ => .error .panic) pops = .error (.err .stackOverflow) := by
  refine ⟨⟨[OP_0], [⟨OP_0, []⟩], rfl, rfl, rfl⟩, ⟨[0x55], ⟨0x55, []⟩, rfl, rfl, rfl⟩, ?_⟩
  have hbuild := @buildCalls_empties 1025 [] (by decide)
  obtain ⟨pops, _, hparse, -, -, hrun⟩ := built_pushes (fun _ _ => .error .panic) hbuild
  refine ⟨_, pops, hbuild, hparse, hrun.trans (if_neg ?_)⟩
  rw [length_replicate]
  decide

end Fnod
