import Fnod.Wire.BlockHeader
import Fnod.Wire.VarInt

/-!
# Package `wire`: the encoding of transactions

A transaction is encoded in one of three forms, which its version field tells: the prefix (what it
spends and what it creates), the witness (the proofs of its inputs), or the one after the other.
Each form has the inputs; what it does not carry is left as the receiver has it, or is zero.

The protocol version makes no difference to a transaction. Scripts are moved to one block of memory
when a transaction has been read, which does not change them; this and the cached hash are left out.

**Theorem (`MsgTx.accepts_btcDecode`).** The bytes that are accepted as a transaction are those
that are written for it, and `SerializeSize` is their number.

**Theorem (`MsgTx.reads_btcDecode`).** A transaction within the limits is read back, as far as its
form carries it.
-/

namespace Fnod.Wire

open Codec List

/-- `TxSerializeType`, a number that is not checked before the transaction is encoded. -/
abbrev TxSerializeType := UInt16

def txSerializeFull : TxSerializeType := 0

def txSerializeNoWitness : TxSerializeType := 1

def txSerializeOnlyWitness : TxSerializeType := 2

structure OutPoint where
  hash : Hash
  index : UInt32
  tree : Int8
deriving DecidableEq, Inhabited

/-- `TxIn`. The first two fields belong to the prefix, the others to the witness. -/
structure TxIn where
  previousOutPoint : OutPoint
  sequence : UInt32
  valueIn : Int64
  blockHeight : UInt32
  blockIndex : UInt32
  signatureScript : List UInt8
deriving DecidableEq, Inhabited

structure TxOut where
  value : Int64
  version : UInt16
  pkScript : List UInt8
deriving DecidableEq, Inhabited

structure MsgTx where
  serType : TxSerializeType
  version : UInt16
  txIn : List TxIn
  txOut : List TxOut
  lockTime : UInt32
  expiry : UInt32
deriving DecidableEq, Inhabited

def minTxInPayload : UInt64 := 11 + 32

def maxTxInPerMessage : UInt64 := maxMessagePayload.toUInt64 / minTxInPayload + 1

def minTxOutPayload : UInt64 := 9

def maxTxOutPerMessage : UInt64 := maxMessagePayload.toUInt64 / minTxOutPayload + 1

/-! ## Inputs and outputs -/

def readOutPoint : Reader OutPoint := do
  let hash ← readHash
  let index ← uint32
  let tree ← uint8
  pure ⟨hash, index, tree.toInt8⟩

def writeOutPoint (op : OutPoint) : List UInt8 :=
  op.hash.bytes ++ (putUint32 op.index ++ putUint8 op.tree.toUInt8)

/-- `readTxInPrefix`, to a new input. -/
def readTxInPrefix (serType : TxSerializeType) : Reader TxIn := do
  guard (serType ≠ txSerializeOnlyWitness)
  let previousOutPoint ← readOutPoint
  let sequence ← uint32
  pure { (default : TxIn) with previousOutPoint, sequence }

def writeTxInPrefix (ti : TxIn) : List UInt8 :=
  writeOutPoint ti.previousOutPoint ++ putUint32 ti.sequence

/-- `readTxInWitness`, to a new input. -/
def readTxInWitness : Reader TxIn := do
  let valueIn ← int64
  let blockHeight ← uint32
  let blockIndex ← uint32
  let signatureScript ← readScript maxMessagePayload
  pure { (default : TxIn) with valueIn, blockHeight, blockIndex, signatureScript }

def writeTxInWitness (ti : TxIn) : List UInt8 :=
  putInt64 ti.valueIn ++
    (putUint32 ti.blockHeight ++ (putUint32 ti.blockIndex ++ writeVarBytes ti.signatureScript))

def readTxOut : Reader TxOut := do
  let value ← int64
  let version ← uint16
  let pkScript ← readScript maxMessagePayload
  pure ⟨value, version, pkScript⟩

def writeTxOut (o : TxOut) : List UInt8 :=
  putInt64 o.value ++ (putUint16 o.version ++ writeVarBytes o.pkScript)

namespace TxIn

def serializeSizePrefix (_t : TxIn) : Nat := 41

def serializeSizeWitness (t : TxIn) : Nat :=
  8 + 4 + 4 + varIntSerializeSize (UInt64.ofNat t.signatureScript.length) + t.signatureScript.length

/-- The proof of an input is copied to the input. -/
def withWitness (t w : TxIn) : TxIn :=
  { t with
    valueIn := w.valueIn
    blockHeight := w.blockHeight
    blockIndex := w.blockIndex
    signatureScript := w.signatureScript }

/-- What the prefix tells of an input. -/
def prefixPart (t : TxIn) : TxIn := t.withWitness default

/-- What the witness tells of an input. -/
def witnessPart (t : TxIn) : TxIn := (default : TxIn).withWitness t

theorem writeTxInPrefix_withWitness (t w : TxIn) :
    writeTxInPrefix (t.withWitness w) = writeTxInPrefix t :=
  rfl

theorem writeTxInWitness_withWitness (t w : TxIn) :
    writeTxInWitness (t.withWitness w) = writeTxInWitness w :=
  rfl

end TxIn

def TxOut.serializeSize (t : TxOut) : Nat :=
  8 + 2 + varIntSerializeSize (UInt64.ofNat t.pkScript.length) + t.pkScript.length

namespace MsgTx

/-! ## Transactions -/

variable (msg : MsgTx)

def decodePrefix : Reader MsgTx := do
  let txIn ← readList maxTxInPerMessage (readTxInPrefix msg.serType)
  let txOut ← readList maxTxOutPerMessage readTxOut
  let lockTime ← uint32
  let expiry ← uint32
  pure { msg with txIn, txOut, lockTime, expiry }

def decodeWitness (isFull : Bool) : Reader MsgTx :=
  if !isFull then do
    let txIn ← readList maxTxInPerMessage readTxInWitness
    pure { msg with txIn, txOut := [] }
  else do
    let count ← readVarInt
    guard (count.toInt64.toInt = msg.txIn.length)
    guard (count ≤ maxTxInPerMessage)
    let witnesses ← many readTxInWitness count.toNat
    pure { msg with txIn := msg.txIn.zipWith TxIn.withWitness witnesses }

/-- The version field has the real version below and the form above. -/
def setVersion (version : UInt32) : MsgTx :=
  { msg with
    version := (version &&& 0xffff).toUInt16
    serType := (version >>> 16).toUInt16 }

/-- What `BtcDecode` does for the form. -/
def decodeParts : Reader MsgTx :=
  if msg.serType = txSerializeNoWitness then msg.decodePrefix
  else if msg.serType = txSerializeOnlyWitness then msg.decodeWitness false
  else if msg.serType = txSerializeFull then do
    let msg ← msg.decodePrefix
    msg.decodeWitness true
  else failure

def btcDecode : Reader MsgTx := do
  let version ← uint32
  (msg.setVersion version).decodeParts

def encodePrefix : List UInt8 :=
  writeList writeTxInPrefix msg.txIn ++
    (writeList writeTxOut msg.txOut ++ (putUint32 msg.lockTime ++ putUint32 msg.expiry))

def encodeWitness : List UInt8 := writeList writeTxInWitness msg.txIn

/-- The version field. -/
def serializedVersion : UInt32 := msg.version.toUInt32 ||| msg.serType.toUInt32 <<< 16

/-- What `BtcEncode` does for the form. -/
def encodeParts : Option (List UInt8) :=
  if msg.serType = txSerializeNoWitness then some msg.encodePrefix
  else if msg.serType = txSerializeOnlyWitness then some msg.encodeWitness
  else if msg.serType = txSerializeFull then some (msg.encodePrefix ++ msg.encodeWitness)
  else none

def btcEncode : Option (List UInt8) := do
  let parts ← msg.encodeParts
  some (putUint32 msg.serializedVersion ++ parts)

def serializeSize (msg : MsgTx) : Nat :=
  let numIn := varIntSerializeSize (UInt64.ofNat msg.txIn.length)
  let numOut := varIntSerializeSize (UInt64.ofNat msg.txOut.length)
  let prefixes := (msg.txIn.map TxIn.serializeSizePrefix).sum
  let witnesses := (msg.txIn.map TxIn.serializeSizeWitness).sum
  let outputs := (msg.txOut.map TxOut.serializeSize).sum
  if msg.serType = txSerializeNoWitness then 12 + numIn + numOut + prefixes + outputs
  else if msg.serType = txSerializeOnlyWitness then 4 + numIn + witnesses
  else if msg.serType = txSerializeFull then
    12 + numIn + numIn + numOut + prefixes + witnesses + outputs
  else 0

def deserialize : Reader MsgTx := msg.btcDecode

/-- `serialize`: in another form. -/
def serialize (serType : TxSerializeType) : Option (List UInt8) :=
  { msg with serType }.btcEncode

/-- `TxHash`: the hash of the prefix, which can be encoded. -/
def txHash [Blake256] (msg : MsgTx) : Hash :=
  Blake256.hashH ((msg.serialize txSerializeNoWitness).getD [])

end MsgTx

/-! ## What is written is read back -/

theorem reads_outPoint (op : OutPoint) : Reads readOutPoint (writeOutPoint op) op := by
  have hread := (Reads.uint8 op.tree.toUInt8).map fun tree =>
    (⟨op.hash, op.index, tree.toInt8⟩ : OutPoint)
  rw [Int8.toInt8_toUInt8] at hread
  exact (reads_hash op.hash).bind ((Reads.uint32 op.index).bind hread)

theorem reads_txInPrefix {serType : TxSerializeType} (h : serType ≠ txSerializeOnlyWitness)
    (ti : TxIn) : Reads (readTxInPrefix serType) (writeTxInPrefix ti) ti.prefixPart :=
  (Reads.check h).bind ((reads_outPoint _).bind ((Reads.uint32 _).map _))

theorem reads_txInWitness {ti : TxIn} (h : ti.signatureScript.length ≤ maxMessagePayload.toNat) :
    Reads readTxInWitness (writeTxInWitness ti) ti.witnessPart :=
  (Reads.int64 _).bind ((Reads.uint32 _).bind ((Reads.uint32 _).bind ((reads_script h).map _)))

theorem reads_txOut {o : TxOut} (h : o.pkScript.length ≤ maxMessagePayload.toNat) :
    Reads readTxOut (writeTxOut o) o :=
  (Reads.int64 _).bind ((Reads.uint16 _).bind ((reads_script h).map _))

namespace MsgTx

variable {msg recv : MsgTx}

/-- The numbers and sizes of what the form carries are within the limits, and the form is known. -/
structure Fits (msg : MsgTx) : Prop where
  known : msg.serType = txSerializeNoWitness ∨ msg.serType = txSerializeOnlyWitness ∨
    msg.serType = txSerializeFull
  txIn : msg.txIn.length ≤ maxTxInPerMessage.toNat
  txOut : msg.serType ≠ txSerializeOnlyWitness → msg.txOut.length ≤ maxTxOutPerMessage.toNat
  pkScripts : msg.serType ≠ txSerializeOnlyWitness →
    ∀ o ∈ msg.txOut, o.pkScript.length ≤ maxMessagePayload.toNat
  signatureScripts : msg.serType ≠ txSerializeNoWitness →
    ∀ ti ∈ msg.txIn, ti.signatureScript.length ≤ maxMessagePayload.toNat

instance (msg : MsgTx) : Decidable msg.Fits :=
  decidable_of_iff _ ⟨fun ⟨h₁, h₂, h₃, h₄, h₅⟩ => ⟨h₁, h₂, h₃, h₄, h₅⟩,
    fun h => (⟨h.known, h.txIn, h.txOut, h.pkScripts, h.signatureScripts⟩ : _ ∧ _ ∧ _ ∧ _ ∧ _)⟩

/-- What the form carries, and for the rest what the receiver had or what a new input has. -/
def carried (msg recv : MsgTx) : MsgTx :=
  if msg.serType = txSerializeNoWitness then { msg with txIn := msg.txIn.map TxIn.prefixPart }
  else if msg.serType = txSerializeOnlyWitness then
    { msg with
      txIn := msg.txIn.map TxIn.witnessPart
      txOut := []
      lockTime := recv.lockTime
      expiry := recv.expiry }
  else msg

/-- The form stands above the version. -/
theorem toNat_serializedVersion (msg : MsgTx) :
    msg.serializedVersion.toNat = msg.serType.toNat * 65536 + msg.version.toNat := by
  have hver : msg.version.toNat < 2 ^ 16 := msg.version.toNat_lt
  have htype : msg.serType.toNat < 2 ^ 16 := msg.serType.toNat_lt
  have hshift : (msg.serType.toUInt32 <<< 16).toNat = msg.serType.toNat <<< 16 := by
    rw [UInt32.toNat_shiftLeft, UInt16.toNat_toUInt32]
    simp only [UInt32.reduceToNat, Nat.reduceMod, Nat.shiftLeft_eq]
    omega
  rw [serializedVersion, UInt32.toNat_or, hshift, UInt16.toNat_toUInt32, Nat.or_comm,
    ← Nat.shiftLeft_add_eq_or_of_lt hver, Nat.shiftLeft_eq]

theorem toNat_setVersion (recv : MsgTx) (version : UInt32) :
    (recv.setVersion version).version.toNat = version.toNat % 65536 ∧
      (recv.setVersion version).serType.toNat = version.toNat / 65536 := by
  have hlt := version.toNat_lt
  have hand : version.toNat &&& 65535 = version.toNat % 65536 := Nat.and_two_pow_sub_one_eq_mod _ 16
  constructor
  · simp only [setVersion, UInt32.toNat_toUInt16, UInt32.toNat_and, UInt32.reduceToNat, hand]
    omega
  · simp only [setVersion, UInt32.toNat_toUInt16, UInt32.toNat_shiftRight, UInt32.reduceToNat,
      Nat.reduceMod, Nat.shiftRight_eq_div_pow]
    omega

theorem serializedVersion_setVersion (recv : MsgTx) (version : UInt32) :
    (recv.setVersion version).serializedVersion = version := by
  obtain ⟨hver, htype⟩ := toNat_setVersion recv version
  apply UInt32.toNat_inj.1
  rw [toNat_serializedVersion, hver, htype]
  omega

theorem setVersion_serializedVersion (msg recv : MsgTx) : recv.setVersion msg.serializedVersion =
      { recv with version := msg.version, serType := msg.serType } := by
  obtain ⟨hver, htype⟩ := toNat_setVersion recv msg.serializedVersion
  have hlt := msg.version.toNat_lt
  rw [toNat_serializedVersion] at hver htype
  have hver' : (recv.setVersion msg.serializedVersion).version = msg.version := by
    apply UInt16.toNat_inj.1
    omega
  have htype' : (recv.setVersion msg.serializedVersion).serType = msg.serType := by
    apply UInt16.toNat_inj.1
    omega
  rw [← hver', ← htype']
  rfl

/-! ### The two parts -/

/-- The inputs of the prefix are read, and the rest of it. -/
theorem reads_prefix (hfits : msg.Fits) (htype : msg.serType ≠ txSerializeOnlyWitness)
    (hrecv : recv.serType ≠ txSerializeOnlyWitness) : Reads recv.decodePrefix msg.encodePrefix
      { recv with
        txIn := msg.txIn.map TxIn.prefixPart
        txOut := msg.txOut
        lockTime := msg.lockTime
        expiry := msg.expiry } := by
  have hins : Reads (readList maxTxInPerMessage (readTxInPrefix recv.serType))
      (writeList writeTxInPrefix msg.txIn) (msg.txIn.map TxIn.prefixPart) :=
    reads_list_map hfits.txIn fun ti _ => reads_txInPrefix hrecv ti
  have houts : Reads (readList maxTxOutPerMessage readTxOut) (writeList writeTxOut msg.txOut)
    msg.txOut :=
    reads_list (hfits.txOut htype) fun o ho => reads_txOut (hfits.pkScripts htype o ho)
  exact hins.bind (houts.bind ((Reads.uint32 _).bind ((Reads.uint32 _).map _)))

theorem reads_witnesses (hfits : msg.Fits) (htype : msg.serType ≠ txSerializeNoWitness) :
    ∀ ti ∈ msg.txIn, Reads readTxInWitness (writeTxInWitness ti) ti.witnessPart :=
  fun ti hti => reads_txInWitness (hfits.signatureScripts htype ti hti)

theorem reads_witness (recv : MsgTx) (hfits : msg.Fits)
    (htype : msg.serType ≠ txSerializeNoWitness) :
    Reads (recv.decodeWitness false) msg.encodeWitness
      { recv with txIn := msg.txIn.map TxIn.witnessPart, txOut := [] } :=
  (reads_list_map hfits.txIn (reads_witnesses hfits htype)).map _

theorem toInt_length {n : Nat} (h : n ≤ maxTxInPerMessage.toNat) :
    (UInt64.ofNat n).toInt64.toInt = n := by
  have hmax : maxTxInPerMessage.toNat < 2 ^ 63 := by decide
  rw [UInt64.toInt64_ofNat', Int64.toInt_ofNat_of_lt (lt_of_le_of_lt h hmax)]

/-- After the prefix there must be a proof for each input. -/
theorem reads_witness_full (recv : MsgTx) (hfits : msg.Fits)
    (htype : msg.serType ≠ txSerializeNoWitness) (hins : recv.txIn = msg.txIn.map TxIn.prefixPart) :
    Reads (recv.decodeWitness true) msg.encodeWitness { recv with txIn := msg.txIn } := by
  have hlen : recv.txIn.length = msg.txIn.length := by rw [hins, length_map]
  have hzip : recv.txIn.zipWith TxIn.withWitness (msg.txIn.map TxIn.witnessPart) = msg.txIn := by
    rw [hins, zipWith_map, zipWith_self]
    exact map_id _
  have hread := (Reads.many_map (reads_witnesses hfits htype)).map fun ws =>
    { recv with txIn := recv.txIn.zipWith TxIn.withWitness ws }
  rw [hzip] at hread
  refine (reads_varInt _).bind (.bind (.check ?_) (.bind (.check (ofNat_length_le hfits.txIn)) ?_))
  · rw [hlen]
    exact toInt_length hfits.txIn
  · rw [toNat_length_of_le hfits.txIn]
    exact hread

theorem reads_decodeParts (recv : MsgTx) (hfits : msg.Fits) (hver : recv.version = msg.version)
    (htype : recv.serType = msg.serType) :
    ∃ x, msg.encodeParts = some x ∧ Reads recv.decodeParts x (msg.carried recv) := by
  unfold encodeParts decodeParts carried
  rw [htype]
  rcases hfits.known with h | h | h
  · have hno : msg.serType ≠ txSerializeOnlyWitness := by rw [h]; decide
    simp only [if_pos h]
    have hread := reads_prefix hfits hno (htype ▸ hno)
    rw [hver, htype] at hread
    exact ⟨_, rfl, hread⟩
  · have hno : msg.serType ≠ txSerializeNoWitness := by rw [h]; decide
    simp only [if_neg hno, if_pos h]
    have hread := reads_witness recv hfits hno
    rw [hver, htype] at hread
    exact ⟨_, rfl, hread⟩
  · have hno : msg.serType ≠ txSerializeNoWitness := by rw [h]; decide
    have hno' : msg.serType ≠ txSerializeOnlyWitness := by rw [h]; decide
    simp only [if_neg hno, if_neg hno', if_pos h]
    have hread := reads_prefix hfits hno' (htype ▸ hno')
    have hread' := reads_witness_full { msg with txIn := msg.txIn.map TxIn.prefixPart }
      hfits hno rfl
    rw [hver, htype] at hread
    exact ⟨_, rfl, hread.bind hread'⟩

/-- **A transaction within the limits is read back**, as far as its form carries it. -/
theorem reads_btcDecode (hfits : msg.Fits) (recv : MsgTx) :
    ∃ x, msg.btcEncode = some x ∧ Reads recv.btcDecode x (msg.carried recv) := by
  have hset := setVersion_serializedVersion msg recv
  obtain ⟨x, hx, hread⟩ := reads_decodeParts (recv.setVersion msg.serializedVersion) hfits
    (by rw [hset]) (by rw [hset])
  have hcarried : msg.carried (recv.setVersion msg.serializedVersion) = msg.carried recv := by
    rw [hset]
    rfl
  rw [hcarried] at hread
  exact ⟨_, by rw [btcEncode, hx]; rfl, (Reads.uint32 msg.serializedVersion).bind hread⟩

end MsgTx

/-! ## Only what is written is accepted -/

theorem accepts_outPoint : Accepts readOutPoint fun x op => x = writeOutPoint op := by
  refine accepts_hash.bind fun x hash hx => Accepts.uint32.bind fun y index hy =>
    .map (Accepts.uint8.mono fun z tree hz => ?_)
  subst hx hy hz
  rw [writeOutPoint, UInt8.toUInt8_toInt8]

theorem accepts_txInPrefix (serType : TxSerializeType) :
    Accepts (readTxInPrefix serType) fun x ti => x = writeTxInPrefix ti ∧ True := by
  refine Accepts.check.bind fun w _ ⟨hw, _⟩ => accepts_outPoint.bind fun x op hx =>
    .map (Accepts.uint32.mono fun y sequence hy => ?_)
  subst hw hx hy
  exact ⟨rfl, trivial⟩

theorem accepts_txInWitness : Accepts readTxInWitness fun x ti =>
      x = writeTxInWitness ti ∧ ti.signatureScript.length ≤ maxMessagePayload.toNat := by
  refine Accepts.int64.bind fun w valueIn hw => Accepts.uint32.bind fun x blockHeight hx =>
    Accepts.uint32.bind fun y blockIndex hy =>
    .map ((accepts_script _).mono fun z script ⟨hz, hlen⟩ => ?_)
  subst hw hx hy hz
  exact ⟨rfl, hlen⟩

theorem accepts_txOut :
    Accepts readTxOut fun x o => x = writeTxOut o ∧
      o.pkScript.length ≤ maxMessagePayload.toNat := by
  refine Accepts.int64.bind fun x value hx => Accepts.uint16.bind fun y version hy =>
    .map ((accepts_script _).mono fun z script ⟨hz, hlen⟩ => ?_)
  subst hx hy hz
  exact ⟨rfl, hlen⟩

namespace MsgTx

variable {msg recv : MsgTx} {ws : List TxIn}

/-- The limits of the prefix. -/
structure PrefixFits (msg : MsgTx) : Prop where
  txIn : msg.txIn.length ≤ maxTxInPerMessage.toNat
  txOut : msg.txOut.length ≤ maxTxOutPerMessage.toNat
  pkScripts : ∀ o ∈ msg.txOut, o.pkScript.length ≤ maxMessagePayload.toNat

/-- The limits of the witness. -/
structure WitnessFits (msg : MsgTx) : Prop where
  txIn : msg.txIn.length ≤ maxTxInPerMessage.toNat
  signatureScripts : ∀ ti ∈ msg.txIn, ti.signatureScript.length ≤ maxMessagePayload.toNat

variable (recv : MsgTx)

theorem accepts_of_isPrefix : Accepts recv.decodePrefix fun x msg =>
      x = msg.encodePrefix ∧ msg.PrefixFits ∧ msg.version = recv.version ∧
        msg.serType = recv.serType := by
  refine (accepts_list (accepts_txInPrefix _)).bind fun w txIn ⟨hw, hin, _⟩ =>
    (accepts_list accepts_txOut).bind fun x txOut ⟨hx, hout, hscripts⟩ =>
    Accepts.uint32.bind fun y lockTime hy => .map (Accepts.uint32.mono fun z expiry hz => ?_)
  subst hw hx hy hz
  exact ⟨rfl, ⟨hin, hout, hscripts⟩, rfl, rfl⟩

theorem accepts_witness : Accepts (recv.decodeWitness false) fun x msg =>
      x = msg.encodeWitness ∧ msg.WitnessFits ∧ msg.version = recv.version ∧
        msg.serType = recv.serType := by
  refine .map ((accepts_list accepts_txInWitness).mono fun x txIn ⟨hx, hin, hscripts⟩ => ?_)
  subst hx
  exact ⟨rfl, ⟨hin, hscripts⟩, rfl, rfl⟩

/-- A number that is compared as a signed one. -/
theorem toNat_of_toInt {count : UInt64} {n : Nat} (hle : count ≤ maxTxInPerMessage)
    (h : count.toInt64.toInt = n) : count.toNat = n := by
  have hint := toInt_length (UInt64.le_iff_toNat_le.1 hle)
  rw [UInt64.ofNat_toNat, h] at hint
  exact_mod_cast hint.symm

/-- The proofs go to the inputs that the prefix has, and nothing else changes. -/
theorem accepts_witness_full : Accepts (recv.decodeWitness true) fun x msg =>
      x = msg.encodeWitness ∧ msg.WitnessFits ∧
        ∃ ws, recv.txIn.length = ws.length ∧
          msg = { recv with txIn := recv.txIn.zipWith TxIn.withWitness ws } := by
  refine accepts_varInt.bind fun w count hw => Accepts.check.bind fun x _ ⟨hx, hint⟩ =>
    Accepts.check.bind fun y _ ⟨hy, hle⟩ =>
    .map ((accepts_txInWitness.many _).mono fun z ws ⟨hz, hlen, hscripts⟩ => ?_)
  have hcount : count.toNat = recv.txIn.length := toNat_of_toInt hle hint
  have hws : recv.txIn.length = ws.length := by rw [hlen, hcount]
  subst hw hx hy hz
  refine ⟨?_, ⟨?_, ?_⟩, ws, hws, rfl⟩
  · unfold encodeWitness
    rw [writeList_zipWith_right TxIn.writeTxInWitness_withWitness hws, writeList, hlen,
      UInt64.ofNat_toNat]
    rfl
  · rw [length_zipWith, ← hws, Nat.min_self, ← hcount]
    exact UInt64.le_iff_toNat_le.1 hle
  · intro ti hti
    obtain ⟨i, hi, rfl⟩ := getElem_of_mem hti
    rw [getElem_zipWith]
    rw [length_zipWith] at hi
    exact hscripts (ws[i]) (getElem_mem _)

/-- The prefix does not see the proofs of the inputs. -/
theorem encodePrefix_zipWith (h : msg.txIn.length = ws.length) :
    { msg with txIn := msg.txIn.zipWith TxIn.withWitness ws }.encodePrefix = msg.encodePrefix := by
  unfold encodePrefix
  rw [writeList_zipWith_left TxIn.writeTxInPrefix_withWitness h]

theorem PrefixFits.zipWith (hfits : msg.PrefixFits) (h : msg.txIn.length = ws.length) :
    { msg with txIn := msg.txIn.zipWith TxIn.withWitness ws }.PrefixFits := by
  refine ⟨?_, hfits.txOut, hfits.pkScripts⟩
  rw [length_zipWith, ← h, Nat.min_self]
  exact hfits.txIn

theorem accepts_decodeParts : Accepts recv.decodeParts fun x msg =>
      msg.encodeParts = some x ∧ msg.Fits ∧ msg.serializedVersion = recv.serializedVersion := by
  have hversion : ∀ msg : MsgTx, msg.version = recv.version → msg.serType = recv.serType →
      msg.serializedVersion = recv.serializedVersion := by
    intro msg hver htype
    rw [serializedVersion, serializedVersion, hver, htype]
  refine .ite (fun h => ?_) fun h₁ => .ite (fun h => ?_) fun h₂ => .ite (fun h => ?_) fun _ =>
    .failure
  · refine (accepts_of_isPrefix recv).mono fun x msg ⟨hx, hfits, hver, htype⟩ => ?_
    have hmsg := htype.trans h
    refine ⟨by rw [encodeParts, if_pos hmsg, hx], ⟨.inl hmsg, hfits.txIn, fun _ => hfits.txOut,
      fun _ => hfits.pkScripts, fun hne => absurd hmsg hne⟩, hversion msg hver htype⟩
  · refine (accepts_witness recv).mono fun x msg ⟨hx, hfits, hver, htype⟩ => ?_
    have hmsg := htype.trans h
    refine ⟨by rw [encodeParts, if_neg (htype ▸ h₁), if_pos hmsg, hx],
      ⟨.inr (.inl hmsg), hfits.txIn,
      fun hne => absurd hmsg hne, fun hne => absurd hmsg hne, fun _ => hfits.signatureScripts⟩,
      hversion msg hver htype⟩
  · refine (accepts_of_isPrefix recv).bind fun x mid ⟨hx, hpre, hver, htype⟩ =>
      (accepts_witness_full mid).mono fun y msg ⟨hy, hwit, ws, hlen, hmsg⟩ => ?_
    have hprefix : msg.encodePrefix = x := by rw [hmsg, encodePrefix_zipWith hlen, hx]
    have hpre' : msg.PrefixFits := hmsg ▸ hpre.zipWith hlen
    have hver' : msg.version = recv.version := by rw [hmsg, hver]
    have htype' : msg.serType = recv.serType := by rw [hmsg, htype]
    have hfull := htype'.trans h
    refine ⟨?_, ⟨.inr (.inr hfull), hpre'.txIn, fun _ => hpre'.txOut, fun _ => hpre'.pkScripts,
      fun _ => hwit.signatureScripts⟩, hversion msg hver' htype'⟩
    rw [encodeParts, if_neg (htype' ▸ h₁), if_neg (htype' ▸ h₂), if_pos hfull, hprefix, hy]

/-- **Only the bytes that are written for a transaction are accepted as that transaction.** -/
theorem accepts_btcDecode :
    Accepts recv.btcDecode fun x msg => msg.btcEncode = some x ∧ msg.Fits := by
  refine Accepts.uint32.bind fun x version hx =>
    (accepts_decodeParts _).mono fun y msg ⟨hy, hfits, hversion⟩ => ?_
  rw [serializedVersion_setVersion] at hversion
  refine ⟨?_, hfits⟩
  rw [btcEncode, hy, hversion, hx]
  rfl

/-! ### Sizes -/

theorem length_encodePrefix (msg : MsgTx) :
    msg.encodePrefix.length = 8 + varIntSerializeSize (UInt64.ofNat msg.txIn.length) +
      varIntSerializeSize (UInt64.ofNat msg.txOut.length) +
      (msg.txIn.map TxIn.serializeSizePrefix).sum + (msg.txOut.map TxOut.serializeSize).sum := by
  have hin : ∀ ti, (writeTxInPrefix ti).length = ti.serializeSizePrefix := by
    intro ti
    simp [writeTxInPrefix, writeOutPoint, putUint8, putUint32, ti.previousOutPoint.hash.size,
      hashSize, TxIn.serializeSizePrefix]
  have hout : ∀ o, (writeTxOut o).length = o.serializeSize := by
    intro o
    simp [writeTxOut, putInt64, putUint16, putUint64, TxOut.serializeSize]
    omega
  simp only [encodePrefix, length_append, length_writeList hin, length_writeList hout, putUint32,
    Bytes.length_putLE]
  omega

theorem length_encodeWitness (msg : MsgTx) :
    msg.encodeWitness.length = varIntSerializeSize (UInt64.ofNat msg.txIn.length) +
      (msg.txIn.map TxIn.serializeSizeWitness).sum := by
  refine length_writeList (fun ti => ?_) _
  simp [writeTxInWitness, putInt64, putUint32, putUint64, TxIn.serializeSizeWitness]
  omega

/-- **`SerializeSize` is the number of bytes.** -/
theorem length_btcEncode {x : List UInt8} (h : msg.btcEncode = some x) :
    msg.serializeSize = x.length := by
  obtain ⟨parts, hparts, hx⟩ := Option.bind_eq_some_iff.1 h
  cases hx
  unfold encodeParts at hparts
  rw [length_append, putUint32, Bytes.length_putLE]
  simp only [serializeSize]
  split_ifs at hparts ⊢ with h₁ h₂ h₃ <;> obtain rfl := Option.some.inj hparts
  · rw [length_encodePrefix]
    omega
  · rw [length_encodeWitness]
    omega
  · rw [length_append, length_encodePrefix, length_encodeWitness]
    omega

end MsgTx

end Fnod.Wire
