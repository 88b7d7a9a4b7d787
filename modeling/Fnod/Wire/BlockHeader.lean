import Fnod.Chaincfg.Chainhash
import Fnod.Lib.Canonical

/-!
# Package `wire`: block headers

A header has a fixed size, and its hash identifies the block. Times have a resolution of a second
and are stored as unsigned 32-bit numbers. The last field of the Go structure, `CodechainHead`, is
not part of the format and is left out.

**Theorem (`reads_header`, `accepts_header`).** A header that was written is read back, whatever
follows it, and only the bytes that are written for a header are read as that header.
-/

namespace Fnod

open Codec

structure BlockHeader where
  version : Int32
  prevBlock : Hash
  merkleRoot : Hash
  stakeRoot : Hash
  voteBits : UInt16
  finalState : Vector UInt8 6
  voters : UInt16
  freshStake : UInt8
  revocations : UInt8
  poolSize : UInt32
  bits : UInt32
  sbits : Int64
  height : UInt32
  size : UInt32
  /-- In seconds. -/
  timestamp : UInt32
  nonce : UInt32
  extraData : Vector UInt8 32
  stakeVersion : UInt32
deriving DecidableEq

def blockHeaderLen : Nat := 180

namespace BlockHeader

/-- `writeBlockHeader`. -/
def serialize (h : BlockHeader) : List UInt8 :=
  [putInt32 h.version, h.prevBlock.bytes, h.merkleRoot.bytes, h.stakeRoot.bytes,
    putUint16 h.voteBits, h.finalState.toList, putUint16 h.voters, putUint8 h.freshStake,
    putUint8 h.revocations, putUint32 h.poolSize, putUint32 h.bits, putInt64 h.sbits,
    putUint32 h.height, putUint32 h.size, putUint32 h.timestamp, putUint32 h.nonce,
    h.extraData.toList, putUint32 h.stakeVersion].flatten

def blockHash [Blake256] (h : BlockHeader) : Hash := Blake256.hashH h.serialize

end BlockHeader

def readHash : Reader Hash := do
  let b ← bytes hashSize
  ofOption (newHash b)

def readBlockHeader : Reader BlockHeader := do
  let version ← int32
  let prevBlock ← readHash
  let merkleRoot ← readHash
  let stakeRoot ← readHash
  let voteBits ← uint16
  let finalState ← array 6
  let voters ← uint16
  let freshStake ← uint8
  let revocations ← uint8
  let poolSize ← uint32
  let bits ← uint32
  let sbits ← int64
  let height ← uint32
  let size ← uint32
  let timestamp ← uint32
  let nonce ← uint32
  let extraData ← array 32
  let stakeVersion ← uint32
  pure ⟨version, prevBlock, merkleRoot, stakeRoot, voteBits, finalState, voters, freshStake,
    revocations, poolSize, bits, sbits, height, size, timestamp, nonce, extraData, stakeVersion⟩

theorem reads_hash (h : Hash) : Reads readHash h.bytes h := by
  have hread := (Reads.bytes h.size).bind (f := fun b => ofOption (newHash b))
    (.ofOption (newHash_bytes h))
  rwa [List.append_nil] at hread

/-- **A header is read back.** -/
theorem reads_header (h : BlockHeader) : Reads readBlockHeader h.serialize h :=
  .bind (.int32 _) <| .bind (reads_hash _) <| .bind (reads_hash _) <| .bind (reads_hash _) <|
  .bind (.uint16 _) <| .bind (.array _) <| .bind (.uint16 _) <| .bind (.uint8 _) <|
  .bind (.uint8 _) <| .bind (.uint32 _) <| .bind (.uint32 _) <| .bind (.int64 _) <|
  .bind (.uint32 _) <| .bind (.uint32 _) <| .bind (.uint32 _) <| .bind (.uint32 _) <|
  .bind (.array _) <| .bind (.uint32 _) <| .pure _

theorem accepts_hash : Accepts readHash fun x h => x = h.bytes := by
  refine (Accepts.bytes _).bind fun x b ⟨hx, _⟩ => Accepts.ofOption.mono fun y h ⟨hy, heq⟩ => ?_
  subst hx hy
  unfold newHash at heq
  split_ifs at heq
  cases heq
  exact List.append_nil x

/-- **A header has one form only.** -/
theorem accepts_header : Accepts readBlockHeader fun x h => x = h.serialize :=
  .bind .int32 fun _ _ h₁ => .bind accepts_hash fun _ _ h₂ => .bind accepts_hash fun _ _ h₃ =>
  .bind accepts_hash fun _ _ h₄ => .bind .uint16 fun _ _ h₅ => .bind (.array 6) fun _ _ h₆ =>
  .bind .uint16 fun _ _ h₇ => .bind .uint8 fun _ _ h₈ => .bind .uint8 fun _ _ h₉ =>
  .bind .uint32 fun _ _ h₁₀ => .bind .uint32 fun _ _ h₁₁ => .bind .int64 fun _ _ h₁₂ =>
  .bind .uint32 fun _ _ h₁₃ => .bind .uint32 fun _ _ h₁₄ => .bind .uint32 fun _ _ h₁₅ =>
  .bind .uint32 fun _ _ h₁₆ => .bind (.array 32) fun _ _ h₁₇ => .bind .uint32 fun _ _ h₁₈ =>
  .pure (by
    subst h₁ h₂ h₃ h₄ h₅ h₆ h₇ h₈ h₉ h₁₀ h₁₁ h₁₂ h₁₃ h₁₄ h₁₅ h₁₆ h₁₇ h₁₈
    rfl)

theorem BlockHeader.length_serialize (h : BlockHeader) : h.serialize.length = blockHeaderLen := by
  simp [BlockHeader.serialize, putInt32, putInt64, putUint8, putUint16, putUint32, putUint64,
    h.prevBlock.size, h.merkleRoot.size, h.stakeRoot.size, hashSize, blockHeaderLen]

end Fnod
