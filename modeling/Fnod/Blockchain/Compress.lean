import Fnod.Blockchain.Vlq
import Fnod.Chaincfg.Params
import Fnod.Fnoec.Secp256k1
import Fnod.Lib.Int64
import Fnod.Txscript.Standard

/-!
# `compress.go`: compressed scripts and amounts

Scripts of the standard forms are stored as a tag and the data that they pay to, other ones as they
are, with their length in front; tags and lengths share one number. An amount is stored as the
number of its trailing zeros and the digits before them.

Which form a script is stored in is told once (`putCompressedScript_compresses`), by an inductive
relation with one case for each form. What holds of all scripts is then proved case by case.

**Theorem (`compressScript_lossless`).** A stored script has the computed size, its size is found
again from its bytes, whatever follows them, and it is decompressed to the script that was stored.

**Theorem (`compressAmount_lossless`).** A stored amount is decompressed to itself, and nothing
wraps around on the way.
-/

namespace Fnod.Chainio

open Bytes List Option Secp256k1

/-- The errors of the functions that read and write stored data. -/
inductive CodecError where
  /-- `errDeserialize`. -/
  | errDeserialize (msg : String)
  /-- `AssertError`. -/
  | assertError (msg : String)
  /-- `ErrCorruption` of package `database`. -/
  | corruption (msg : String)
  /-- The error of a reader that has come to its end. -/
  | eof
deriving DecidableEq

/-! ## Scripts -/

def OP_DATA_33 : UInt8 := 0x21
def OP_DATA_65 : UInt8 := 0x41

def cstPayToPubKeyHash : Nat := 0
def cstPayToScriptHash : Nat := 1
def cstPayToPubKeyCompEven : Nat := 2
def cstPayToPubKeyCompOdd : Nat := 3
def cstPayToPubKeyUncompEven : Nat := 4
def cstPayToPubKeyUncompOdd : Nat := 5

def numSpecialScripts : Nat := 64

variable (script : List UInt8) {b : UInt8} {key compressed : List UInt8} {n : Nat}

def extractPubKeyHash : Option (List UInt8) :=
  framed [OP_DUP, OP_HASH160, OP_DATA_20] [OP_EQUALVERIFY, OP_CHECKSIG] 20 script

def extractScriptHash : Option (List UInt8) :=
  framed [OP_HASH160, OP_DATA_20] [OP_EQUAL] 20 script

/-- A valid key of the given size and one of the given formats that the script pays to. -/
def paysToPubKey (opData : UInt8) (size : Nat) (formats : List UInt8) (script : List UInt8) :
    Option (List UInt8) := do
  let serializedPubKey ← framed [opData] [OP_CHECKSIG] size script
  let format ← serializedPubKey.head?
  if format ∈ formats ∧ (parsePubKey serializedPubKey).isSome then some serializedPubKey else none

/-- `isPubKey`: the key, if the script is one. -/
def isPubKey : Option (List UInt8) :=
  (paysToPubKey OP_DATA_33 33 [0x02, 0x03] script).or (paysToPubKey OP_DATA_65 65 [0x04] script)

def compressedScriptSize (_scriptVersion : UInt16) (pkScript : List UInt8) : Nat :=
  if (extractPubKeyHash pkScript).isSome ∨ (extractScriptHash pkScript).isSome then 21
  else if (isPubKey pkScript).isSome then 33
  else serializeSizeVLQ (pkScript.length + numSpecialScripts) + pkScript.length

/-- `decodeCompressedScriptSize`. The size is computed in 64-bit arithmetic. -/
def decodeCompressedScriptSize (serialized : List UInt8) : Int :=
  let (scriptSize, bytesRead) := deserializeVLQ serialized
  if bytesRead = 0 then 0
  else if scriptSize = cstPayToPubKeyHash ∨ scriptSize = cstPayToScriptHash then 21
  else if scriptSize = cstPayToPubKeyCompEven ∨ scriptSize = cstPayToPubKeyCompOdd ∨
      scriptSize = cstPayToPubKeyUncompEven ∨ scriptSize = cstPayToPubKeyUncompOdd then 33
  else Int64.wrap (scriptSize - numSpecialScripts + bytesRead)

/-- The stored form of a key. -/
def compressPubKey (serializedPubKey : List UInt8) : Option (List UInt8) :=
  match serializedPubKey with
  | 0x02 :: rest => some (UInt8.ofNat cstPayToPubKeyCompEven :: rest.take 32)
  | 0x03 :: rest => some (UInt8.ofNat cstPayToPubKeyCompOdd :: rest.take 32)
  | 0x04 :: rest =>
    -- The last byte is the lowest one of the second coordinate.
    let odd := rest[63]?.any fun b => b &&& 0x01 = 0x01
    some (UInt8.ofNat (if odd then cstPayToPubKeyUncompOdd else cstPayToPubKeyUncompEven) ::
      rest.take 32)
  | _ => none

/-- `putCompressedScript`: the bytes that it writes. -/
def putCompressedScript (_scriptVersion : UInt16) (pkScript : List UInt8) : List UInt8 :=
  match extractPubKeyHash pkScript with
  | some hash => UInt8.ofNat cstPayToPubKeyHash :: hash
  | none =>
    match extractScriptHash pkScript with
    | some hash => UInt8.ofNat cstPayToScriptHash :: hash
    | none =>
      match (isPubKey pkScript).bind compressPubKey with
      | some compressed => compressed
      | none => putVLQ (pkScript.length + numSpecialScripts) ++ pkScript

def payToPubKeyHash (hash : List UInt8) : List UInt8 :=
  [OP_DUP, OP_HASH160, OP_DATA_20] ++ (hash ++ [OP_EQUALVERIFY, OP_CHECKSIG])

def payToScriptHash (hash : List UInt8) : List UInt8 :=
  [OP_HASH160, OP_DATA_20] ++ (hash ++ [OP_EQUAL])

/-- The script that pays to a key of 33 bytes. -/
def payToCompressedPubKey (format : UInt8) (x : List UInt8) : List UInt8 :=
  [OP_DATA_33] ++ (format :: x ++ [OP_CHECKSIG])

/-- The script that pays to a key of 65 bytes. -/
def payToUncompressedPubKey (key : List UInt8) : List UInt8 :=
  [OP_DATA_65] ++ (key ++ [OP_CHECKSIG])

/-- The bytes of the first coordinate that are copied, in a slice of 32 bytes. -/
def copy32 (src : List UInt8) : List UInt8 := src.take 32 ++ List.replicate (32 - src.length) 0

/-- `decompressScript`. It returns `nil` for a key that is not valid, and panics if there are not
enough bytes. -/
def decompressScript (compressedPkScript : List UInt8) : Except (Fault CodecError) (List UInt8) :=
  if compressedPkScript = [] then .ok []
  else do
    let (encodedScriptSize, bytesRead) := deserializeVLQ compressedPkScript
    if encodedScriptSize = cstPayToPubKeyHash then
      let hash ← Slice.slice compressedPkScript bytesRead (bytesRead + 20)
      .ok (payToPubKeyHash hash)
    else if encodedScriptSize = cstPayToScriptHash then
      let hash ← Slice.slice compressedPkScript bytesRead (bytesRead + 20)
      .ok (payToScriptHash hash)
    else if encodedScriptSize = cstPayToPubKeyCompEven ∨
        encodedScriptSize = cstPayToPubKeyCompOdd then
      let x ← Slice.slice compressedPkScript bytesRead (bytesRead + 32)
      .ok (payToCompressedPubKey (compressedFormat (encodedScriptSize = cstPayToPubKeyCompOdd)) x)
    else if encodedScriptSize = cstPayToPubKeyUncompEven ∨
        encodedScriptSize = cstPayToPubKeyUncompOdd then
      let oddness := compressedFormat (encodedScriptSize = cstPayToPubKeyUncompOdd)
      match parsePubKey (oddness :: copy32 (compressedPkScript.drop 1)) with
      | none => .ok []
      | some key => .ok (payToUncompressedPubKey key.serializeUncompressed)
    else
      let scriptSize := Int64.wrap (encodedScriptSize - numSpecialScripts)
      if scriptSize < 0 then .error .panic
      else Slice.slice compressedPkScript bytesRead (bytesRead + scriptSize.toNat)

/-! ### The forms -/

/-- The forms in which scripts are stored. -/
inductive Compresses : (script compressed : List UInt8) → Prop
  | pubKeyHash {hash : List UInt8} (hlen : hash.length = 20) :
      Compresses (payToPubKeyHash hash) (0x00 :: hash)
  | scriptHash {hash : List UInt8} (hlen : hash.length = 20) :
      Compresses (payToScriptHash hash) (0x01 :: hash)
  | compressedKey {x : List UInt8} (odd : Bool) (hlen : x.length = 32) :
      Compresses (payToCompressedPubKey (compressedFormat odd) x) (compressedFormat odd :: x)
  | uncompressedKey {x y : List UInt8} {key : PublicKey} (hx : x.length = 32) (hy : y.length = 32)
      (hparse : parsePubKey (0x04 :: (x ++ y)) = some key) :
      Compresses (payToUncompressedPubKey (0x04 :: (x ++ y)))
        ((if isOdd (getBE y) then 0x05 else 0x04) :: x)
  | other (script : List UInt8) :
      Compresses script (putVLQ (script.length + numSpecialScripts) ++ script)

theorem paysToPubKey_eq_some {opData : UInt8} {size : Nat} {formats script : List UInt8}
    (h : paysToPubKey opData size formats script = some key) :
    script = [opData] ++ (key ++ [OP_CHECKSIG]) ∧ key.length = size ∧
      (∃ format ∈ formats, key.head? = some format) ∧ (parsePubKey key).isSome := by
  unfold paysToPubKey at h
  simp only [bind_eq_bind, bind_eq_some_iff, framed_eq_some] at h
  obtain ⟨key', ⟨hscript, hlen⟩, format, hhead, h⟩ := h
  split_ifs at h with hvalid
  cases h
  exact ⟨hscript, hlen, ⟨format, hvalid.1, hhead⟩, hvalid.2⟩

/-- The last byte tells the parity of the number. -/
theorem isOdd_getBE {y : List UInt8} (hy : y.length = n + 1) :
    isOdd (getBE y) = y[n]?.any fun b => b &&& 0x01 = 0x01 := by
  obtain ⟨init, b, rfl⟩ : ∃ init b, y = init ++ [b] :=
    ⟨_, _, (dropLast_append_getLast (ne_nil_of_length_eq_add_one hy)).symm⟩
  have hn : init.length = n := by simpa using hy
  have hvalue : getBE (init ++ [b]) = b.toNat + 256 * getLE init.reverse := by
    simp [getBE, getLE]
  have hbit : b &&& 0x01 = 0x01 ↔ b.toNat % 2 = 1 := by
    rw [← UInt8.toNat_inj, UInt8.toNat_and]
    exact (Nat.and_one_is_mod b.toNat).symm ▸ Iff.rfl
  have hparity : (b.toNat + 256 * getLE init.reverse) % 2 = b.toNat % 2 := by omega
  rw [hvalue, isOdd, hparity, ← hn, List.getElem?_concat_length]
  simp [hbit]

theorem isPubKey_compresses {script : List UInt8} (h : isPubKey script = some key) :
    ∃ compressed, compressPubKey key = some compressed ∧ compressed.length = 33 ∧
      Compresses script compressed := by
  rcases or_eq_some_iff.1 h with h | ⟨-, h⟩
  · obtain ⟨rfl, hlen, ⟨format, hformat, hhead⟩, -⟩ := paysToPubKey_eq_some h
    obtain ⟨x, rfl⟩ : ∃ x, key = format :: x := ⟨key.tail, eq_cons_of_mem_head? hhead⟩
    have hx : x.length = 32 := by simpa using hlen
    have htake : x.take 32 = x := take_of_length_le hx.le
    rcases mem_pair.1 hformat with rfl | rfl
    · exact ⟨_, congrArg (fun l => some (0x02 :: l)) htake, hlen, .compressedKey false hx⟩
    · exact ⟨_, congrArg (fun l => some (0x03 :: l)) htake, hlen, .compressedKey true hx⟩
  · obtain ⟨rfl, hlen, ⟨format, hformat, hhead⟩, hparse⟩ := paysToPubKey_eq_some h
    obtain ⟨xy, rfl⟩ : ∃ xy, key = format :: xy := ⟨key.tail, eq_cons_of_mem_head? hhead⟩
    obtain rfl := mem_singleton.1 hformat
    obtain ⟨pubkey, hpubkey⟩ := isSome_iff_exists.1 hparse
    have hxy : xy.length = 64 := by simpa using hlen
    obtain ⟨x, y, rfl, hx, hy⟩ : ∃ x y, xy = x ++ y ∧ x.length = 32 ∧ y.length = 32 :=
      ⟨xy.take 32, xy.drop 32, (take_append_drop 32 xy).symm, by simp [hxy], by simp [hxy]⟩
    refine ⟨_, rfl, by simp [hx], ?_⟩
    have hlast : (x ++ y)[63]? = y[31]? := by
      rw [List.getElem?_append_right (by omega), hx]
    have hform := Compresses.uncompressedKey hx hy hpubkey
    rw [isOdd_getBE hy, ← hlast] at hform
    rw [take_left' hx]
    rw [apply_ite UInt8.ofNat]
    exact hform

/-- **The form that a script is stored in.** -/
theorem putCompressedScript_compresses (scriptVersion : UInt16) (script : List UInt8) :
    Compresses script (putCompressedScript scriptVersion script) := by
  unfold putCompressedScript
  cases hhash : extractPubKeyHash script with
  | some hash =>
    obtain ⟨rfl, hlen⟩ := framed_eq_some.1 hhash
    exact .pubKeyHash hlen
  | none =>
    cases hscript : extractScriptHash script with
    | some hash =>
      obtain ⟨rfl, hlen⟩ := framed_eq_some.1 hscript
      exact .scriptHash hlen
    | none =>
      cases hkey : isPubKey script with
      | some key =>
        obtain ⟨compressed, hcompressed, -, hform⟩ := isPubKey_compresses hkey
        simpa [hcompressed] using hform
      | none => exact .other script

/-- **The size** is the number of the bytes. -/
theorem length_putCompressedScript (scriptVersion : UInt16) (script : List UInt8) :
    (putCompressedScript scriptVersion script).length =
      compressedScriptSize scriptVersion script := by
  unfold putCompressedScript compressedScriptSize
  cases hhash : extractPubKeyHash script with
  | some hash => simp [(framed_eq_some.1 hhash).2]
  | none =>
    cases hscript : extractScriptHash script with
    | some hash => simp [(framed_eq_some.1 hscript).2]
    | none =>
      cases hkey : isPubKey script with
      | some key =>
        obtain ⟨compressed, hcompressed, hlen, -⟩ := isPubKey_compresses hkey
        simp [hcompressed, hlen]
      | none => simp [length_putVLQ]

theorem deserializeVLQ_tag (hb : b.toNat < 128) (rest : List UInt8) :
    deserializeVLQ (b :: rest) = (b.toNat, 1) := by
  have hvalue : (0 * 128 + b.toNat % 128) % 2 ^ 64 = b.toNat := by omega
  unfold deserializeVLQ deserializeVLQLoop
  rw [if_pos hb, hvalue]

theorem decodeCompressedScriptSize_tag (hb : b.toNat < 6) (rest : List UInt8) :
    decodeCompressedScriptSize (b :: rest) = if b.toNat ≤ 1 then 21 else 33 := by
  unfold decodeCompressedScriptSize
  rw [deserializeVLQ_tag (by omega)]
  generalize b.toNat = n at hb
  interval_cases n <;> rfl

theorem putVLQ_length_pos (n : Nat) : 0 < (putVLQ n).length :=
  length_pos_of_ne_nil (putVLQ_ne_nil n)

/-- The number before a script that is stored as it is is no tag. -/
theorem ne_tag (script : List UInt8) (tag : Nat) (h : tag < 6) :
    script.length + numSpecialScripts ≠ tag := by
  unfold numSpecialScripts
  omega

/-- **The size of a stored script** is found from its bytes. -/
theorem Compresses.size {script : List UInt8} (h : Compresses script compressed)
    (hfits : compressed.length < 2 ^ 63) (rest : List UInt8) :
    decodeCompressedScriptSize (compressed ++ rest) = compressed.length := by
  cases h with
  | pubKeyHash hlen =>
    rw [cons_append, decodeCompressedScriptSize_tag (by decide), length_cons, hlen]
    rfl
  | scriptHash hlen =>
    rw [cons_append, decodeCompressedScriptSize_tag (by decide), length_cons, hlen]
    rfl
  | compressedKey odd hlen =>
    have htag : (compressedFormat odd).toNat = if odd then 3 else 2 := by cases odd <;> rfl
    rw [cons_append, decodeCompressedScriptSize_tag (by grind), length_cons, hlen,
      if_neg (by grind)]
    rfl
  | @uncompressedKey x y key hx hy hparse =>
    rw [cons_append, decodeCompressedScriptSize_tag (by split_ifs <;> decide), length_cons, hx,
      if_neg (by split_ifs <;> decide)]
    rfl
  | other script =>
    rw [length_append] at hfits
    have hpos := putVLQ_length_pos (script.length + numSpecialScripts)
    unfold decodeCompressedScriptSize
    rw [append_assoc, deserializeVLQ_putVLQ (by unfold numSpecialScripts; omega)]
    dsimp only
    have htag := ne_tag script
    rw [if_neg (by omega), if_neg (not_or.2 ⟨htag _ (by decide), htag _ (by decide)⟩),
      if_neg (by simp [htag, cstPayToPubKeyCompEven, cstPayToPubKeyCompOdd,
        cstPayToPubKeyUncompEven, cstPayToPubKeyUncompOdd]), Int64.wrap_of_inRange]
    · rw [length_append]
      push_cast
      ring
    · unfold Int64.InRange
      omega

theorem slice_after_tag {x : List UInt8} (hlen : x.length = n) :
    (Slice.slice (b :: x) 1 (1 + n) : Except (Fault CodecError) (List UInt8)) = .ok x := by
  subst hlen
  rw [Slice.slice_eq (by omega) (by simp [add_comm]), take_of_length_le (by simp [add_comm])]
  rfl

/-- **A stored script** is decompressed to the script that was stored. -/
theorem Compresses.decompress {script : List UInt8} (h : Compresses script compressed)
    (hfits : compressed.length < 2 ^ 63) : decompressScript compressed = .ok script := by
  unfold decompressScript
  cases h with
  | pubKeyHash hlen =>
    rw [if_neg (cons_ne_nil _ _), deserializeVLQ_tag (by decide)]
    simp only [slice_after_tag hlen]
    rfl
  | scriptHash hlen =>
    rw [if_neg (cons_ne_nil _ _), deserializeVLQ_tag (by decide)]
    simp only [slice_after_tag hlen]
    rfl
  | compressedKey odd hlen =>
    rw [if_neg (cons_ne_nil _ _), deserializeVLQ_tag (by cases odd <;> decide)]
    simp only [slice_after_tag hlen]
    cases odd <;> rfl
  | @uncompressedKey x y key hx hy hparse =>
    obtain ⟨hcompressed, hwritten⟩ := parsePubKey_uncompressed hx hy hparse
    have hcopy : copy32 x = x := by
      rw [copy32, hx, Nat.sub_self, replicate_zero, append_nil, take_of_length_le hx.le]
    rw [if_neg (cons_ne_nil _ _), deserializeVLQ_tag (by split_ifs <;> decide)]
    have hkey : (match parsePubKey (compressedFormat (isOdd (getBE y)) :: copy32 x) with
        | none => .ok []
        | some key => .ok (payToUncompressedPubKey key.serializeUncompressed) :
          Except (Fault CodecError) (List UInt8)) =
        .ok (payToUncompressedPubKey (0x04 :: (x ++ y))) := by
      rw [hcopy, hcompressed, ← hwritten]
    cases hodd : isOdd (getBE y) with
    | false =>
      rw [hodd] at hkey
      exact hkey
    | true =>
      rw [hodd] at hkey
      exact hkey
  | other script =>
    rw [length_append] at hfits
    have hsize : Int64.wrap
        (((script.length + numSpecialScripts : Nat) : Int) - numSpecialScripts) =
        script.length := by
      rw [Int64.wrap_of_inRange] <;> [skip; unfold Int64.InRange] <;> push_cast <;> omega
    rw [if_neg (by simp [putVLQ_ne_nil]),
      deserializeVLQ_putVLQ (by unfold numSpecialScripts; omega)]
    simp only [hsize]
    have htag := ne_tag script
    have hslice := @Slice.slice_eq CodecError UInt8
      (putVLQ (script.length + numSpecialScripts) ++ script) _ _
      (Nat.le_add_right (putVLQ (script.length + numSpecialScripts)).length script.length)
      (length_append ..).ge
    rw [if_neg (htag _ (by decide)), if_neg (htag _ (by decide)),
      if_neg (not_or.2 ⟨htag _ (by decide), htag _ (by decide)⟩),
      if_neg (not_or.2 ⟨htag _ (by decide), htag _ (by decide)⟩), if_neg (by omega),
      Int.toNat_natCast, hslice, take_of_length_le (length_append ..).le, drop_left]

/-- **Script compression is lossless**, for every script whose stored size is an `int`. -/
theorem compressScript_lossless (scriptVersion : UInt16) (script : List UInt8)
    (hfits : compressedScriptSize scriptVersion script < 2 ^ 63) :
    (putCompressedScript scriptVersion script).length = compressedScriptSize scriptVersion script ∧
      (∀ rest, decodeCompressedScriptSize (putCompressedScript scriptVersion script ++ rest) =
        compressedScriptSize scriptVersion script) ∧
      decompressScript (putCompressedScript scriptVersion script) = .ok script := by
  have hform := putCompressedScript_compresses scriptVersion script
  have hlen := length_putCompressedScript scriptVersion script
  rw [← hlen] at hfits ⊢
  exact ⟨rfl, fun rest => hform.size hfits rest, hform.decompress hfits⟩

/-- The generator of the curve, with both coordinates. -/
def generatorKey : List UInt8 :=
  0x04 :: (putBE 32 0x79BE667EF9DCBBAC55A06295CE870B07029BFCDB2DCE28D959F2815B16F81798 ++
    putBE 32 0x483ADA7726A3C4655DA4FBFC0E1108A8FD17B448A68554199C47D08FFB10D4B8)

theorem compressScript_lossless_generator :
    compressedScriptSize 0 (payToUncompressedPubKey generatorKey) = 33 ∧
      decompressScript (putCompressedScript 0 (payToUncompressedPubKey generatorKey)) =
        .ok (payToUncompressedPubKey generatorKey) :=
  have hsize : compressedScriptSize 0 (payToUncompressedPubKey generatorKey) = 33 := by
    decide +kernel
  ⟨hsize, (compressScript_lossless 0 _ (by rw [hsize]; decide)).2.2⟩

/-! ## Amounts -/

/-- The result of an operation on 64-bit numbers. -/
def wrapUint64 (x : Int) : Id Nat := (x % 2 ^ 64).toNat

/-- A machine that stops where the 64-bit one would wrap around. -/
def checkUint64 (x : Int) : Option Nat := if 0 ≤ x ∧ x < 2 ^ 64 then some x.toNat else none

section Amounts

variable {m : Type → Type} [Monad m] (ar : Int → m Nat)

/-- The largest power of ten, up to the ninth, that divides the amount, and the quotient. -/
def stripZeros : (fuel amount exponent : Nat) → Nat × Nat
  | 0, amount, exponent => (amount, exponent)
  | fuel + 1, amount, exponent =>
    if amount % 10 = 0 then stripZeros fuel (amount / 10) (exponent + 1) else (amount, exponent)

/-- `compressTxOutAmount`, over a machine. -/
def compressAmountOn (amount : Nat) : m Nat :=
  if amount = 0 then pure 0
  else do
    let (amount, exponent) := stripZeros 9 amount 0
    if exponent < 9 then
      let lastDigit := amount % 10
      let amount := amount / 10
      let digits ← ar (9 * amount)
      let digits ← ar (digits + lastDigit)
      let digits ← ar (digits - 1)
      let digits ← ar (10 * digits)
      let digits ← ar (1 + digits)
      ar (digits + exponent)
    else
      let digits ← ar (amount - 1)
      let digits ← ar (10 * digits)
      ar (10 + digits)

/-- The loop of `decompressTxOutAmount`. -/
def applyExponent : (exponent n : Nat) → m Nat
  | 0, n => pure n
  | exponent + 1, n => do
    let n ← ar (n * 10)
    applyExponent exponent n

/-- `decompressTxOutAmount`, over a machine. -/
def decompressAmountOn (amount : Nat) : m Nat :=
  if amount = 0 then pure 0
  else do
    let amount ← ar (amount - 1)
    let exponent := amount % 10
    let amount := amount / 10
    if exponent < 9 then
      let lastDigit := amount % 9 + 1
      let amount := amount / 9
      let n ← ar (amount * 10)
      let n ← ar (n + lastDigit)
      applyExponent ar exponent n
    else
      let n ← ar (amount + 1)
      applyExponent ar exponent n

end Amounts

def compressTxOutAmount (amount : Nat) : Nat := compressAmountOn wrapUint64 amount

def decompressTxOutAmount (amount : Nat) : Nat := decompressAmountOn wrapUint64 amount

theorem stripZeros_spec (fuel amount exponent : Nat) : ∃ n k, k ≤ fuel ∧
    stripZeros fuel amount exponent = (n, exponent + k) ∧ amount = n * 10 ^ k ∧
      (k < fuel → n % 10 ≠ 0) := by
  induction fuel generalizing amount exponent with
  | zero => exact ⟨amount, 0, le_rfl, rfl, by simp, by simp⟩
  | succ fuel ih =>
    unfold stripZeros
    split_ifs with hzero
    · obtain ⟨n, k, hk, hstrip, hamount, hlast⟩ := ih (amount / 10) (exponent + 1)
      refine ⟨n, k + 1, by omega, by rw [hstrip]; congr 1; omega, ?_, fun h => hlast (by omega)⟩
      rw [Nat.pow_succ, ← Nat.mul_assoc, ← hamount]
      omega
    · exact ⟨amount, 0, Nat.zero_le _, rfl, by simp, fun _ => hzero⟩

section Machine

variable {m : Type → Type} [Monad m] [LawfulMonad m] {ar : Int → m Nat} {n k : Nat}

/-- The machine computes what fits into 64 bits. -/
def RightOnUint64 (ar : Int → m Nat) : Prop :=
  ∀ (x : Int) (y : Nat), x = y → y < 2 ^ 64 → ar x = pure y

/-- The stored amount, by its trailing zeros. -/
def storedAmount (n k : Nat) : Nat :=
  if k < 9 then 10 * (9 * (n / 10) + n % 10 - 1) + k + 1 else 10 * n

theorem compressAmountOn_eq (har : RightOnUint64 ar) (hpos : amount ≠ 0)
    (hlt : amount < 2 ^ 60) (hstrip : stripZeros 9 amount 0 = (n, k)) (hk : k ≤ 9)
    (hamount : amount = n * 10 ^ k) (hlast : k < 9 → n % 10 ≠ 0) :
    compressAmountOn ar amount = pure (storedAmount n k) := by
  have hn : n ≤ amount := by
    rw [hamount]
    exact Nat.le_mul_of_pos_right n (Nat.pow_pos (by decide))
  have hnpos : n ≠ 0 := by
    rintro rfl
    simp at hamount
    exact hpos hamount
  unfold compressAmountOn storedAmount
  rw [if_neg hpos, hstrip]
  dsimp only
  split_ifs with hk9
  · have hdigit := hlast hk9
    rw [har _ (9 * (n / 10)) (by omega) (by omega), pure_bind,
      har _ (9 * (n / 10) + n % 10) (by omega) (by omega), pure_bind,
      har _ (9 * (n / 10) + n % 10 - 1) (by omega) (by omega), pure_bind,
      har _ (10 * (9 * (n / 10) + n % 10 - 1)) (by omega) (by omega), pure_bind,
      har _ (1 + 10 * (9 * (n / 10) + n % 10 - 1)) (by omega) (by omega), pure_bind,
      har _ (10 * (9 * (n / 10) + n % 10 - 1) + k + 1) (by omega) (by omega)]
  · rw [har _ (n - 1) (by omega) (by omega), pure_bind, har _ (10 * (n - 1)) (by omega) (by omega),
      pure_bind, har _ (10 * n) (by omega) (by omega)]

theorem applyExponent_eq (har : RightOnUint64 ar) {exponent : Nat}
    (hlt : n * 10 ^ exponent < 2 ^ 64) :
    applyExponent ar exponent n = pure (n * 10 ^ exponent) := by
  induction exponent generalizing n with
  | zero => simp [applyExponent]
  | succ exponent ih =>
    rw [Nat.pow_succ', ← Nat.mul_assoc] at hlt ⊢
    have hle : n * 10 ≤ n * 10 * 10 ^ exponent :=
      Nat.le_mul_of_pos_right _ (Nat.pow_pos (by decide))
    rw [applyExponent, har _ (n * 10) (by omega) (by omega), pure_bind, ih hlt]

theorem decompressAmountOn_eq (har : RightOnUint64 ar) (hpos : n ≠ 0) (hk : k ≤ 9)
    (hlt : n * 10 ^ k < 2 ^ 60) (hlast : k < 9 → n % 10 ≠ 0) :
    decompressAmountOn ar (storedAmount n k) = pure (n * 10 ^ k) := by
  have hn : n ≤ n * 10 ^ k := Nat.le_mul_of_pos_right n (Nat.pow_pos (by decide))
  unfold decompressAmountOn storedAmount
  by_cases hk9 : k < 9
  · have hdigit := hlast hk9
    simp only [if_pos hk9]
    rw [if_neg (by omega), har _ (10 * (9 * (n / 10) + n % 10 - 1) + k) (by omega) (by omega),
      pure_bind]
    have hexponent : (10 * (9 * (n / 10) + n % 10 - 1) + k) % 10 = k := by omega
    have hdigits : (10 * (9 * (n / 10) + n % 10 - 1) + k) / 10 = 9 * (n / 10) + n % 10 - 1 := by
      omega
    simp only [hexponent, hdigits, if_pos hk9]
    rw [har _ (n / 10 * 10) (by omega) (by omega), pure_bind, har _ n (by omega) (by omega),
      pure_bind, applyExponent_eq har (by omega)]
  · obtain rfl : k = 9 := by omega
    simp only [lt_irrefl, if_false]
    rw [if_neg (by omega), har _ (10 * n - 1) (by omega) (by omega), pure_bind]
    have hexponent : (10 * n - 1) % 10 = 9 := by omega
    have hdigits : (10 * n - 1) / 10 = n - 1 := by omega
    simp only [hexponent, hdigits, lt_irrefl, if_false]
    rw [har _ n (by omega) (by omega), pure_bind, applyExponent_eq har (by omega)]

end Machine

theorem rightOnUint64_wrap : RightOnUint64 wrapUint64 := by
  rintro x y rfl hy
  show ((y : Int) % 2 ^ 64).toNat = y
  omega

theorem rightOnUint64_check : RightOnUint64 checkUint64 := by
  rintro x y rfl hy
  unfold checkUint64
  rw [if_pos (by omega), Int.toNat_natCast]
  rfl

variable {amount : Nat}

/-- An amount and its trailing zeros. -/
theorem exists_stripped (hpos : amount ≠ 0) : ∃ n k, n ≠ 0 ∧ k ≤ 9 ∧
    stripZeros 9 amount 0 = (n, k) ∧ amount = n * 10 ^ k ∧ (k < 9 → n % 10 ≠ 0) := by
  obtain ⟨n, k, hk, hstrip, hamount, hlast⟩ := stripZeros_spec 9 amount 0
  rw [zero_add] at hstrip
  refine ⟨n, k, ?_, hk, hstrip, hamount, hlast⟩
  rintro rfl
  rw [zero_mul] at hamount
  exact hpos hamount

/-- **Both machines** compress and decompress an amount alike. -/
theorem amount_roundTrip {m : Type → Type} [Monad m] [LawfulMonad m] {ar : Int → m Nat}
    (har : RightOnUint64 ar) (hlt : amount < 2 ^ 60) :
    compressAmountOn ar amount = pure (compressTxOutAmount amount) ∧
      decompressAmountOn ar (compressTxOutAmount amount) = pure amount ∧
      compressTxOutAmount amount ≤ 10 * amount + 10 := by
  by_cases hpos : amount = 0
  · subst hpos
    exact ⟨rfl, rfl, by decide⟩
  · obtain ⟨n, k, hn, hk, hstrip, hamount, hlast⟩ := exists_stripped hpos
    have hle : n ≤ n * 10 ^ k := Nat.le_mul_of_pos_right n (Nat.pow_pos (by decide))
    have hstored : compressTxOutAmount amount = storedAmount n k :=
      compressAmountOn_eq rightOnUint64_wrap hpos hlt hstrip hk hamount hlast
    rw [hstored]
    refine ⟨compressAmountOn_eq har hpos hlt hstrip hk hamount hlast, ?_, ?_⟩
    · rw [decompressAmountOn_eq har hn hk (hamount ▸ hlt) hlast, hamount]
    · unfold storedAmount
      split_ifs <;> omega

theorem decompressTxOutAmount_compress (hlt : amount < 2 ^ 60) :
    decompressTxOutAmount (compressTxOutAmount amount) = amount :=
  (amount_roundTrip rightOnUint64_wrap hlt).2.1

/-- **Amount compression is lossless**, and nothing wraps around. -/
theorem compressAmount_lossless (amount : Nat) (h : amount ≤ maxAmount) :
    decompressTxOutAmount (compressTxOutAmount amount) = amount ∧
      compressAmountOn checkUint64 amount = some (compressTxOutAmount amount) ∧
      decompressAmountOn checkUint64 (compressTxOutAmount amount) = some amount ∧
      (∀ amount' : Nat, amount' ≤ maxAmount →
        compressTxOutAmount amount = compressTxOutAmount amount' → amount = amount') ∧
      compressTxOutAmount amount ≤ 10 * amount + 10 := by
  have hmax : maxAmount = 2100000000000000 := rfl
  have hlt : amount < 2 ^ 60 := by omega
  obtain ⟨hcompress, hdecompress, hle⟩ := amount_roundTrip rightOnUint64_check hlt
  refine ⟨decompressTxOutAmount_compress hlt, hcompress, hdecompress, fun amount' h' heq => ?_, hle⟩
  have hlt' : amount' < 2 ^ 60 := by omega
  rw [← decompressTxOutAmount_compress hlt, heq, decompressTxOutAmount_compress hlt']

theorem compressAmount_lossless_maxAmount :
    decompressTxOutAmount (compressTxOutAmount 2100000000000000) = 2100000000000000 :=
  (compressAmount_lossless 2100000000000000 (by decide)).1

end Fnod.Chainio
