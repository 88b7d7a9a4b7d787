import Fnod.Lib.BitStream
import Fnod.Lib.Slice

/-!
# `bits.go`: writing and reading bits

The writer and the reader keep bytes and a mask for the next bit of the last, or the first, byte.
What was written is a list of bits (`Written`), and so is what is left to read (`Left`); each
function is described by what it does to these lists.
-/

namespace Fnod.Gcs

open BitStream Except List

/-- The errors of the package. -/
inductive GcsError where
  | eof
  | noData
  | nTooBig
  | pTooBig
  | misserialized
deriving DecidableEq

/-! ## The writer -/

/-- `bitWriter`. The pointer `p` is to the last byte. -/
structure BitWriter where
  bytes : List UInt8
  next : UInt8

namespace BitWriter

variable (b : BitWriter)

def writeOne : BitWriter :=
  if b.next = 0 then ⟨b.bytes ++ [0x80], 0x40⟩
  else
    match b.bytes.getLast? with
    | none => b
    | some p => ⟨b.bytes.dropLast ++ [p ||| b.next], b.next >>> 1⟩

def writeZero : BitWriter :=
  if b.next = 0 then ⟨b.bytes ++ [0], 0x40⟩ else ⟨b.bytes, b.next >>> 1⟩

/-- One bit of a number, from its highest place. -/
def writeTop (data : Nat) : BitWriter :=
  if data.testBit 63 then b.writeOne else b.writeZero

/-- The first loop of `writeNBits`, which fills a byte. -/
def writePartial : Nat → Nat → BitWriter → Nat × Nat × BitWriter
  | 0, data, b => (0, data, b)
  | n + 1, data, b =>
    if b.next = 0 then (n + 1, data, b) else writePartial n (data * 2 % 2 ^ 64) (b.writeTop data)

/-- The second loop, for whole bytes. -/
def writeWhole : Nat → Nat → BitWriter → Nat × Nat × BitWriter
  | n + 8, data, b =>
    writeWhole n (data * 2 ^ 8 % 2 ^ 64) ⟨b.bytes ++ [UInt8.ofNat (data / 2 ^ 56)], b.next⟩
  | n, data, b => (n, data, b)

/-- The third loop. -/
def writeRest : Nat → Nat → BitWriter → BitWriter
  | 0, _, b => b
  | n + 1, data, b => writeRest n (data * 2 % 2 ^ 64) (b.writeTop data)

/-- `writeNBits`, for at most 64 bits. -/
def writeNBits (data n : Nat) : BitWriter :=
  let (n, data, b) := writePartial n (data * 2 ^ (64 - n) % 2 ^ 64) b
  if n = 0 then b
  else
    let (n, data, b) := writeWhole n data b
    writeRest n data b

/-- What was written. The rest of the last byte is zero. -/
def Written (bits : List Bool) : Prop :=
  ∃ k < 8, b.next = maskOf k ∧ stream b.bytes = bits ++ List.replicate k false

variable {b : BitWriter} {bits : List Bool} {data n : Nat}

theorem Written.writeZero (h : b.Written bits) : b.writeZero.Written (bits ++ [false]) := by
  obtain ⟨k, hk, hnext, hstream⟩ := h
  unfold BitWriter.writeZero
  cases k with
  | zero =>
    rw [if_pos (show b.next = 0 from hnext)]
    refine ⟨7, by omega, rfl, ?_⟩
    rw [stream_append, hstream]
    simp [stream, bitsBE]
  | succ k =>
    rw [if_neg (hnext ▸ maskOf_ne_zero (by omega))]
    refine ⟨k, by omega, by rw [hnext, maskOf_shift (by omega)], ?_⟩
    rw [hstream, replicate_succ, append_assoc, singleton_append]

theorem Written.writeOne (h : b.Written bits) : b.writeOne.Written (bits ++ [true]) := by
  obtain ⟨k, hk, hnext, hstream⟩ := h
  unfold BitWriter.writeOne
  cases k with
  | zero =>
    rw [if_pos (show b.next = 0 from hnext)]
    refine ⟨7, by omega, rfl, ?_⟩
    rw [stream_append, hstream, show stream [0x80] = true :: replicate 7 false by decide]
    simp
  | succ k =>
    rw [if_neg (hnext ▸ maskOf_ne_zero (by omega))]
    rcases eq_nil_or_concat b.bytes with hnil | ⟨front, p, hp⟩
    · rw [hnil] at hstream
      simp at hstream
    rw [concat_eq_append] at hp
    rw [hp, stream_append, stream_cons, stream_nil, append_nil] at hstream
    -- the last bits of the last byte are zero, and the others were written
    have hlen := congrArg List.length hstream
    simp only [length_append, length_bitsBE, length_replicate] at hlen
    have hsplit : bits = stream front ++ (bitsBE 8 p.toNat).take (7 - k) ∧
        (bitsBE 8 p.toNat).drop (7 - k) = replicate (k + 1) false := by
      rw [← take_append_drop (7 - k) (bitsBE 8 p.toNat), ← append_assoc] at hstream
      refine append_inj hstream ?_ |>.imp Eq.symm id
      simp
      omega
    rw [hp, getLast?_concat, dropLast_concat]
    refine ⟨k, by omega, by rw [hnext]; exact maskOf_shift (by omega), ?_⟩
    rw [stream_append, stream_cons, stream_nil, append_nil, hnext,
      bitsBE_or_maskOf (by omega) hsplit.2, hsplit.1, append_assoc, append_assoc,
      singleton_append]

theorem Written.writeTop (h : b.Written bits) (data : Nat) :
    (b.writeTop data).Written (bits ++ [data.testBit 63]) := by
  unfold BitWriter.writeTop
  cases data.testBit 63 with
  | false => exact h.writeZero
  | true => exact h.writeOne

/-- A number of `n` bits at the top of 64 bits. -/
def shifted (data n : Nat) : Nat := data * 2 ^ (64 - n) % 2 ^ 64

theorem shifted_mul (data : Nat) {j : Nat} (h : n + j ≤ 64) :
    shifted data (n + j) * 2 ^ j % 2 ^ 64 = shifted data n := by
  unfold shifted
  rw [Nat.mod_mul_mod, mul_assoc, ← pow_add, show 64 - (n + j) + j = 64 - n by omega]

theorem testBit_shifted (data : Nat) {i : Nat} (hi : 64 - n ≤ i) (hlt : i < 64) :
    (shifted data n).testBit i = data.testBit (i - (64 - n)) := by
  rw [shifted, Nat.testBit_mod_two_pow, Nat.testBit_mul_two_pow]
  simp [hi, hlt]

theorem bitsBE_shifted (h : n + 8 ≤ 64) :
    bitsBE 8 (UInt8.ofNat (shifted data (n + 8) / 2 ^ 56)).toNat = bitsBE 8 (data / 2 ^ n) := by
  have hlt : shifted data (n + 8) / 2 ^ 56 < 256 := by
    have : shifted data (n + 8) < 2 ^ 64 := Nat.mod_lt _ (by decide)
    omega
  rw [UInt8.toNat_ofNat_of_lt' hlt]
  apply bitsBE_congr
  intro i hi
  rw [Nat.testBit_div_two_pow, Nat.testBit_div_two_pow, testBit_shifted _ (by omega) (by omega)]
  congr 1
  omega

/-- A loop has written some bits of a number, and `n'` are left. -/
structure Writing (data n n' data' : Nat) (bits : List Bool) (b' : BitWriter) : Prop where
  le : n' ≤ n
  data_eq : data' = shifted data n'
  written : ∃ bits', b'.Written bits' ∧ bits' ++ bitsBE n' data = bits ++ bitsBE n data

theorem writePartial_spec (data : Nat) (hn : n ≤ 64) (h : b.Written bits) :
    ∃ n' data' b', writePartial n (shifted data n) b = (n', data', b') ∧
      Writing data n n' data' bits b' ∧ (n' = 0 ∨ b'.next = 0) := by
  induction n generalizing b bits with
  | zero => exact ⟨0, _, b, rfl, ⟨le_rfl, rfl, bits, h, rfl⟩, .inl rfl⟩
  | succ n ih =>
    rw [writePartial]
    by_cases hnext : b.next = 0
    · rw [if_pos hnext]
      exact ⟨_, _, _, rfl, ⟨le_rfl, rfl, bits, h, rfl⟩, .inr hnext⟩
    · have hbit := testBit_shifted data (show 64 - (n + 1) ≤ 63 by omega) (by omega)
      rw [show 63 - (64 - (n + 1)) = n by omega] at hbit
      have htop := h.writeTop (shifted data (n + 1))
      rw [hbit] at htop
      obtain ⟨n', data', b', hrun, hw, hend⟩ := ih (by omega) htop
      have hshift := shifted_mul data (show n + 1 ≤ 64 by omega)
      rw [pow_one] at hshift
      rw [if_neg hnext, hshift]
      obtain ⟨bits', hbits', heq⟩ := hw.written
      refine ⟨n', data', b', hrun, ⟨Nat.le_succ_of_le hw.le, hw.data_eq, bits', hbits', ?_⟩, hend⟩
      rw [heq, append_assoc, singleton_append, bitsBE]

theorem writeWhole_of_lt (hn : n < 8) : writeWhole n data b = (n, data, b) := by
  match n, hn with
  | 0, _ | 1, _ | 2, _ | 3, _ | 4, _ | 5, _ | 6, _ | 7, _ => rfl

theorem writeWhole_spec (data : Nat) (hn : n ≤ 64) (h : b.Written bits) (hnext : b.next = 0) :
    ∃ n' data' b', writeWhole n (shifted data n) b = (n', data', b') ∧
      Writing data n n' data' bits b' := by
  induction n using Nat.strong_induction_on generalizing b bits with
  | _ n ih =>
    by_cases hlt : n < 8
    · exact ⟨n, _, b, writeWhole_of_lt hlt, le_rfl, rfl, bits, h, rfl⟩
    · obtain ⟨m, rfl⟩ : ∃ m, n = m + 8 := ⟨n - 8, by omega⟩
      obtain ⟨k, hk, hk', hstream⟩ := h
      have hzero : k = 0 := by
        cases k with
        | zero => rfl
        | succ k => exact absurd (hk'.symm.trans hnext) (maskOf_ne_zero (by omega))
      subst hzero
      have hbyte : (⟨b.bytes ++ [UInt8.ofNat (shifted data (m + 8) / 2 ^ 56)], b.next⟩ :
          BitWriter).Written (bits ++ bitsBE 8 (data / 2 ^ m)) := by
        refine ⟨0, by omega, hk', ?_⟩
        rw [stream_append, hstream, stream_cons, stream_nil, bitsBE_shifted hn]
        simp
      obtain ⟨n', data', b', hrun, hw⟩ := ih m (by omega) (by omega) hbyte hnext
      obtain ⟨bits', hbits', heq⟩ := hw.written
      rw [writeWhole, shifted_mul data hn]
      refine ⟨n', data', b', hrun, hw.le.trans (Nat.le_add_right ..), hw.data_eq, bits', hbits', ?_⟩
      rw [heq, Nat.add_comm m 8, bitsBE_add, append_assoc]

theorem Written.writeRest (hn : n ≤ 64) (h : b.Written bits) :
    (BitWriter.writeRest n (shifted data n) b).Written (bits ++ bitsBE n data) := by
  induction n generalizing b bits with
  | zero => rwa [BitWriter.writeRest, bitsBE, append_nil]
  | succ n ih =>
    have hbit := testBit_shifted data (show 64 - (n + 1) ≤ 63 by omega) (by omega)
    rw [show 63 - (64 - (n + 1)) = n by omega] at hbit
    have hshift := shifted_mul data (show n + 1 ≤ 64 by omega)
    have htop := h.writeTop (shifted data (n + 1))
    rw [pow_one] at hshift
    rw [hbit] at htop
    have hrest := ih (by omega) htop
    rwa [append_assoc, singleton_append, ← bitsBE, ← hshift] at hrest

/-- **`writeNBits`** appends the bits of a number. -/
theorem Written.writeNBits (hn : n ≤ 64) (h : b.Written bits) :
    (b.writeNBits data n).Written (bits ++ bitsBE n data) := by
  obtain ⟨n₁, data₁, b₁, hrun₁, hw₁, hend⟩ := writePartial_spec data hn h
  obtain ⟨bits₁, hbits₁, heq₁⟩ := hw₁.written
  unfold BitWriter.writeNBits
  rw [show data * 2 ^ (64 - n) % 2 ^ 64 = shifted data n from rfl, hrun₁]
  dsimp only
  by_cases hzero : n₁ = 0
  · subst hzero
    rw [bitsBE, append_nil] at heq₁
    rwa [if_pos rfl, ← heq₁]
  · have hle := hw₁.le
    obtain ⟨n₂, data₂, b₂, hrun₂, hw₂⟩ :=
      writeWhole_spec data (show n₁ ≤ 64 by omega) hbits₁ (hend.resolve_left hzero)
    obtain ⟨bits₂, hbits₂, heq₂⟩ := hw₂.written
    have hle₂ := hw₂.le
    rw [if_neg hzero, hw₁.data_eq, hrun₂]
    dsimp only
    rw [hw₂.data_eq, ← heq₁, ← heq₂]
    exact hbits₂.writeRest (by omega)

end BitWriter

/-! ## The reader -/

structure BitReader where
  bytes : List UInt8
  next : UInt8

namespace BitReader

/-- `newBitReader`. -/
def new (bitstream : List UInt8) : BitReader := ⟨bitstream, 0x80⟩

/-- The inner loop of `readUnary`, over the bits of a byte: whether a zero was found, the next bit
and the count. -/
def unaryByte (byte : UInt8) : Nat → UInt8 → Nat → Bool × UInt8 × Nat
  | 0, next, value => (false, next, value)
  | fuel + 1, next, value =>
    if next ≠ 0 then
      if byte &&& next = 0 then (true, next >>> 1, value)
      else unaryByte byte fuel (next >>> 1) (value + 1)
    else (false, next, value)

/-- The outer loop of `readUnary`. -/
def unaryLoop : List UInt8 → UInt8 → Nat → Except (Fault GcsError) (Nat × BitReader)
  | [], _, _ => .error (.err .eof)
  | byte :: bytes, next, value =>
    match unaryByte byte 8 next value with
    | (true, next, value) => .ok (value, ⟨byte :: bytes, next⟩)
    | (false, _, value) => unaryLoop bytes 0x80 value

def readUnary (b : BitReader) : Except (Fault GcsError) (Nat × BitReader) :=
  unaryLoop b.bytes b.next 0

/-- The first loop of `readNBits`, which ends a byte. -/
def readPartial : Nat → BitReader → Nat → Except (Fault GcsError) (Nat × BitReader × Nat)
  | 0, b, value => .ok (0, b, value)
  | n + 1, b, value =>
    if b.next = 0 then .ok (n + 1, ⟨b.bytes.tail, 0x80⟩, value)
    else do
      let byte ← Slice.get b.bytes 0
      readPartial n ⟨b.bytes, b.next >>> 1⟩
        (if byte &&& b.next ≠ 0 then value ||| 1 <<< n else value)

/-- The second loop, for whole bytes. -/
def readWhole : Nat → List UInt8 → Nat → Except (Fault GcsError) (Nat × List UInt8 × Nat)
  | _ + 8, [], _ => .error (.err .eof)
  | n + 8, byte :: bytes, value => readWhole n bytes (value ||| byte.toNat <<< n)
  | n, bytes, value => .ok (n, bytes, value)

/-- The third loop. -/
def readRest : Nat → BitReader → Nat → Except (Fault GcsError) (Nat × BitReader)
  | 0, b, value => .ok (value, b)
  | n + 1, b, value =>
    if b.next = 0 ∧ b.bytes.tail.length = 0 then .error (.err .eof)
    else do
      let b := if b.next = 0 then ⟨b.bytes.tail, 0x80⟩ else b
      let byte ← Slice.get b.bytes 0
      readRest n ⟨b.bytes, b.next >>> 1⟩ (if byte &&& b.next ≠ 0 then value ||| 1 <<< n else value)

/-- The loops after the first one. -/
def readAligned (n : Nat) (b : BitReader) (value : Nat) :
    Except (Fault GcsError) (Nat × BitReader) :=
  if n = 0 then .ok (value, b)
  else do
    let (n, bytes, value) ← readWhole n b.bytes value
    if bytes.length = 0 then if n ≠ 0 then .error (.err .eof) else .ok (value, ⟨bytes, b.next⟩)
    else readRest n ⟨bytes, b.next⟩ value

def readNBits (b : BitReader) (n : Nat) : Except (Fault GcsError) (Nat × BitReader) :=
  if 64 < n then .error .panic
  else if b.bytes.length = 0 then .error (.err .eof)
  else if b.next ≠ 0x80 then do
    let (n, b, value) ← readPartial n b 0
    readAligned n b value
  else readAligned n b 0

/-- The bits that are left. -/
inductive Left : BitReader → List Bool → Prop
  | inside {byte : UInt8} {bytes : List UInt8} {k : Nat} (hk : k ≤ 8) :
      Left ⟨byte :: bytes, maskOf k⟩ (bitsBE k byte.toNat ++ stream bytes)
  | atEnd : Left ⟨[], 0x80⟩ []

theorem left_new (bytes : List UInt8) : Left ⟨bytes, 0x80⟩ (stream bytes) := by
  cases bytes with
  | nil => exact .atEnd
  | cons byte bytes => exact Left.inside le_rfl

variable {byte : UInt8} {bytes : List UInt8} {bits bits' rest tail : List Bool}
  {k n q v value : Nat} {b : BitReader}

/-! ### Unary numbers -/

theorem unaryByte_spec {fuel : Nat} (hk : k ≤ 8) (hfuel : k ≤ fuel)
    (h : bitsBE k byte.toNat ++ tail = replicate q true ++ false :: rest) :
    (q < k ∧ unaryByte byte fuel (maskOf k) v = (true, maskOf (k - 1 - q), v + q) ∧
        rest = bitsBE (k - 1 - q) byte.toNat ++ tail) ∨
      (k ≤ q ∧ unaryByte byte fuel (maskOf k) v = (false, 0, v + k) ∧
        tail = replicate (q - k) true ++ false :: rest) := by
  induction k generalizing fuel q v with
  | zero => exact .inr ⟨Nat.zero_le _, by cases fuel <;> rfl, h⟩
  | succ k ih =>
    obtain ⟨fuel, rfl⟩ : ∃ f, fuel = f + 1 := ⟨fuel - 1, by omega⟩
    rw [bitsBE, cons_append] at h
    rw [unaryByte, if_pos (maskOf_ne_zero hk), maskOf_shift hk]
    cases hbit : byte.toNat.testBit k with
    | false =>
      rw [if_pos ((and_maskOf hk byte).2 hbit)]
      rw [hbit] at h
      cases q with
      | zero => exact .inl ⟨Nat.succ_pos k, rfl, (List.cons.inj h).2.symm⟩
      | succ q => cases (List.cons.inj h).1
    | true =>
      rw [if_neg (mt (and_maskOf hk byte).1 (by rw [hbit]; decide))]
      rw [hbit] at h
      cases q with
      | zero => cases (List.cons.inj h).1
      | succ q =>
        rcases @ih q (v + 1) fuel (by omega) (by omega) (List.cons.inj h).2 with
          ⟨hlt, hrun, hrest⟩ | ⟨hle, hrun, htail⟩
        · refine .inl ⟨by omega, ?_, ?_⟩
          · rw [hrun, show k + 1 - 1 - (q + 1) = k - 1 - q by omega, Nat.add_assoc, Nat.add_comm 1]
          · rw [hrest, show k + 1 - 1 - (q + 1) = k - 1 - q by omega]
        · refine .inr ⟨by omega, ?_, ?_⟩
          · rw [hrun, Nat.add_assoc, Nat.add_comm 1]
          · rw [htail, show q + 1 - (k + 1) = q - k by omega]

theorem unaryLoop_spec (hk : k ≤ 8)
    (h : bitsBE k byte.toNat ++ stream bytes = replicate q true ++ false :: rest) :
    ∃ b', unaryLoop (byte :: bytes) (maskOf k) v = .ok (v + q, b') ∧ Left b' rest ∧
      b'.bytes ≠ [] := by
  induction bytes generalizing byte k q v with
  | nil =>
    rcases @unaryByte_spec byte rest _ k q v 8 hk hk h with ⟨-, hrun, rfl⟩ | ⟨-, -, htail⟩
    · rw [unaryLoop, hrun]
      exact ⟨_, rfl, .inside (by omega), cons_ne_nil _ _⟩
    · exact absurd htail.symm (by simp [stream])
  | cons byte' bytes ih =>
    rcases @unaryByte_spec byte rest _ k q v 8 hk hk h with ⟨-, hrun, rfl⟩ | ⟨hle, hrun, htail⟩
    · rw [unaryLoop, hrun]
      exact ⟨_, rfl, .inside (by omega), cons_ne_nil _ _⟩
    · rw [unaryLoop, hrun]
      obtain ⟨b', hrun', hleft, hne⟩ := @ih byte' 8 (q - k) (v + k) le_rfl htail
      refine ⟨b', ?_, hleft, hne⟩
      rw [show v + q = v + k + (q - k) by omega]
      exact hrun'

/-- **`readUnary`** counts ones up to a zero. -/
theorem Left.readUnary (h : Left b (replicate q true ++ false :: rest)) :
    ∃ b', b.readUnary = .ok (q, b') ∧ Left b' rest ∧ b'.bytes ≠ [] := by
  generalize hbits : replicate q true ++ false :: rest = bits at h
  cases h with
  | inside hk =>
    have hrun := @unaryLoop_spec _ _ rest _ q 0 hk hbits.symm
    rwa [zero_add] at hrun
  | atEnd => cases q <;> cases hbits

theorem Left.readUnary_eof (h : Left b []) : b.readUnary = .error (.err .eof) := by
  generalize hbits : [] = bits at h
  cases h with
  | @inside byte bytes k hk =>
    cases k with
    | zero =>
      cases bytes with
      | nil => rfl
      | cons => cases hbits
    | succ => cases hbits
  | atEnd => rfl

/-! ### Numbers of a fixed number of bits -/

/-- `n'` bits are still to be read of `n`, and those read are in the value. -/
def Reading (n n' value value' : Nat) (bits bits' : List Bool) : Prop :=
  ∃ front : List Bool, bits = front ++ bits' ∧ front.length + n' = n ∧
    value' = value + 2 ^ n' * valBE front

theorem Reading.refl (n value : Nat) (bits : List Bool) : Reading n n value value bits bits :=
  ⟨[], rfl, zero_add n, rfl⟩

theorem Reading.trans {n' n'' v' v'' : Nat} {bits'' : List Bool}
    (h : Reading n n' v v' bits bits') (h' : Reading n' n'' v' v'' bits' bits'') :
    Reading n n'' v v'' bits bits'' := by
  obtain ⟨front, rfl, rfl, rfl⟩ := h
  obtain ⟨front', rfl, rfl, rfl⟩ := h'
  refine ⟨front ++ front', (append_assoc ..).symm, ?_, ?_⟩
  · rw [length_append, add_assoc]
  · rw [valBE_append, pow_add]
    ring

theorem Reading.dvd {n' v' : Nat} (h : Reading n n' v v' bits bits') (hv : 2 ^ n ∣ v) :
    2 ^ n' ∣ v' := by
  obtain ⟨front, -, rfl, rfl⟩ := h
  exact Nat.dvd_add ((pow_dvd_pow 2 (Nat.le_add_left ..)).trans hv) (Dvd.intro _ rfl)

/-- The low bits of a multiple of `2 ^ n` are free. -/
theorem or_eq_add {x : Nat} (hv : 2 ^ n ∣ v) (hx : x < 2 ^ n) : v ||| x = v + x := by
  obtain ⟨c, rfl⟩ := hv
  exact (Nat.two_pow_add_eq_or_of_lt hx c).symm

theorem Reading.bit (hk : k < 8) (hv : 2 ^ (n + 1) ∣ v) (byte : UInt8) (tail : List Bool) :
    Reading (n + 1) n v (if byte &&& maskOf (k + 1) ≠ 0 then v ||| 1 <<< n else v)
      (bitsBE (k + 1) byte.toNat ++ tail) (bitsBE k byte.toNat ++ tail) := by
  refine ⟨[byte.toNat.testBit k], rfl, add_comm 1 n, ?_⟩
  have hone : v ||| 1 <<< n = v + 2 ^ n := by
    rw [Nat.one_shiftLeft]
    exact or_eq_add hv (Nat.pow_lt_pow_right (by decide) (Nat.lt_succ_self n))
  cases hbit : byte.toNat.testBit k with
  | false =>
    rw [if_neg (not_not_intro ((and_maskOf hk byte).2 hbit))]
    simp [valBE]
  | true =>
    rw [if_pos (mt (and_maskOf hk byte).1 (by rw [hbit]; decide)), hone]
    simp [valBE]

theorem readPartial_spec (hk : k ≤ 8) (hv : 2 ^ n ∣ v) :
    ∃ n' b' v' bits', readPartial n ⟨byte :: bytes, maskOf k⟩ v = .ok (n', b', v') ∧
      Reading n n' v v' (bitsBE k byte.toNat ++ stream bytes) bits' ∧
      ((n' = 0 ∧ Left b' bits') ∨ (b'.next = 0x80 ∧ bits' = stream b'.bytes)) := by
  induction n generalizing k v with
  | zero => exact ⟨_, _, _, _, rfl, .refl .., .inl ⟨rfl, .inside hk⟩⟩
  | succ n ih =>
    cases k with
    | zero => exact ⟨_, _, _, _, rfl, .refl .., .inr ⟨rfl, rfl⟩⟩
    | succ k =>
      have hbit := Reading.bit hk hv byte (stream bytes)
      obtain ⟨n', b', v', bits', hrun, hread, hend⟩ := ih (le_of_lt hk) (hbit.dvd hv)
      refine ⟨n', b', v', bits', ?_, hbit.trans hread, hend⟩
      rw [readPartial, if_neg (maskOf_ne_zero hk), maskOf_shift hk]
      exact hrun

theorem readWhole_spec (hv : 2 ^ n ∣ v) :
    (∃ n' bytes' v', readWhole n bytes v = .ok (n', bytes', v') ∧ n' < 8 ∧
      Reading n n' v v' (stream bytes) (stream bytes')) ∨
    (readWhole n bytes v = .error (.err .eof) ∧ (stream bytes).length < n) := by
  induction n, bytes, v using readWhole.induct with
  | case1 => exact .inr ⟨rfl, by simp⟩
  | case2 n byte bytes v ih =>
    have hlt : byte.toNat <<< n < 2 ^ (n + 8) := by
      rw [Nat.shiftLeft_eq, pow_add, mul_comm]
      exact Nat.mul_lt_mul_of_pos_left byte.toNat_lt (Nat.two_pow_pos n)
    have hbyte : Reading (n + 8) n v (v ||| byte.toNat <<< n) (stream (byte :: bytes))
        (stream bytes) := by
      refine ⟨bitsBE 8 byte.toNat, stream_cons .., by simp [add_comm], ?_⟩
      rw [or_eq_add hv hlt, valBE_bitsBE, Nat.mod_eq_of_lt byte.toNat_lt, Nat.shiftLeft_eq,
        mul_comm]
    rcases ih (hbyte.dvd hv) with ⟨n', bytes', v', hrun, hlt', hread⟩ | ⟨hrun, hlt'⟩
    · exact .inl ⟨n', bytes', v', hrun, hlt', hbyte.trans hread⟩
    · refine .inr ⟨hrun, ?_⟩
      rw [stream_cons, length_append, length_bitsBE]
      omega
  | case3 n bytes v hnil hcons =>
    have hlt : n < 8 := by
      by_contra hge
      obtain ⟨m, rfl⟩ : ∃ m, n = m + 8 := ⟨n - 8, by omega⟩
      cases bytes with
      | nil => exact hnil m rfl rfl
      | cons byte bytes => exact hcons m byte bytes rfl rfl
    refine .inl ⟨n, bytes, v, ?_, hlt, .refl ..⟩
    rw [readWhole]
    · exact hnil
    · exact hcons

theorem readRest_spec (hk : k ≤ 8) (hn : n ≤ k) (hv : 2 ^ n ∣ v) :
    ∃ v', readRest n ⟨byte :: bytes, maskOf k⟩ v = .ok (v', ⟨byte :: bytes, maskOf (k - n)⟩) ∧
      Reading n 0 v v' (bitsBE k byte.toNat ++ stream bytes)
        (bitsBE (k - n) byte.toNat ++ stream bytes) := by
  induction n generalizing k v with
  | zero => exact ⟨v, rfl, .refl ..⟩
  | succ n ih =>
    obtain ⟨k, rfl⟩ : ∃ j, k = j + 1 := ⟨k - 1, by omega⟩
    have hbit := Reading.bit hk hv byte (stream bytes)
    obtain ⟨v', hrun, hread⟩ := ih (le_of_lt hk) (by omega) (hbit.dvd hv)
    rw [show k + 1 - (n + 1) = k - n by omega]
    refine ⟨v', ?_, hbit.trans hread⟩
    have hne := maskOf_ne_zero hk
    rw [readRest, if_neg fun h => hne h.1]
    dsimp only
    rw [if_neg hne, maskOf_shift hk]
    exact hrun

theorem readAligned_spec (hv : 2 ^ n ∣ v) (bytes : List UInt8) :
    (∃ v' b' bits', readAligned n ⟨bytes, 0x80⟩ v = .ok (v', b') ∧
      Reading n 0 v v' (stream bytes) bits' ∧ Left b' bits') ∨
    (readAligned n ⟨bytes, 0x80⟩ v = .error (.err .eof) ∧ (stream bytes).length < n) := by
  unfold readAligned
  by_cases hzero : n = 0
  · subst hzero
    exact .inl ⟨v, _, _, rfl, .refl .., left_new bytes⟩
  rw [if_neg hzero]
  rcases @readWhole_spec bytes n v hv with ⟨n', bytes', v', hrun, hlt, hread⟩ | ⟨hrun, hlt⟩
  · rw [hrun]
    cases bytes' with
    | nil =>
      by_cases hn' : n' = 0
      · subst hn'
        exact .inl ⟨v', _, _, rfl, hread, .atEnd⟩
      · refine .inr ⟨if_pos hn', ?_⟩
        obtain ⟨front, hfront, hlen, -⟩ := hread
        rw [hfront, stream_nil, append_nil]
        omega
    | cons byte bytes' =>
      obtain ⟨v'', hrest, hread'⟩ :=
        @readRest_spec byte bytes' 8 n' v' le_rfl (le_of_lt hlt) (hread.dvd hv)
      exact .inl ⟨v'', _, _, hrest, hread.trans hread', .inside (Nat.sub_le ..)⟩
  · rw [hrun]
    exact .inr ⟨rfl, hlt⟩

theorem readNBits_spec (hn : n ≤ 64) (h : Left b bits) (hne : b.bytes ≠ []) :
    (∃ v' b' bits', b.readNBits n = .ok (v', b') ∧ Reading n 0 0 v' bits bits' ∧ Left b' bits') ∨
    (b.readNBits n = .error (.err .eof) ∧ bits.length < n) := by
  cases h with
  | atEnd => exact absurd rfl hne
  | @inside byte bytes k hk =>
    unfold readNBits
    rw [if_neg (not_lt.2 hn), if_neg (show ¬(byte :: bytes).length = 0 from Nat.succ_ne_zero _)]
    by_cases htop : maskOf k = 0x80
    · obtain rfl := eq_of_maskOf_eq_top hk htop
      rw [if_neg (not_not_intro htop)]
      exact readAligned_spec (Nat.dvd_zero _) (byte :: bytes)
    · obtain ⟨n', ⟨bytes', next'⟩, v', bits', hrun, hread, hend⟩ :=
        @readPartial_spec byte bytes k n 0 hk (Nat.dvd_zero _)
      rw [if_pos htop, hrun]
      rcases hend with ⟨rfl, hleft⟩ | ⟨hnext, hbits⟩
      · exact .inl ⟨v', _, _, rfl, hread, hleft⟩
      · obtain rfl : next' = 0x80 := hnext
        obtain rfl : bits' = stream bytes' := hbits
        rcases readAligned_spec (hread.dvd (Nat.dvd_zero _)) bytes' with
          ⟨v'', b'', bits'', hrun', hread', hleft⟩ | ⟨hrun', hlt⟩
        · exact .inl ⟨v'', b'', bits'', hrun', hread.trans hread', hleft⟩
        · refine .inr ⟨hrun', ?_⟩
          obtain ⟨front, hfront, hlen, -⟩ := hread
          rw [hfront, length_append]
          omega

/-- **`readNBits`** reads the number whose bits are next. -/
theorem Left.readNBits {front : List Bool} (hn : front.length ≤ 64) (h : Left b (front ++ rest))
    (hne : b.bytes ≠ []) :
    ∃ b', b.readNBits front.length = .ok (valBE front, b') ∧ Left b' rest := by
  rcases readNBits_spec hn h hne with ⟨v', b', bits', hrun, ⟨front', hbits, hlen, hv'⟩, hleft⟩ |
    ⟨-, hlt⟩
  · obtain ⟨rfl, rfl⟩ := append_inj hbits hlen.symm
    rw [pow_zero, one_mul, zero_add] at hv'
    exact ⟨b', by rw [hrun, hv'], hleft⟩
  · rw [length_append] at hlt
    omega

theorem Left.readNBits_eof (hn : n ≤ 64) (h : Left b bits) (hne : b.bytes ≠ [])
    (hlt : bits.length < n) : b.readNBits n = .error (.err .eof) := by
  rcases readNBits_spec hn h hne with ⟨v', b', bits', -, ⟨front, hbits, hlen, -⟩, -⟩ | ⟨hrun, -⟩
  · rw [hbits, length_append] at hlt
    omega
  · exact hrun

end BitReader

end Fnod.Gcs
