import Fnod.Lib.Buffer
import Fnod.Lib.Reader

/-!
# `compress.go`: variable length quantities

The encoder writes groups of seven bits, least significant first, takes one off for each further
group, and reverses the bytes in place. The decoder reads up to the first byte without the high bit,
in 64-bit arithmetic.

**Theorem (`vlq_prefixCode`).** The code is a bijection between the numbers of 64 bits and the whole
forms that stand for one: what is written is read back together with its length, whatever follows
it, and a whole form is what is written for the number that it stands for.
-/

namespace Fnod.Chainio

open Codec List

/-- The loop of `serializeSizeVLQ`. -/
def sizeVLQLoop : (fuel n size : Nat) → Nat
  | 0, _, size => size
  | fuel + 1, n, size => if n > 0x7f then sizeVLQLoop fuel (n / 128 - 1) (size + 1) else size

def serializeSizeVLQ (n : Nat) : Nat := sizeVLQLoop (n + 1) n 1

/-- The bytes that the loop of `putVLQ` writes, in the order in which it writes them. The mask is
set from the second byte on. -/
def putVLQLoop : (fuel : Nat) → (highBitMask : UInt8) → (n : Nat) → List UInt8
  | 0, highBitMask, n => [UInt8.ofNat (n % 128) ||| highBitMask]
  | fuel + 1, highBitMask, n =>
    if n ≤ 0x7f then [UInt8.ofNat (n % 128) ||| highBitMask]
    else (UInt8.ofNat (n % 128) ||| highBitMask) :: putVLQLoop fuel 0x80 (n / 128 - 1)

/-- `putVLQ`: the bytes that it leaves at the start of the target. -/
def putVLQ (n : Nat) : List UInt8 :=
  let target := putVLQLoop (n + 1) 0x00 n
  Slice.swapInwards target.length 0 (target.length - 1) target

/-- The loop of `deserializeVLQ`, in 64-bit arithmetic. -/
def deserializeVLQLoop : (n size : Nat) → List UInt8 → Nat × Nat
  | n, size, [] => (n, size)
  | n, size, val :: serialized =>
    let n := (n * 128 + val.toNat % 128) % 2 ^ 64
    if val.toNat < 128 then (n, size + 1)
    else deserializeVLQLoop ((n + 1) % 2 ^ 64) (size + 1) serialized

/-- `deserializeVLQ`: the number and the count of its bytes. -/
def deserializeVLQ (serialized : List UInt8) : Nat × Nat := deserializeVLQLoop 0 0 serialized

/-! ## Writing -/

theorem or_highBit {i : Nat} (h : i < 128) : UInt8.ofNat i ||| 0x80 = UInt8.ofNat (i + 0x80) := by
  have hall : ∀ i : Fin 128, UInt8.ofNat i ||| 0x80 = UInt8.ofNat (i + 0x80) := by decide
  exact hall ⟨i, h⟩

/-- The groups after the first one, reversed, are those that come before the last byte. -/
theorem reverse_putVLQLoop {fuel n : Nat} (h : n < fuel) :
    (putVLQLoop fuel 0x80 n).reverse = vlqHigh fuel n := by
  induction fuel generalizing n with
  | zero => omega
  | succ fuel ih =>
    unfold putVLQLoop vlqHigh
    split_ifs with hle
    · rw [or_highBit (by omega), Nat.mod_eq_of_lt (by omega)]
      rfl
    · rw [reverse_cons, ih (by omega), or_highBit (by omega)]

theorem putVLQ_eq_reverse (n : Nat) : putVLQ n = (putVLQLoop (n + 1) 0x00 n).reverse := by
  have h := Slice.swapInwards_eq [] (putVLQLoop (n + 1) 0x00 n) [] le_rfl
  simpa [putVLQ] using h

/-- The bytes are those of the code in its mathematical form. -/
theorem putVLQ_eq (n : Nat) : putVLQ n = Codec.putVLQ n := by
  rw [putVLQ_eq_reverse]
  unfold putVLQLoop Codec.putVLQ
  simp only [UInt8.or_zero]
  split_ifs with hle
  · rw [Nat.mod_eq_of_lt (by omega)]
    rfl
  · rw [reverse_cons, reverse_putVLQLoop (by omega)]

theorem length_putVLQLoop (fuel : Nat) (highBitMask : UInt8) (n size : Nat) :
    size + (putVLQLoop fuel highBitMask n).length = sizeVLQLoop fuel n (size + 1) := by
  induction fuel generalizing highBitMask n size with
  | zero => rfl
  | succ fuel ih =>
    unfold putVLQLoop sizeVLQLoop
    by_cases hle : n ≤ 0x7f
    · rw [if_pos hle, if_neg (by omega)]
      rfl
    · rw [if_neg hle, if_pos (by omega), ← ih 0x80, length_cons]
      omega

/-- **The size** is the number of the bytes. -/
theorem length_putVLQ (n : Nat) : (putVLQ n).length = serializeSizeVLQ n := by
  have h := length_putVLQLoop (n + 1) 0x00 n 0
  rw [putVLQ_eq_reverse, length_reverse, serializeSizeVLQ, ← h, zero_add]

theorem putVLQ_ne_nil (n : Nat) : putVLQ n ≠ [] := by
  rw [putVLQ_eq]
  unfold Codec.putVLQ
  split_ifs <;> simp

/-! ## Reading -/

/-- The count is that of the bytes that the mathematical decoder takes. -/
theorem deserializeVLQLoop_eq (n size : Nat) (b : List UInt8) : deserializeVLQLoop n size b =
      ((vlqLoop n b).1, size + (b.length - (vlqLoop n b).2.length)) ∧
      (vlqLoop n b).2.length ≤ b.length := by
  induction b generalizing n size with
  | nil => exact ⟨rfl, le_rfl⟩
  | cons val b ih =>
    unfold deserializeVLQLoop vlqLoop
    dsimp only
    split_ifs with hlast
    · constructor
      · rw [length_cons, Nat.add_sub_cancel_left]
      · exact Nat.le_succ _
    · obtain ⟨heq, hle⟩ := ih (((n * 128 + val.toNat % 128) % 2 ^ 64 + 1) % 2 ^ 64) (size + 1)
      rw [heq, length_cons]
      refine ⟨?_, by omega⟩
      congr 1
      omega

theorem vlqLoop_putVLQ {n : Nat} (h : n < 2 ^ 64) (rest : List UInt8) :
    vlqLoop 0 (Codec.putVLQ n ++ rest) = (n, rest) := by
  have hread := Reads.vlq h rest
  unfold vlq at hread
  split_ifs at hread
  exact Option.some.inj hread

/-- **What is written is read back**, with the number of its bytes. -/
theorem deserializeVLQ_putVLQ {n : Nat} (h : n < 2 ^ 64) (rest : List UInt8) :
    deserializeVLQ (putVLQ n ++ rest) = (n, (putVLQ n).length) := by
  rw [deserializeVLQ, (deserializeVLQLoop_eq _ _ _).1, putVLQ_eq, vlqLoop_putVLQ h]
  simp

/-- **The variable length quantity is a bijective prefix code.** -/
theorem vlq_prefixCode : (∀ n, n < 2 ^ 64 → ∀ rest, (putVLQ n).length = serializeSizeVLQ n ∧
      deserializeVLQ (putVLQ n ++ rest) = (n, serializeSizeVLQ n)) ∧
    (∀ bs, Terminated bs → vlqValue bs < 2 ^ 64 →
      (∀ rest, deserializeVLQ (bs ++ rest) = (vlqValue bs, bs.length)) ∧
      bs = putVLQ (vlqValue bs)) := by
  constructor
  · intro n hn rest
    refine ⟨length_putVLQ n, ?_⟩
    rw [deserializeVLQ_putVLQ hn, length_putVLQ]
  · intro bs hbs hlt
    have hput : putVLQ (vlqValue bs) = bs := by
      rw [putVLQ_eq, putVLQ_vlqValue hbs]
    refine ⟨fun rest => ?_, hput.symm⟩
    have hread := deserializeVLQ_putVLQ hlt rest
    rwa [hput] at hread

theorem vlq_prefixCode_three_bytes :
    deserializeVLQ (putVLQ 16512 ++ [0xff]) = (16512, 3) ∧ [0x80, 0x80, 0x00] = putVLQ 16512 :=
  ⟨(vlq_prefixCode.1 16512 (by decide) [0xff]).2,
    (vlq_prefixCode.2 [0x80, 0x80, 0x00] ⟨by decide, by decide, by simp [Terminated]⟩
      (by decide)).2⟩

end Fnod.Chainio
