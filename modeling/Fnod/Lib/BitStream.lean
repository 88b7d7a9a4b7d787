import Mathlib.Data.List.Basic
import Mathlib.Data.Nat.Bitwise
import Mathlib.Tactic.Ring

/-!
# Streams of bits in bytes

Numbers and bytes as lists of bits, most significant bit first. `bitsBE n x` are the `n` low bits of
a number, `valBE` reads them back, and `stream` are the bits of some bytes. A position in a byte is
a mask with one bit (`maskOf`), or no bit after the end of the byte.

`golomb p d` is the code of a number: its quotient by `2 ^ p` in unary, and the rest in `p` bits.
-/

namespace BitStream

open List

/-- The `n` low bits of `x`. -/
def bitsBE : Nat → Nat → List Bool
  | 0, _ => []
  | n + 1, x => x.testBit n :: bitsBE n x

/-- The number with the given bits. -/
def valBE : List Bool → Nat
  | [] => 0
  | b :: bs => (if b then 2 ^ bs.length else 0) + valBE bs

/-- The bits of some bytes. -/
def stream (bytes : List UInt8) : List Bool := bytes.flatMap fun b => bitsBE 8 b.toNat

/-- The mask of the bit before the last `k - 1` bits of a byte. -/
def maskOf : Nat → UInt8
  | 0 => 0
  | k + 1 => UInt8.ofNat (2 ^ k)

/-- The Golomb code of a number. -/
def golomb (p d : Nat) : List Bool := List.replicate (d / 2 ^ p) true ++ false :: bitsBE p d

/-- The codes of the differences of a list that starts after `last`. -/
def golombSet (p : Nat) : Nat → List Nat → List Bool
  | _, [] => []
  | last, v :: vs => golomb p (v - last) ++ golombSet p v vs

variable {n m k x : Nat} {b : UInt8}

@[simp] theorem length_bitsBE (n x : Nat) : (bitsBE n x).length = n := by
  induction n with
  | zero => rfl
  | succ n ih => rw [bitsBE, length_cons, ih]

theorem bitsBE_add (m n x : Nat) : bitsBE (m + n) x = bitsBE m (x / 2 ^ n) ++ bitsBE n x := by
  induction m with
  | zero => simp [bitsBE]
  | succ m ih => rw [Nat.succ_add, bitsBE, bitsBE, ih, Nat.testBit_div_two_pow, cons_append]

theorem bitsBE_congr {y : Nat} (h : ∀ i < n, x.testBit i = y.testBit i) :
    bitsBE n x = bitsBE n y := by
  induction n with
  | zero => rfl
  | succ n ih =>
    rw [bitsBE, bitsBE, h n (Nat.lt_succ_self n), ih fun i hi => h i (Nat.lt_succ_of_lt hi)]

theorem valBE_bitsBE (n x : Nat) : valBE (bitsBE n x) = x % 2 ^ n := by
  induction n with
  | zero => rw [bitsBE, valBE, pow_zero, Nat.mod_one]
  | succ n ih =>
    rw [bitsBE, valBE, length_bitsBE, ih, pow_succ, Nat.mod_mul, Nat.testBit_eq_decide_div_mod_eq]
    rcases Nat.mod_two_eq_zero_or_one (x / 2 ^ n) with h | h <;> simp [h, add_comm]

theorem valBE_append (as bs : List Bool) :
    valBE (as ++ bs) = 2 ^ bs.length * valBE as + valBE bs := by
  induction as with
  | nil => simp [valBE]
  | cons a as ih =>
    rw [cons_append, valBE, valBE, ih, length_append, pow_add]
    cases a
    · simp
    · simp
      ring

@[simp] theorem stream_nil : stream [] = [] := rfl

@[simp] theorem stream_cons (b : UInt8) (bytes : List UInt8) :
    stream (b :: bytes) = bitsBE 8 b.toNat ++ stream bytes := rfl

@[simp] theorem stream_append (as bs : List UInt8) : stream (as ++ bs) = stream as ++ stream bs :=
  flatMap_append

theorem length_stream (bytes : List UInt8) : (stream bytes).length = 8 * bytes.length := by
  induction bytes with
  | nil => rfl
  | cons b bytes ih =>
    rw [stream_cons, length_append, length_bitsBE, ih, length_cons]
    omega

theorem golomb_zero (p : Nat) : golomb p 0 = List.replicate (p + 1) false := by
  have hbits : bitsBE p 0 = List.replicate p false := by
    induction p with
    | zero => rfl
    | succ p ih => rw [bitsBE, ih, Nat.zero_testBit, replicate_succ]
  rw [golomb, hbits, Nat.zero_div, replicate_succ]
  rfl

theorem length_le_length_golombSet (p : Nat) (last : Nat) (vs : List Nat) :
    vs.length ≤ (golombSet p last vs).length := by
  induction vs generalizing last with
  | nil => exact Nat.zero_le _
  | cons v vs ih =>
    have htail := ih v
    simp only [golombSet, golomb, length_append, length_cons]
    omega

/-! ## Masks -/

theorem maskOf_ne_zero (hk : k < 8) : maskOf (k + 1) ≠ 0 := by
  have h : ∀ k : Fin 8, maskOf (k + 1) ≠ 0 := by decide
  exact h ⟨k, hk⟩

theorem maskOf_shift (hk : k < 8) : maskOf (k + 1) >>> 1 = maskOf k := by
  have h : ∀ k : Fin 8, maskOf (k + 1) >>> 1 = maskOf k := by decide
  exact h ⟨k, hk⟩

theorem eq_of_maskOf_eq_top (hk : k ≤ 8) (h : maskOf k = 0x80) : k = 8 := by
  have hall : ∀ k : Fin 9, maskOf k = 0x80 → k = 8 := by decide
  exact congrArg Fin.val (hall ⟨k, by omega⟩ h)

theorem and_maskOf (hk : k < 8) (b : UInt8) :
    b &&& maskOf (k + 1) = 0 ↔ b.toNat.testBit k = false := by
  have h : ∀ (k : Fin 8) (b : Fin 256),
      UInt8.ofNat b &&& maskOf (k + 1) = 0 ↔ b.val.testBit k = false := by decide +kernel
  have hb := h ⟨k, hk⟩ ⟨b.toNat, b.toNat_lt⟩
  rwa [UInt8.ofNat_toNat] at hb

/-- Setting the first of the last bits of a byte, which are not set. -/
theorem bitsBE_or_maskOf (hk : k < 8)
    (h : (bitsBE 8 b.toNat).drop (7 - k) = List.replicate (k + 1) false) :
    bitsBE 8 (b ||| maskOf (k + 1)).toNat =
      (bitsBE 8 b.toNat).take (7 - k) ++ true :: List.replicate k false := by
  have hall : ∀ (k : Fin 8) (b : Fin 256),
      (bitsBE 8 b).drop (7 - k) = List.replicate (k + 1) false →
      bitsBE 8 (UInt8.ofNat b ||| maskOf (k + 1)).toNat =
        (bitsBE 8 b).take (7 - k) ++ true :: List.replicate k false := by decide +kernel
  have hb := hall ⟨k, hk⟩ ⟨b.toNat, b.toNat_lt⟩ h
  rwa [UInt8.ofNat_toNat] at hb

end BitStream
