import Mathlib.Algebra.Order.Ring.Int
import Mathlib.Data.List.Basic
import Mathlib.Tactic.Common

/-!
# Byte strings

Fixed-width encodings of numbers, least or most significant byte first, and the lexicographic
order of byte strings.
-/

instance instLinearOrderUInt8 : LinearOrder UInt8 where
  le_refl := UInt8.le_refl
  le_trans _ _ _ := UInt8.le_trans
  le_antisymm _ _ := UInt8.le_antisymm
  le_total := UInt8.le_total
  lt_iff_le_not_ge a b := by
    rw [UInt8.lt_iff_toNat_lt, UInt8.le_iff_toNat_le, UInt8.le_iff_toNat_le]
    omega
  toDecidableLE := inferInstance
  toDecidableLT := inferInstance
  toDecidableEq := inferInstance

namespace Bytes

open List

theorem and_sign_ne_zero (b : UInt8) : b &&& 0x80 ≠ 0 ↔ 128 ≤ b.toNat := by
  have h : ∀ x : Fin 256, x.val &&& 128 ≠ 0 ↔ 128 ≤ x.val := by decide +kernel
  rw [Ne, ← UInt8.toNat_inj]
  exact h ⟨b.toNat, b.toNat_lt⟩

/-- The `n` low bytes of `x`, least significant first. -/
def putLE : Nat → Nat → List UInt8
  | 0, _ => []
  | n + 1, x => UInt8.ofNat (x % 256) :: putLE n (x / 256)

/-- The number whose bytes, least significant first, are given. -/
def getLE : List UInt8 → Nat
  | [] => 0
  | b :: bs => b.toNat + 256 * getLE bs

/-- The `n` low bytes of `x`, most significant first. -/
def putBE (n x : Nat) : List UInt8 := (putLE n x).reverse

/-- The number whose bytes, most significant first, are given. -/
def getBE (bs : List UInt8) : Nat := getLE bs.reverse

@[simp] theorem length_putLE (n x : Nat) : (putLE n x).length = n := by
  induction n generalizing x with
  | zero => rfl
  | succ n ih => simp [putLE, ih]

@[simp] theorem length_putBE (n x : Nat) : (putBE n x).length = n := by
  simp [putBE]

theorem getLE_putLE (n x : Nat) : getLE (putLE n x) = x % 256 ^ n := by
  induction n generalizing x with
  | zero => simp [putLE, getLE, Nat.mod_one]
  | succ n ih =>
    have hb : (UInt8.ofNat (x % 256)).toNat = x % 256 := by
      simp
    rw [putLE, getLE, ih, hb, pow_succ, mul_comm (256 ^ n) 256, Nat.mod_mul]

variable {n x size : Nat}

theorem getLE_putLE_of_lt (h : x < 256 ^ n) : getLE (putLE n x) = x := by
  rw [getLE_putLE, Nat.mod_eq_of_lt h]

theorem getBE_putBE_of_lt (h : x < 256 ^ n) : getBE (putBE n x) = x := by
  rw [getBE, putBE, reverse_reverse, getLE_putLE_of_lt h]

theorem getLE_lt (bs : List UInt8) : getLE bs < 256 ^ bs.length := by
  induction bs with
  | nil => simp [getLE]
  | cons b bs ih =>
    have hb : b.toNat < 256 := b.toNat_lt
    rw [getLE, length_cons, pow_succ]
    omega

/-- The bytes of a number that was read are those that it was read from. -/
theorem putLE_getLE (bs : List UInt8) : putLE bs.length (getLE bs) = bs := by
  induction bs with
  | nil => rfl
  | cons b bs ih =>
    have hb : b.toNat < 256 := b.toNat_lt
    have hlow : (b.toNat + 256 * getLE bs) % 256 = b.toNat := by omega
    have hhigh : (b.toNat + 256 * getLE bs) / 256 = getLE bs := by omega
    rw [length_cons, getLE, putLE, hlow, hhigh, ih, UInt8.ofNat_toNat]

theorem putBE_getBE (bs : List UInt8) : putBE bs.length (getBE bs) = bs := by
  have h := putLE_getLE bs.reverse
  rw [length_reverse] at h
  rw [putBE, getBE, h, reverse_reverse]

theorem putLE_injective {y : Nat} (hx : x < 256 ^ n) (hy : y < 256 ^ n)
    (h : putLE n x = putLE n y) : x = y := by
  rw [← getLE_putLE_of_lt hx, h, getLE_putLE_of_lt hy]

theorem getLE_append (a b : List UInt8) : getLE (a ++ b) = getLE a + 256 ^ a.length * getLE b := by
  induction a with
  | nil => simp [getLE]
  | cons x a ih =>
    rw [cons_append, getLE, ih, getLE, length_cons, pow_succ, mul_add,
      mul_comm (256 ^ a.length) 256, mul_assoc, add_assoc]

/-- A field is read back from between what comes before it and what follows. -/
theorem take_drop_append {a x c : List UInt8} {i : Nat} (hi : a.length = i) (hn : x.length = n) :
    ((a ++ x ++ c).drop i).take n = x := by
  rw [append_assoc, ← hi, drop_left, ← hn, take_left]

/-- The `n` bytes between a fixed front and a fixed end, if the string has this form. -/
def framed (front back : List UInt8) (n : Nat) (b : List UInt8) : Option (List UInt8) :=
  if b.length = front.length + n + back.length ∧ b.take front.length = front ∧
      b.drop (front.length + n) = back then
    some ((b.drop front.length).take n)
  else none

theorem framed_eq_some {front back b x : List UInt8} :
    framed front back n b = some x ↔ b = front ++ (x ++ back) ∧ x.length = n := by
  unfold framed
  constructor
  · intro h
    split_ifs at h with hform
    obtain ⟨hlen, hfront, hback⟩ := hform
    cases h
    refine ⟨?_, by rw [length_take, length_drop]; omega⟩
    conv_lhs => rw [← take_append_drop front.length b, hfront,
      ← take_append_drop n (b.drop front.length), drop_drop, hback]
  · rintro ⟨rfl, rfl⟩
    have hdrop : (front ++ (x ++ back)).drop (front.length + x.length) = back := by
      rw [← drop_drop, drop_left, drop_left]
    rw [if_pos ⟨by simp [add_assoc], take_left, hdrop⟩, drop_left, take_left]

/-- The first `n` pieces of `size` bytes each. -/
def chunks (size : Nat) : Nat → List UInt8 → List (List UInt8)
  | 0, _ => []
  | n + 1, b => b.take size :: chunks size n (b.drop size)

/-- Pieces of one length are read back, whatever follows them. -/
theorem chunks_flatMap {α : Type*} {f : α → List UInt8}
    (hf : ∀ a, (f a).length = size) (l : List α) (rest : List UInt8) :
    chunks size l.length (l.flatMap f ++ rest) = l.map f := by
  induction l with
  | nil => rfl
  | cons a l ih =>
    rw [flatMap_cons, append_assoc, length_cons, chunks, ← hf a, take_left, drop_left, hf a, ih]
    rfl

theorem length_flatMap_const {α : Type*} {f : α → List UInt8}
    (hf : ∀ a, (f a).length = size) (l : List α) : (l.flatMap f).length = l.length * size := by
  induction l with
  | nil => simp
  | cons a l ih => simp [ih, hf a, add_mul, add_comm]

end Bytes
