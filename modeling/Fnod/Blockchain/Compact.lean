import Mathlib.Data.Nat.Bitwise
import Mathlib.Tactic.Linarith
import Fnod.Blockchain.MsgBlock
import Fnod.Lib.Rounding

/-!
# The compact form of a target

`BigToCompact` keeps the leading bytes of a number, up to 23 bits of it, and the number of bytes.
For positive numbers that is rounding down to the leading bytes, where the sign bit counts as a bit
of the number (`compactToBig_bigToCompact`), as long as the number of bytes fits into a byte. The
rest is the theory of rounding: the result is close, rounding is monotone, and a rounded number
stays.

**Theorem (`compact_roundTrip`).** All this holds exactly for the numbers below `2 ^ 2039`, and a
negative number keeps its sign exactly if its leading bytes do not overflow when they are rounded
up. -/

namespace Fnod

/-- The number of bytes of `n.Bytes()`. -/
def byteLen (n : Nat) : Nat := if n = 0 then 0 else n.log2 / 8 + 1

/-- `BigToCompact`. The words of a number are those of its absolute value, while a shift to the
right rounds towards negative infinity. -/
def bigToCompact (n : Int) : UInt32 :=
  if n = 0 then 0
  else
    let exponent := byteLen n.natAbs
    let mantissa :=
      if exponent ≤ 3 then UInt32.ofNat n.natAbs <<< UInt32.ofNat (8 * (3 - exponent))
      else UInt32.ofNat (n / 2 ^ (8 * (exponent - 3))).natAbs
    -- the sign bit is not part of the number
    let overflow := mantissa &&& 0x00800000 ≠ 0
    let exponent := if overflow then exponent + 1 else exponent
    let mantissa := if overflow then mantissa >>> 8 else mantissa
    let compact := UInt32.ofNat (exponent * 2 ^ 24) ||| mantissa
    if n < 0 then compact ||| 0x00800000 else compact

/-! ## The parts of a compact number -/

/-- The number that the parts of a compact number stand for. -/
def compactValue (exponent mantissa : Nat) : Nat :=
  if exponent ≤ 3 then mantissa / 2 ^ (8 * (3 - exponent)) else mantissa * 2 ^ (8 * (exponent - 3))

theorem and_signBit (x : UInt32) : x &&& 0x00800000 ≠ 0 ↔ x.toNat / 2 ^ 23 % 2 = 1 := by
  have hand : (x &&& 0x00800000).toNat = (x.toNat.testBit 23).toNat * 2 ^ 23 := by
    rw [UInt32.toNat_and]
    exact Nat.and_two_pow _ 23
  rw [ne_eq, ← UInt32.toNat_inj, hand, Nat.testBit_eq_decide_div_mod_eq]
  simp

theorem compactToBig_eq (compact : UInt32) :
    compactToBig compact = if compact.toNat / 2 ^ 23 % 2 = 1 then
        -(compactValue (compact.toNat / 2 ^ 24) (compact.toNat % 2 ^ 23) : Int)
      else compactValue (compact.toNat / 2 ^ 24) (compact.toNat % 2 ^ 23) := by
  have hmantissa : (compact &&& 0x007fffff).toNat = compact.toNat % 2 ^ 23 := by
    rw [UInt32.toNat_and]
    exact Nat.and_two_pow_sub_one_eq_mod _ 23
  have hexponent : (compact >>> 24).toNat = compact.toNat / 2 ^ 24 := by
    rw [UInt32.toNat_shiftRight]
    exact Nat.shiftRight_eq_div_pow _ 24
  simp only [compactToBig, hmantissa, hexponent, and_signBit, compactValue,
    Nat.shiftRight_eq_div_pow, Nat.shiftLeft_eq]
  split_ifs <;> rfl

variable {exponent mantissa n : Nat} {compact : UInt32} {a : Nat}

theorem compactToBig_pack (hm : mantissa < 2 ^ 23)
    (hc : compact.toNat = exponent % 256 * 2 ^ 24 + mantissa) :
    compactToBig compact = compactValue (exponent % 256) mantissa := by
  have h1 : compact.toNat / 2 ^ 24 = exponent % 256 := by omega
  have h2 : compact.toNat % 2 ^ 23 = mantissa := by omega
  rw [compactToBig_eq, h1, h2, if_neg (by omega)]

theorem compactToBig_packNeg (hm : mantissa < 2 ^ 23)
    (hc : compact.toNat = exponent % 256 * 2 ^ 24 + 2 ^ 23 + mantissa) :
    compactToBig compact = -(compactValue (exponent % 256) mantissa : Int) := by
  have h1 : compact.toNat / 2 ^ 24 = exponent % 256 := by omega
  have h2 : compact.toNat % 2 ^ 23 = mantissa := by omega
  rw [compactToBig_eq, h1, h2, if_pos (by omega)]

theorem toNat_pack {mantissa : UInt32} (hm : mantissa.toNat < 2 ^ 24) :
    (UInt32.ofNat (exponent * 2 ^ 24) ||| mantissa).toNat =
      exponent % 256 * 2 ^ 24 + mantissa.toNat := by
  have hmod : exponent * 2 ^ 24 % 2 ^ 32 = 2 ^ 24 * (exponent % 256) := by omega
  rw [UInt32.toNat_or, UInt32.toNat_ofNat', hmod, ← Nat.two_pow_add_eq_or_of_lt hm, mul_comm]

theorem toNat_packNeg {x : UInt32} (hx : x.toNat % 2 ^ 24 < 2 ^ 23) :
    (x ||| 0x00800000).toNat = x.toNat + 2 ^ 23 := by
  obtain ⟨high, low, hlow, hsplit⟩ : ∃ high low, low < 2 ^ 23 ∧ x.toNat = 2 ^ 24 * high + low :=
    ⟨x.toNat / 2 ^ 24, x.toNat % 2 ^ 24, hx, (Nat.div_add_mod _ _).symm⟩
  have hset : low ||| 2 ^ 23 = 2 ^ 23 + low := by
    have h := Nat.two_pow_add_eq_or_of_lt hlow 1
    rw [mul_one] at h
    rw [Nat.or_comm, h]
  calc (x ||| 0x00800000).toNat = x.toNat ||| 2 ^ 23 := UInt32.toNat_or _ _
    _ = 2 ^ 24 * high ||| (low ||| 2 ^ 23) := by
      rw [hsplit, Nat.two_pow_add_eq_or_of_lt (hlow.trans (by decide)), Nat.or_assoc]
    _ = 2 ^ 24 * high + (2 ^ 23 + low) := by
      rw [hset, ← Nat.two_pow_add_eq_or_of_lt (by omega)]
    _ = x.toNat + 2 ^ 23 := by omega

/-! ## Packing a number -/

/-- The exponent and the mantissa, once the sign bit is clear. -/
def normalize (exponent mantissa : Nat) : Nat × Nat :=
  if 2 ^ 23 ≤ mantissa then (exponent + 1, mantissa / 256) else (exponent, mantissa)

theorem normalize_lt {exponent mantissa : Nat} (hm : mantissa < 2 ^ 24) :
    (normalize exponent mantissa).2 < 2 ^ 23 := by
  unfold normalize
  split_ifs
  · change mantissa / 256 < 2 ^ 23
    omega
  · change mantissa < 2 ^ 23
    omega

/-- The first mantissa of `BigToCompact`. -/
def firstMantissa (n : Int) : UInt32 :=
  if byteLen n.natAbs ≤ 3 then
    UInt32.ofNat n.natAbs <<< UInt32.ofNat (8 * (3 - byteLen n.natAbs))
  else UInt32.ofNat (n / 2 ^ (8 * (byteLen n.natAbs - 3))).natAbs

theorem bigToCompact_def {n : Int} (hn : n ≠ 0) (hm : (firstMantissa n).toNat < 2 ^ 24) :
    ∃ compact : UInt32,
      compact.toNat = (normalize (byteLen n.natAbs) (firstMantissa n).toNat).1 % 256 * 2 ^ 24 +
        (normalize (byteLen n.natAbs) (firstMantissa n).toNat).2 ∧
      bigToCompact n = if n < 0 then compact ||| 0x00800000 else compact := by
  have hsign : firstMantissa n &&& 0x00800000 ≠ 0 ↔ 2 ^ 23 ≤ (firstMantissa n).toNat := by
    rw [and_signBit]
    omega
  have hdef : bigToCompact n = if n = 0 then (0 : UInt32) else
      let overflow := firstMantissa n &&& 0x00800000 ≠ 0
      let compact := UInt32.ofNat ((if overflow then byteLen n.natAbs + 1 else byteLen n.natAbs) *
        2 ^ 24) ||| if overflow then firstMantissa n >>> 8 else firstMantissa n
      if n < 0 then compact ||| 0x00800000 else compact := rfl
  refine ⟨_, ?_, hdef.trans (if_neg hn)⟩
  have hshift : (firstMantissa n >>> 8).toNat = (firstMantissa n).toNat / 256 := by
    rw [UInt32.toNat_shiftRight]
    exact Nat.shiftRight_eq_div_pow _ 8
  simp only [hsign, normalize]
  split_ifs with h
  · rw [toNat_pack (by omega), hshift]
  · rw [toNat_pack hm]

theorem compactToBig_bigToCompact_of_pos {n : Int} (hn : 0 < n)
    (hm : (firstMantissa n).toNat < 2 ^ 24) : compactToBig (bigToCompact n) =
      compactValue ((normalize (byteLen n.natAbs) (firstMantissa n).toNat).1 % 256)
        (normalize (byteLen n.natAbs) (firstMantissa n).toNat).2 := by
  obtain ⟨compact, hc, heq⟩ := bigToCompact_def (by omega) hm
  rw [heq, if_neg (by omega)]
  exact compactToBig_pack (normalize_lt hm) hc

theorem compactToBig_bigToCompact_of_neg {n : Int} (hn : n < 0)
    (hm : (firstMantissa n).toNat < 2 ^ 24) : compactToBig (bigToCompact n) =
      -(compactValue ((normalize (byteLen n.natAbs) (firstMantissa n).toNat).1 % 256)
        (normalize (byteLen n.natAbs) (firstMantissa n).toNat).2 : Int) := by
  obtain ⟨compact, hc, heq⟩ := bigToCompact_def (by omega) hm
  have hlt := @normalize_lt (byteLen n.natAbs) _ hm
  rw [heq, if_pos hn]
  refine compactToBig_packNeg hlt ?_
  rw [toNat_packNeg (by omega), hc]
  omega

/-! ## Positive numbers -/

/-- The leading bytes of a number, when there is a given number of them. -/
def leading (exponent a : Nat) : Nat :=
  if exponent ≤ 3 then a * 2 ^ (8 * (3 - exponent)) else a / 2 ^ (8 * (exponent - 3))

/-- The number of bytes with the sign bit, for a number with the leading bit `t`. -/
def signedLen (t : Nat) : Nat := (t + 1) / 8 + 1

section Positive

/-- The leading bytes have between 17 and 24 bits. -/
theorem leading_bounds (ha : a ≠ 0) : 2 ^ (16 + a.log2 % 8) ≤ leading (byteLen a) a ∧
    leading (byteLen a) a < 2 ^ (17 + a.log2 % 8) := by
  have hlow := Nat.log2_self_le ha
  have hhigh := Nat.lt_log2_self (n := a)
  obtain ⟨t, ht⟩ : ∃ t, t = a.log2 := ⟨_, rfl⟩
  rw [byteLen, if_neg ha, leading]
  rw [← ht] at hlow hhigh ⊢
  split_ifs with he
  · constructor
    · calc 2 ^ (16 + t % 8) = 2 ^ t * 2 ^ (8 * (3 - (t / 8 + 1))) := by
            rw [← pow_add]; congr 1; omega
        _ ≤ _ := Nat.mul_le_mul_right _ hlow
    · calc a * 2 ^ (8 * (3 - (t / 8 + 1))) < 2 ^ (t + 1) * 2 ^ (8 * (3 - (t / 8 + 1))) :=
            Nat.mul_lt_mul_of_pos_right hhigh (Nat.two_pow_pos _)
        _ = 2 ^ (17 + t % 8) := by rw [← pow_add]; congr 1; omega
  · constructor
    · rw [Nat.le_div_iff_mul_le (Nat.two_pow_pos _), ← pow_add]
      rwa [show 16 + t % 8 + 8 * (t / 8 + 1 - 3) = t by omega]
    · rw [Nat.div_lt_iff_lt_mul (Nat.two_pow_pos _), ← pow_add]
      rwa [show 17 + t % 8 + 8 * (t / 8 + 1 - 3) = t + 1 by omega]

theorem leading_lt (ha : a ≠ 0) : leading (byteLen a) a < 2 ^ 24 :=
  (leading_bounds ha).2.trans_le (Nat.pow_le_pow_right two_pos (by omega))

theorem leading_succ (exponent a : Nat) : leading exponent a / 256 = leading (exponent + 1) a := by
  rcases Nat.lt_trichotomy exponent 3 with h | rfl | h
  · rw [leading, leading, if_pos (by omega), if_pos (by omega),
      show 8 * (3 - exponent) = 8 * (3 - (exponent + 1)) + 8 by omega, Nat.pow_add, ← Nat.mul_assoc]
    exact Nat.mul_div_cancel _ (by decide)
  · simp [leading]
  · rw [leading, leading, if_neg (by omega), if_neg (by omega), Nat.div_div_eq_div_mul,
      show 8 * (exponent + 1 - 3) = 8 * (exponent - 3) + 8 by omega, Nat.pow_add]

/-- The sign bit counts as a bit of the number. -/
theorem normalize_leading (ha : a ≠ 0) : normalize (byteLen a) (leading (byteLen a) a) =
      (signedLen a.log2, leading (signedLen a.log2) a) := by
  obtain ⟨hlow, hhigh⟩ := leading_bounds ha
  have hlen : byteLen a = a.log2 / 8 + 1 := if_neg ha
  by_cases h7 : a.log2 % 8 = 7
  · rw [h7] at hlow
    have hsigned : signedLen a.log2 = byteLen a + 1 := by unfold signedLen; omega
    rw [normalize, if_pos hlow, hsigned, leading_succ]
  · have hlt : leading (byteLen a) a < 2 ^ 23 :=
      hhigh.trans_le (Nat.pow_le_pow_right two_pos (by omega))
    have hsigned : signedLen a.log2 = byteLen a := by unfold signedLen; omega
    rw [normalize, if_neg (by omega), hsigned]

theorem toNat_firstMantissa (ha : a ≠ 0) :
    (firstMantissa (a : Int)).toNat = leading (byteLen a) a := by
  have hlt := leading_lt ha
  rw [firstMantissa, Int.natAbs_natCast]
  unfold leading at hlt ⊢
  split_ifs at hlt ⊢ with he
  · have hsmall : a < 2 ^ 32 := by
      have := Nat.le_mul_of_pos_right a (Nat.two_pow_pos (8 * (3 - byteLen a)))
      omega
    rw [UInt32.toNat_shiftLeft, UInt32.toNat_ofNat', UInt32.toNat_ofNat', Nat.mod_eq_of_lt hsmall,
      Nat.mod_eq_of_lt (by omega : 8 * (3 - byteLen a) < 2 ^ 32),
      Nat.mod_eq_of_lt (by omega : 8 * (3 - byteLen a) < 32), Nat.shiftLeft_eq,
      Nat.mod_eq_of_lt (by omega)]
  · have hdiv : ((a : Int) / 2 ^ (8 * (byteLen a - 3))).natAbs = a / 2 ^ (8 * (byteLen a - 3)) := by
      rw [show ((2 : Int) ^ (8 * (byteLen a - 3))) = (2 ^ (8 * (byteLen a - 3)) : Nat)
        by push_cast; rfl, ← Int.natCast_ediv, Int.natAbs_natCast]
    rw [hdiv, UInt32.toNat_ofNat', Nat.mod_eq_of_lt (by omega)]

theorem compactToBig_bigToCompact_natCast (ha : a ≠ 0) : compactToBig (bigToCompact a) =
      compactValue (signedLen a.log2 % 256) (leading (signedLen a.log2) a) := by
  have hm : (firstMantissa (a : Int)).toNat < 2 ^ 24 := by
    rw [toNat_firstMantissa ha]
    exact leading_lt ha
  rw [compactToBig_bigToCompact_of_pos (by omega) hm, Int.natAbs_natCast, toNat_firstMantissa ha,
    normalize_leading ha]

/-- The lowest bit that is kept, for a number with the leading bit `t`. -/
def keptFrom (t : Nat) : Nat := 8 * (signedLen t - 3)

theorem keptFrom_le (t : Nat) : keptFrom t ≤ t := by
  unfold keptFrom signedLen
  omega

/-- The number that is left of a positive number. -/
def compactRound (a : Nat) : Nat := Rounding.down keptFrom a

theorem compactValue_leading (exponent a : Nat) : compactValue exponent (leading exponent a) =
      a / 2 ^ (8 * (exponent - 3)) * 2 ^ (8 * (exponent - 3)) := by
  unfold compactValue leading
  split_ifs with he
  · rw [Nat.mul_div_cancel _ (Nat.two_pow_pos _), show 8 * (exponent - 3) = 0 by omega]
    simp
  · rfl

/-- **The round trip rounds down**, while the number of bytes fits into a byte. -/
theorem compactToBig_bigToCompact (hlog : a.log2 < 2039) :
    compactToBig (bigToCompact a) = compactRound a := by
  by_cases h0 : a = 0
  · subst h0
    rfl
  rw [compactToBig_bigToCompact_natCast h0, Nat.mod_eq_of_lt (by unfold signedLen; omega),
    compactValue_leading]
  rfl

theorem leading_lt_two_pow {exponent b s : Nat} (he : 3 < exponent)
    (hs : b + 8 * (exponent - 3) = s) (h : a < 2 ^ s) : leading exponent a < 2 ^ b := by
  rw [leading, if_neg (by omega), Nat.div_lt_iff_lt_mul (Nat.two_pow_pos _), ← pow_add, hs]
  exact h

/-- Beyond, the number of bytes is cut, and nothing is left. -/
theorem compactToBig_bigToCompact_of_le (hlow : 2 ^ 2039 ≤ a) (hhigh : a < 2 ^ 2048) :
    compactToBig (bigToCompact a) = 0 := by
  have h0 : a ≠ 0 := by
    have := Nat.two_pow_pos 2039
    omega
  have hlog1 := (Nat.le_log2 h0).2 hlow
  have hlog2 := (Nat.log2_lt h0).2 hhigh
  rw [compactToBig_bigToCompact_natCast h0]
  have hlen : signedLen a.log2 = 256 ∨ signedLen a.log2 = 257 := by unfold signedLen; omega
  rcases hlen with hlen | hlen
  · have hlead : leading 256 a < 2 ^ 24 := leading_lt_two_pow (s := 2048) (by decide) rfl hhigh
    rw [hlen, compactValue, if_pos (by decide), Nat.div_eq_of_lt (by simpa using hlead)]
    rfl
  · have hlead : leading 257 a < 2 ^ 16 := leading_lt_two_pow (s := 2048) (by decide) rfl hhigh
    rw [hlen, compactValue, if_pos (by decide), Nat.div_eq_of_lt (by simpa using hlead)]
    rfl

theorem compactRound_le (a : Nat) : compactRound a ≤ a := Rounding.down_le _ a

theorem compactRound_mono : Monotone compactRound := Rounding.down_mono keptFrom_le

theorem compactRound_compactRound (a : Nat) : compactRound (compactRound a) = compactRound a :=
  Rounding.down_down keptFrom_le a

/-- At least 15 bits after the leading one are kept. -/
theorem sub_compactRound_lt (ha : 0 < a) : (a - compactRound a) * 2 ^ 15 < a := by
  have hlog := Nat.log2_self_le ha.ne'
  have herror : a < compactRound a + 2 ^ keptFrom a.log2 := Rounding.lt_down_add _ a
  have hle := compactRound_le a
  by_cases hk : keptFrom a.log2 = 0
  · rw [hk] at herror
    rw [show a - compactRound a = 0 by omega]
    simpa using ha
  · calc (a - compactRound a) * 2 ^ 15 < 2 ^ keptFrom a.log2 * 2 ^ 15 :=
          Nat.mul_lt_mul_of_pos_right (by omega) (by decide)
      _ = 2 ^ (keptFrom a.log2 + 15) := (pow_add ..).symm
      _ ≤ 2 ^ a.log2 := Nat.pow_le_pow_right two_pos (by unfold keptFrom signedLen at *; omega)
      _ ≤ a := hlog

end Positive

/-! ## Negative numbers -/

theorem compactValue_pos :
    0 < compactValue exponent mantissa ↔ 2 ^ (8 * (3 - exponent)) ≤ mantissa := by
  unfold compactValue
  split_ifs with he
  · rw [Nat.div_pos_iff]
    simp
  · rw [show 8 * (3 - exponent) = 0 by omega, pow_zero]
    have := Nat.two_pow_pos (8 * (exponent - 3))
    constructor
    · intro h
      exact Nat.pos_of_mul_pos_right h
    · intro h
      exact mul_pos h this

/-- Two bytes of mantissa are lost to an exponent below two, -/
theorem two_pow_le_iff_two_le (hlow : 2 ^ 15 ≤ mantissa)
    (hhigh : mantissa < 2 ^ 16) : 2 ^ (8 * (3 - exponent)) ≤ mantissa ↔ 2 ≤ exponent := by
  match exponent with
  | 0 => omega
  | 1 => omega
  | 2 => omega
  | e + 3 =>
    rw [show 8 * (3 - (e + 3)) = 0 by omega]
    omega

/-- and three bytes to the exponent zero. -/
theorem two_pow_le_iff_one_le (hlow : 2 ^ 16 ≤ mantissa)
    (hhigh : mantissa < 2 ^ 23) : 2 ^ (8 * (3 - exponent)) ≤ mantissa ↔ 1 ≤ exponent := by
  match exponent with
  | 0 => omega
  | 1 => omega
  | 2 => omega
  | e + 3 =>
    rw [show 8 * (3 - (e + 3)) = 0 by omega]
    omega

/-- The number of bytes that are written for a negative number fits, and its leading bytes do not
overflow when they are rounded up. -/
def SignKept (a : Nat) : Prop :=
  byteLen a ≤ 3 ∨ (a ≤ (2 ^ 24 - 1) * 2 ^ (8 * (byteLen a - 3)) ∧ byteLen a % 256 ≠ 0 ∧
    (byteLen a % 256 = 255 → a ≤ (2 ^ 23 - 1) * 2 ^ (8 * (byteLen a - 3))))

instance (a : Nat) : Decidable (SignKept a) := by unfold SignKept; infer_instance

section Negative

/-- The leading bytes of a negative number are rounded up. -/
def leadingUp (exponent a : Nat) : Nat :=
  if exponent ≤ 3 then a * 2 ^ (8 * (3 - exponent))
  else (a + (2 ^ (8 * (exponent - 3)) - 1)) / 2 ^ (8 * (exponent - 3))

theorem leading_le_leadingUp (exponent a : Nat) : leading exponent a ≤ leadingUp exponent a := by
  unfold leading leadingUp
  split_ifs
  · exact Nat.le_refl _
  · exact Nat.div_le_div_right (Nat.le_add_right _ _)

/-- The rounded bytes reach a bound if the number is above the last multiple before it. -/
theorem le_leadingUp {exponent m : Nat} (he : 3 < exponent) (hm : 0 < m) :
    m ≤ leadingUp exponent a ↔ (m - 1) * 2 ^ (8 * (exponent - 3)) < a := by
  have hpos := Nat.two_pow_pos (8 * (exponent - 3))
  obtain ⟨m, rfl⟩ := Nat.exists_eq_succ_of_ne_zero hm.ne'
  rw [leadingUp, if_neg (by omega), Nat.le_div_iff_mul_le hpos, Nat.succ_mul, Nat.succ_sub_one]
  omega

theorem leadingUp_le (ha : a ≠ 0) : leadingUp (byteLen a) a ≤ 2 ^ 24 := by
  by_cases he : byteLen a ≤ 3
  · have hlt := leading_lt ha
    rw [leading, if_pos he] at hlt
    rw [leadingUp, if_pos he]
    exact hlt.le
  · have hlt : a < 2 ^ (24 + 8 * (byteLen a - 3)) := by
      have hlen : byteLen a = a.log2 / 8 + 1 := if_neg ha
      exact Nat.lt_log2_self.trans_le (Nat.pow_le_pow_right two_pos (by omega))
    rw [pow_add] at hlt
    have hnot := (le_leadingUp (a := a) (not_le.1 he) (by decide : 0 < 2 ^ 24 + 1)).not.2
      (by rw [Nat.add_sub_cancel]; omega)
    omega

/-- Division of a negative number rounds its absolute value up. -/
theorem natAbs_neg_ediv (a : Nat) {d : Nat} (hd : 0 < d) :
    (-(a : Int) / d).natAbs = (a + (d - 1)) / d := by
  have hdiv := Nat.div_add_mod (a + (d - 1)) d
  have hmod := Nat.mod_lt (a + (d - 1)) hd
  generalize (a + (d - 1)) / d = q at hdiv ⊢
  generalize (a + (d - 1)) % d = r at hdiv hmod
  have hq : -(a : Int) / d = -(q : Int) := by
    refine ((Int.ediv_emod_unique (b := d) (r := d - 1 - r) (by omega)).2 ⟨?_, by omega,
      by omega⟩).1
    have hcast : (d * q + r : Int) = a + (d - 1) := by
      have h := congrArg (Nat.cast (R := Int)) hdiv
      push_cast at h
      rw [h, Nat.cast_sub hd]
      rfl
    rw [Int.mul_neg]
    omega
  rw [hq, Int.natAbs_neg, Int.natAbs_natCast]

theorem toNat_firstMantissa_neg (ha : a ≠ 0) :
    (firstMantissa (-(a : Int))).toNat = leadingUp (byteLen a) a := by
  have hle := leadingUp_le ha
  rw [firstMantissa, Int.natAbs_neg, Int.natAbs_natCast]
  unfold leadingUp at hle ⊢
  split_ifs at hle ⊢ with he
  · have hlt := leading_lt ha
    have hpos := toNat_firstMantissa ha
    rw [firstMantissa, Int.natAbs_natCast, if_pos he, leading, if_pos he] at hpos
    exact hpos
  · have hdiv : (-(a : Int) / 2 ^ (8 * (byteLen a - 3))).natAbs =
        (a + (2 ^ (8 * (byteLen a - 3)) - 1)) / 2 ^ (8 * (byteLen a - 3)) := by
      rw [← natAbs_neg_ediv a (Nat.two_pow_pos _)]
      rfl
    rw [hdiv, UInt32.toNat_ofNat', Nat.mod_eq_of_lt (by omega)]

theorem leadingUp_of_le (he : byteLen a ≤ 3) : leadingUp (byteLen a) a = leading (byteLen a) a := by
  rw [leadingUp, leading, if_pos he, if_pos he]

/-- When the leading bytes overflow, no mantissa is left. -/
theorem compactToBig_bigToCompact_of_full (ha : a ≠ 0) (hfull : leadingUp (byteLen a) a = 2 ^ 24) :
    compactToBig (bigToCompact (-(a : Int))) = 0 := by
  have hmantissa : firstMantissa (-(a : Int)) = 0x1000000 := by
    rw [← UInt32.toNat_inj, toNat_firstMantissa_neg ha, hfull]
    rfl
  have hdef : bigToCompact (-(a : Int)) =
      UInt32.ofNat (byteLen a * 2 ^ 24) ||| 0x1000000 ||| 0x00800000 := by
    have hunfold : bigToCompact (-(a : Int)) = if -(a : Int) = 0 then (0 : UInt32) else
        let overflow := firstMantissa (-(a : Int)) &&& 0x00800000 ≠ 0
        let exponent := byteLen (-(a : Int)).natAbs
        let compact := UInt32.ofNat ((if overflow then exponent + 1 else exponent) * 2 ^ 24) |||
          if overflow then firstMantissa (-(a : Int)) >>> 8 else firstMantissa (-(a : Int))
        if -(a : Int) < 0 then compact ||| 0x00800000 else compact := rfl
    have hoverflow : ¬(0x1000000 &&& 0x00800000 : UInt32) ≠ 0 := by decide
    rw [hunfold, if_neg (by omega), hmantissa, Int.natAbs_neg, Int.natAbs_natCast]
    simp only [hoverflow, if_false]
    rw [if_pos (by omega)]
  have hzero : (bigToCompact (-(a : Int))).toNat % 2 ^ 23 = 0 := by
    rw [hdef, UInt32.toNat_or, UInt32.toNat_or, Nat.or_mod_two_pow, Nat.or_mod_two_pow,
      UInt32.toNat_ofNat', show byteLen a * 2 ^ 24 % 2 ^ 32 % 2 ^ 23 = 0 by omega]
    rfl
  rw [compactToBig_eq, hzero]
  simp [compactValue]

/-- **The sign.** -/
theorem compactToBig_bigToCompact_neg (ha : a ≠ 0) :
    compactToBig (bigToCompact (-(a : Int))) < 0 ↔ SignKept a := by
  have hle := leadingUp_le ha
  have hlow : 2 ^ 16 ≤ leadingUp (byteLen a) a :=
    ((Nat.pow_le_pow_right two_pos (by omega)).trans (leading_bounds ha).1).trans
      (leading_le_leadingUp _ _)
  have hlen : 1 ≤ byteLen a := by rw [byteLen, if_neg ha]; omega
  by_cases hfull : leadingUp (byteLen a) a = 2 ^ 24
  · rw [compactToBig_bigToCompact_of_full ha hfull]
    refine iff_of_false (by omega) ?_
    have he : 3 < byteLen a := by
      by_contra he
      have hlt := leading_lt ha
      rw [← leadingUp_of_le (by omega), hfull] at hlt
      omega
    have hbig := (le_leadingUp he (by decide)).1 hfull.ge
    rintro (h | ⟨h, -⟩)
    · omega
    · omega
  · have hm : (firstMantissa (-(a : Int))).toNat < 2 ^ 24 := by
      rw [toNat_firstMantissa_neg ha]
      omega
    rw [compactToBig_bigToCompact_of_neg (by omega) hm, toNat_firstMantissa_neg ha, Int.natAbs_neg,
      Int.natAbs_natCast, Int.neg_neg_iff_pos, Int.natCast_pos, compactValue_pos]
    have hfits : 3 < byteLen a → a ≤ (2 ^ 24 - 1) * 2 ^ (8 * (byteLen a - 3)) := by
      intro he
      have hnot := (le_leadingUp (a := a) he (by decide : 0 < 2 ^ 24)).not.1 (by omega)
      exact not_lt.1 hnot
    by_cases h23 : 2 ^ 23 ≤ leadingUp (byteLen a) a
    · rw [normalize, if_pos h23, two_pow_le_iff_two_le (by omega) (by omega)]
      by_cases he : byteLen a ≤ 3
      · exact iff_of_true (by omega) (Or.inl he)
      · have hlarge := (le_leadingUp (not_le.1 he) (by decide)).1 h23
        have := hfits (not_le.1 he)
        rw [SignKept]
        omega
    · rw [normalize, if_neg h23, two_pow_le_iff_one_le hlow (by omega)]
      by_cases he : byteLen a ≤ 3
      · exact iff_of_true (by omega) (Or.inl he)
      · have hsmall := (le_leadingUp (not_le.1 he) (by decide)).not.1 h23
        have := hfits (not_le.1 he)
        rw [SignKept]
        omega

end Negative

/-! ## The round trip -/

/-- A number after it has been written in compact form. -/
def roundTrip (n : Int) : Int := compactToBig (bigToCompact n)

theorem log2_lt_of_lt {s : Nat} (hs : 0 < s) (hn : n < 2 ^ s) : n.log2 < s := by
  by_cases h0 : n = 0
  · rwa [h0, Nat.log2_zero]
  · exact (Nat.log2_lt h0).2 hn

theorem roundTrip_natCast (hn : n < 2 ^ 2039) : roundTrip n = compactRound n :=
  compactToBig_bigToCompact (log2_lt_of_lt (by decide) hn)

/-- What the round trip is to do with a positive number. -/
structure RoundsWell (n : Nat) : Prop where
  le : roundTrip n ≤ n
  close : (n - roundTrip n) * 2 ^ 15 < n
  fixed : roundTrip (roundTrip n) = roundTrip n

theorem roundsWell_iff (hpos : 0 < n) (hn : n < 2 ^ 2048) : RoundsWell n ↔ n < 2 ^ 2039 := by
  constructor
  · intro h
    by_contra hlarge
    have hzero : roundTrip n = 0 := compactToBig_bigToCompact_of_le (not_lt.1 hlarge) hn
    have hclose := h.close
    rw [hzero] at hclose
    omega
  · intro hsmall
    have hle := compactRound_le n
    have hround := roundTrip_natCast hsmall
    refine ⟨?_, ?_, ?_⟩
    · rw [hround]
      omega
    · have hclose := sub_compactRound_lt hpos
      rw [hround]
      omega
    · rw [hround, roundTrip_natCast (hle.trans_lt hsmall), compactRound_compactRound]

theorem roundTrip_le_iff {m : Nat} (hmn : m ≤ n) (hn : n < 2 ^ 2048) :
    roundTrip m ≤ roundTrip n ↔ n < 2 ^ 2039 ∨ m = 0 ∨ 2 ^ 2039 ≤ m := by
  by_cases hsmall : n < 2 ^ 2039
  · refine iff_of_true ?_ (Or.inl hsmall)
    rw [roundTrip_natCast hsmall, roundTrip_natCast (hmn.trans_lt hsmall)]
    exact Int.ofNat_le.2 (compactRound_mono hmn)
  · have hzero : roundTrip n = 0 := compactToBig_bigToCompact_of_le (not_lt.1 hsmall) hn
    rw [hzero]
    by_cases hm : m < 2 ^ 2039
    · by_cases hm0 : m = 0
      · subst hm0
        exact iff_of_true (le_refl 0) (Or.inr (Or.inl rfl))
      · have hne := Rounding.down_ne_zero keptFrom_le hm0
        rw [roundTrip_natCast hm, compactRound]
        refine iff_of_false (by omega) ?_
        rintro (h | h | h)
        · exact hsmall h
        · exact hm0 h
        · omega
    · refine iff_of_true ?_ (Or.inr (Or.inr (not_lt.1 hm)))
      exact (compactToBig_bigToCompact_of_le (not_lt.1 hm) (hmn.trans_lt hn)).le

theorem calcWork_anti {bits bits' : UInt32} (hpos : 0 < compactToBig bits)
    (hle : compactToBig bits ≤ compactToBig bits') : calcWork bits' ≤ calcWork bits := by
  unfold calcWork
  rw [if_neg (by omega), if_neg (by omega)]
  exact Nat.div_le_div_left (by omega) (by omega)

/-- **The compact form.** -/
theorem compact_roundTrip (m n : Nat) (z : Int) (bits bits' : UInt32) : roundTrip 0 = 0 ∧
    (0 < n → n < 2 ^ 2048 → (RoundsWell n ↔ n < 2 ^ 2039)) ∧
    (m ≤ n → n < 2 ^ 2048 →
      (roundTrip m ≤ roundTrip n ↔ n < 2 ^ 2039 ∨ m = 0 ∨ 2 ^ 2039 ≤ m)) ∧
    (0 < compactToBig bits → compactToBig bits ≤ compactToBig bits' →
      calcWork bits' ≤ calcWork bits) ∧
    (z < 0 → (roundTrip z < 0 ↔ SignKept z.natAbs)) := by
  refine ⟨rfl, roundsWell_iff, roundTrip_le_iff, calcWork_anti, fun hz => ?_⟩
  have hsign := compactToBig_bigToCompact_neg (a := z.natAbs) (by omega)
  rwa [show -(z.natAbs : Int) = z by omega] at hsign

theorem compact_roundTrip_powLimit :
    RoundsWell (2 ^ 224 - 1) ∧ roundTrip 1000000 ≤ roundTrip (2 ^ 224 - 1 : Nat) ∧
      calcWork 0x1d00ffff ≤ calcWork 0x1c00ffff ∧ roundTrip (-1000000) < 0 := by
  obtain ⟨-, hround, hmono, hwork, hsign⟩ := compact_roundTrip 1000000 (2 ^ 224 - 1) (-1000000)
    0x1c00ffff 0x1d00ffff
  exact ⟨(hround (by decide) (by decide +kernel)).2 (by decide +kernel),
    (hmono (by decide) (by decide +kernel)).2 (Or.inl (by decide +kernel)),
    hwork (by decide +kernel) (by decide +kernel), (hsign (by decide)).2 (by decide +kernel)⟩

/-- A number of 2040 bits, and a negative one right after a power of 256, get lost. -/
theorem compact_loses : roundTrip (2 ^ 2039) = 0 ∧ ¬roundTrip (2 ^ 2038) ≤ roundTrip (2 ^ 2039) ∧
      ¬roundTrip (-(2 ^ 32 - 1)) < 0 := by
  refine ⟨?_, ?_, ?_⟩ <;> decide +kernel

end Fnod
