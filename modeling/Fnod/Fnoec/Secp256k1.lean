import Fnod.Lib.Bytes
import Fnod.Lib.PowMod
import Mathlib.Tactic.NormNum.Prime

/-!
# Package `secp256k1`: public keys

A key is a point of the curve `y² = x³ + 7` over the field of `P` elements. It is written with both
coordinates, or with the first one and the parity of the second; `decompressPoint` then finds the
second one as a square root. `P` is prime and one less than a multiple of four, so that the root is
a power and there is one of each parity.

**Theorem (`parsePubKey_uncompressed`).** A key that is parsed from both coordinates is parsed from
the first one and the parity of the second, and is written as it was.

The field values of `IsOnCurve` are numbers modulo `P` here.
-/

namespace Fnod.Secp256k1

open Bytes Option PowMod

/-! ## The field -/

/-- `P`. -/
def fieldP : Nat := 0xFFFFFFFFFFFFFFFFFFFFFFFFFFFFFFFFFFFFFFFFFFFFFFFFFFFFFFFEFFFFFC2F

/-- `B`. -/
def curveB : Nat := 7

def qPlus1Div4 : Nat := (fieldP + 1) / 4

/-- The largest prime of `P - 1`, by the largest ones of its own predecessor. -/
theorem prime_chain :
    Nat.Prime 205115282021455665897114700593932402728804164701536103180137503955397371 := by
  have h₁ : Nat.Prime 173378833005251801 :=
    prime_of_powMod _ 6 64 [2, 2, 2, 5, 5, 2621, 24809, 13331831] (by norm_num) (by norm_num)
      (by norm_num) (by decide +kernel) (by decide +kernel) (by decide +kernel)
  have h₂ : Nat.Prime 22149492674086928081353 :=
    prime_of_powMod _ 5 128 [173378833005251801, 5323, 3, 2, 2, 2] ⟨h₁, by norm_num⟩
      (by norm_num) (by norm_num) (by decide +kernel) (by decide +kernel) (by decide +kernel)
  have h₃ : Nat.Prime 132896956044521568488119 :=
    prime_of_powMod _ 6 128 [22149492674086928081353, 3, 2] ⟨h₂, by norm_num⟩
      (by norm_num) (by norm_num) (by decide +kernel) (by decide +kernel) (by decide +kernel)
  have h₄ : Nat.Prime 255515944373312847190720520512484175977 :=
    prime_of_powMod _ 3 128
      [107590001, 7240687, 96557, 41201, 4423, 2657, 1627, 11, 7, 7, 2, 2, 2] (by norm_num)
      (by norm_num) (by norm_num) (by decide +kernel) (by decide +kernel) (by decide +kernel)
  exact prime_of_powMod _ 10 256 [255515944373312847190720520512484175977,
      132896956044521568488119, 7723, 31, 29, 29, 5, 3, 2] ⟨h₄, h₃, by norm_num⟩
    (by norm_num) (by norm_num) (by decide +kernel) (by decide +kernel) (by decide +kernel)

/-- **`P` is prime.** -/
theorem prime_fieldP : fieldP.Prime :=
  prime_of_powMod _ 3 256 [205115282021455665897114700593932402728804164701536103180137503955397371,
      13441, 7, 3, 2] ⟨prime_chain, by norm_num⟩ (by decide +kernel) (by decide +kernel)
    (by decide +kernel) (by decide +kernel) (by decide +kernel)

instance : Fact fieldP.Prime := ⟨prime_fieldP⟩

/-! ## Points -/

def isOdd (a : Nat) : Bool := a % 2 = 1

/-- `decompressPoint`: the second coordinate of the given parity. -/
def decompressPoint (x : Nat) (ybit : Bool) : Option Nat :=
  let x3 := x * x * x + curveB
  let y := powMod fieldP 256 x3 qPlus1Div4
  let y := if ybit ≠ isOdd y then fieldP - y else y
  if ybit ≠ isOdd y then none else some y

def isOnCurve (x y : Nat) : Bool := y * y % fieldP = (x * x * x + 7) % fieldP

/-- **The second coordinate** of a point is found again from its parity. -/
theorem decompressPoint_eq {x y : Nat} (hy : y < fieldP) (h : isOnCurve x y = true) :
    decompressPoint x (isOdd y) = some y := by
  have hcurve : y * y % fieldP = (x * x * x + 7) % fieldP := of_decide_eq_true h
  have hroot : powMod fieldP 256 (x * x * x + curveB) qPlus1Div4 =
      (x * x * x + 7) ^ qPlus1Div4 % fieldP := powMod_eq _ _ (by decide +kernel)
  unfold decompressPoint
  dsimp only
  rw [hroot]
  generalize hz : (x * x * x + 7) ^ qPlus1Div4 % fieldP = z
  have hlt : z < fieldP := hz ▸ Nat.mod_lt _ (by decide +kernel)
  have hsq : z * z % fieldP = y * y % fieldP := by
    rw [← hz, ← Nat.mul_mod, hcurve]
    exact sq_root (by decide +kernel) hcurve
  have hodd : fieldP % 2 = 1 := by decide +kernel
  have hparity : ∀ {a : Nat}, isOdd y = isOdd a → a % 2 = y % 2 := fun h => by
    unfold isOdd at h
    rw [decide_eq_decide] at h
    omega
  by_cases hsame : isOdd y = isOdd z
  · obtain rfl : z = y := eq_of_sq_eq hodd hlt hy hsq (hparity hsame)
    simp
  · have hother : isOdd y = isOdd (fieldP - z) := by
      unfold isOdd at hsame ⊢
      rw [decide_eq_decide] at hsame ⊢
      omega
    have hpos : z ≠ 0 := by
      rintro rfl
      have hzero : y = 0 := by
        by_contra hne
        have hdvd : fieldP ∣ y * y := Nat.dvd_of_mod_eq_zero hsq.symm
        have hle := Nat.le_of_dvd (pos_of_ne_zero hne) ((prime_fieldP.dvd_mul.1 hdvd).elim id id)
        omega
      exact hsame (by rw [hzero])
    have heq : fieldP - z = y := eq_of_sq_eq hodd (by omega) hy ((sq_sub hlt.le).trans hsq)
      (hparity hother)
    rw [if_pos hsame, heq]
    simp

/-! ## Keys -/

structure PublicKey where
  x : Nat
  y : Nat
deriving DecidableEq

/-- The point that the bytes of a key give, by their number. -/
def decodePoint (format : UInt8) (coordinates : List UInt8) : Option PublicKey :=
  let ybit := format &&& 1 = 1
  let format := format &&& 0xfe
  match coordinates.length with
  | 64 =>
    if format ≠ 0x04 then none
    else some ⟨getBE (coordinates.take 32), getBE (coordinates.drop 32)⟩
  | 32 =>
    if format ≠ 0x02 then none
    else (decompressPoint (getBE coordinates) ybit).map (⟨getBE coordinates, ·⟩)
  | _ => none

/-- `ParsePubKey`. Its callers look only at whether there is an error. -/
def parsePubKey (pubKeyStr : List UInt8) : Option PublicKey :=
  match pubKeyStr with
  | [] => none
  | format :: coordinates => do
    let pubkey ← decodePoint format coordinates
    if fieldP ≤ pubkey.x then none
    else if fieldP ≤ pubkey.y then none
    else if isOnCurve pubkey.x pubkey.y = false then none
    else some pubkey

def PublicKey.serializeUncompressed (p : PublicKey) : List UInt8 :=
  0x04 :: (putBE 32 p.x ++ putBE 32 p.y)

/-- The format byte of a key that is written by its first coordinate. -/
def compressedFormat (odd : Bool) : UInt8 := if odd then 0x03 else 0x02

theorem compressedFormat_bits (odd : Bool) : compressedFormat odd &&& 0xfe = 0x02 ∧
    decide (compressedFormat odd &&& 1 = 1) = odd := by
  cases odd <;> decide

theorem parsePubKey_eq_some {format : UInt8} {coordinates : List UInt8} {key : PublicKey} :
    parsePubKey (format :: coordinates) = some key ↔ decodePoint format coordinates = some key ∧
      key.x < fieldP ∧ key.y < fieldP ∧ isOnCurve key.x key.y = true := by
  unfold parsePubKey
  dsimp only
  cases hpoint : decodePoint format coordinates with
  | none => simp
  | some pubkey =>
    simp only [bind_eq_bind, bind_some]
    split_ifs with hx hy hcurve <;> grind

/-- **A key that is written with both coordinates** is told by the first one and the parity of the
second. -/
theorem parsePubKey_uncompressed {x y : List UInt8} (hx : x.length = 32) (hy : y.length = 32)
    {key : PublicKey} (h : parsePubKey (0x04 :: (x ++ y)) = some key) :
    parsePubKey (compressedFormat (isOdd (getBE y)) :: x) = some key ∧
      key.serializeUncompressed = 0x04 :: (x ++ y) := by
  obtain ⟨hpoint, hxlt, hylt, hcurve⟩ := parsePubKey_eq_some.1 h
  have hkey : key = ⟨getBE x, getBE y⟩ := by
    unfold decodePoint at hpoint
    rw [List.length_append, hx, hy, List.take_left' hx, List.drop_left' hx] at hpoint
    exact (Option.some.inj hpoint).symm
  subst hkey
  constructor
  · rw [parsePubKey_eq_some]
    refine ⟨?_, hxlt, hylt, hcurve⟩
    have hroot : decompressPoint (getBE x) (isOdd (getBE y)) = some (getBE y) :=
      decompressPoint_eq hylt hcurve
    obtain ⟨hformat, hbit⟩ := compressedFormat_bits (isOdd (getBE y))
    unfold decodePoint
    simp only [hx, hformat, hbit, hroot, ne_eq, not_true, if_false, map_some]
  · have hxs := putBE_getBE x
    have hys := putBE_getBE y
    rw [hx] at hxs
    rw [hy] at hys
    rw [PublicKey.serializeUncompressed, hxs, hys]

end Fnod.Secp256k1
