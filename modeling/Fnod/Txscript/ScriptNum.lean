import Fnod.Lib.Int64
import Fnod.Txscript.Standard
import Mathlib.Data.Nat.Bitwise
import Mathlib.Tactic.GCongr
import Mathlib.Tactic.Ring

/-!
# `scriptnum.go`: numbers on the stack

A script number is written least significant byte first, with the sign in the top bit of the last
byte; if that bit is taken, a byte for the sign is added. Only the shortest form of a number is
read.

**Theorem (`scriptNum_canonical`).** `Bytes` and `makeScriptNum` are inverse to each other between
the 64-bit integers, the least one apart, and the strings of at most eight bytes that are accepted.

A string is taken as `init ++ [top]`. It stands for `getLE init + 256 ^ init.length * (top % 128)`
with the sign of `top` (`makeScriptNum_append`), and it is minimal if no shorter one could hold the
number (`Minimal`).
-/

namespace Fnod

open Bytes Except Int64 List

/-! ## The code -/

/-- The loop of `Bytes`. No positive 64-bit number is left after eight rounds. -/
def byteLoop : Nat → Int → List UInt8
  | 0, _ => []
  | fuel + 1, n => if n > 0 then UInt8.ofNat (n % 256).toNat :: byteLoop fuel (n / 256) else []

/-- `Bytes` of a script number. The magnitude of the least number is not positive, and the index of
its last byte is out of range. -/
def scriptNumBytes (n : Int) : Except (Fault ScriptError) (List UInt8) :=
  if n = 0 then .ok []
  else
    let isNegative := n < 0
    let n := if isNegative then wrap (-n) else n
    let result := byteLoop 8 n
    match result.getLast? with
    | none => .error .panic
    | some top =>
      if top &&& 0x80 ≠ 0 then .ok (result ++ [if isNegative then 0x80 else 0x00])
      else if isNegative then .ok (result.dropLast ++ [top ||| 0x80])
      else .ok result

def checkMinimalDataEncoding (v : List UInt8) : Except (Fault ScriptError) Unit :=
  if v.length = 0 then .ok ()
  else do
    let top ← Slice.get v (v.length - 1)
    if top &&& 0x7f = 0 then
      if v.length = 1 then .error (.err .minimalData)
      else do
        let second ← Slice.get v (v.length - 2)
        if second &&& 0x80 = 0 then .error (.err .minimalData) else .ok ()
    else .ok ()

/-- The loop of `makeScriptNum`, on the 64 bits of the result. -/
def decodeLoop : List UInt8 → Nat → Nat → Nat
  | [], _, result => result
  | val :: v, i, result => decodeLoop v (i + 1) (result ||| (val.toNat <<< (8 * i % 256)) % 2 ^ 64)

def makeScriptNum (v : List UInt8) (scriptNumLen : Int) : Except (Fault ScriptError) Int :=
  if v.length > scriptNumLen then .error (.err .numOutOfRange)
  else do
    checkMinimalDataEncoding v
    if v.length = 0 then .ok 0
    else do
      let result := decodeLoop v 0 0
      let top ← Slice.get v (v.length - 1)
      if top &&& 0x80 ≠ 0 then
        let mask := (0x80 <<< (8 * (v.length - 1) % 256)) % 2 ^ 64
        .ok (wrap (-wrap (result &&& (2 ^ 64 - 1 - mask) : Nat)))
      else .ok (wrap result)

/-! ## Bits of a byte -/

theorem and_rest_eq_zero (b : UInt8) : b &&& 0x7f = 0 ↔ b.toNat % 128 = 0 := by
  have h : ∀ x : Fin 256, x.val &&& 127 = 0 ↔ x.val % 128 = 0 := by decide +kernel
  rw [← UInt8.toNat_inj]
  exact h ⟨b.toNat, b.toNat_lt⟩

theorem toNat_or_sign {b : UInt8} (hb : b.toNat < 128) : (b ||| 0x80).toNat = b.toNat + 128 := by
  have h : ∀ x : Fin 128, x.val ||| 128 = x.val + 128 := by decide +kernel
  rw [UInt8.toNat_or]
  exact h ⟨b.toNat, hb⟩

/-! ## Reading -/

variable {init v : List UInt8} {top : UInt8}

/-- No shorter string holds the number: the last byte has more than the sign, or the byte before
it needs all of its bits. -/
def Minimal (init : List UInt8) (top : UInt8) : Prop :=
  top.toNat % 128 ≠ 0 ∨ ∃ u, init.getLast? = some u ∧ 128 ≤ u.toNat

/-- The number with the sign of the last byte. -/
def withSign (top : UInt8) (m : Nat) : Int := if 128 ≤ top.toNat then -m else m

theorem get_last : (Slice.get (init ++ [top]) ((init ++ [top]).length - 1) :
    Except (Fault ScriptError) UInt8) = .ok top := by
  apply Slice.get_eq
  simp

theorem checkMinimalDataEncoding_eq_ok :
    checkMinimalDataEncoding (init ++ [top]) = .ok () ↔ Minimal init top := by
  unfold checkMinimalDataEncoding Minimal
  rw [if_neg (by simp), get_last, ok_bind]
  by_cases htop : top &&& 0x7f = 0
  · have hzero := (and_rest_eq_zero top).1 htop
    rw [if_pos htop]
    rcases eq_nil_or_concat init with rfl | ⟨init', u, rfl⟩
    · simp [hzero]
    · have hget : (Slice.get (init' ++ [u] ++ [top]) ((init' ++ [u] ++ [top]).length - 2) :
          Except (Fault ScriptError) UInt8) = .ok u := by
        apply Slice.get_eq
        simp
      have hu := and_sign_ne_zero u
      rw [concat_eq_append, if_neg (by simp), hget, ok_bind]
      by_cases hbit : u &&& 0x80 = 0
      · have hlt := mt hu.2 (not_not.2 hbit)
        rw [if_pos hbit]
        simpa [hzero] using hlt
      · rw [if_neg hbit]
        simp [hu.1 hbit]
  · have hzero := mt (and_rest_eq_zero top).2 htop
    rw [if_neg htop]
    simp [hzero]

theorem two_pow_eight_mul (i : Nat) : 256 ^ i = 2 ^ (8 * i) := by
  rw [pow_mul, show 2 ^ 8 = 256 from rfl]

theorem decodeLoop_eq {i result : Nat} (hi : i + v.length ≤ 8)
    (hresult : result < 256 ^ i) : decodeLoop v i result = result + 256 ^ i * getLE v := by
  induction v generalizing i result with
  | nil => simp [decodeLoop, getLE]
  | cons val v ih =>
    rw [length_cons] at hi
    have hval := val.toNat_lt
    have hpow := two_pow_eight_mul i
    have hshift : (val.toNat <<< (8 * i % 256)) % 2 ^ 64 = val.toNat <<< (8 * i) := by
      rw [Nat.mod_eq_of_lt (show 8 * i < 256 by omega), Nat.shiftLeft_eq]
      apply Nat.mod_eq_of_lt
      calc val.toNat * 2 ^ (8 * i) < 2 ^ 8 * 2 ^ (8 * i) :=
          (Nat.mul_lt_mul_right (Nat.two_pow_pos _)).2 (by omega)
        _ = 2 ^ (8 + 8 * i) := (pow_add ..).symm
        _ ≤ 2 ^ 64 := Nat.pow_le_pow_right (by omega) (by omega)
    have hor : result ||| val.toNat <<< (8 * i) = result + 256 ^ i * val.toNat := by
      rw [Nat.or_comm, ← Nat.shiftLeft_add_eq_or_of_lt (hpow ▸ hresult), Nat.shiftLeft_eq, hpow]
      ring
    have hnext : result + 256 ^ i * val.toNat < 256 ^ (i + 1) := by
      calc result + 256 ^ i * val.toNat < 256 ^ i + 256 ^ i * 255 := by
            have : 256 ^ i * val.toNat ≤ 256 ^ i * 255 := Nat.mul_le_mul_left _ (by omega)
            omega
        _ = 256 ^ (i + 1) := by ring
    rw [decodeLoop, hshift, hor, ih (by omega) hnext, getLE, pow_succ]
    ring

theorem getLE_snoc (init : List UInt8) (top : UInt8) :
    getLE (init ++ [top]) = getLE init + 256 ^ init.length * top.toNat := by
  rw [getLE_append, getLE, getLE, Nat.mul_zero, Nat.add_zero]

/-- Clearing a bit that is above all others. -/
theorem and_clear {x j : Nat} (hx : x < 2 ^ j) (hj : j < 64) :
    (x + 2 ^ j) &&& (2 ^ 64 - 1 - 2 ^ j) = x := by
  have hle : 2 ^ j < 2 ^ 64 := Nat.pow_lt_pow_right (by omega) hj
  have hor : x + 2 ^ j = 2 ^ j ||| x := by
    rw [add_comm, ← Nat.one_shiftLeft, Nat.shiftLeft_add_eq_or_of_lt hx]
  rw [hor, show 2 ^ 64 - 1 - 2 ^ j = 2 ^ 64 - (2 ^ j + 1) by omega]
  apply Nat.eq_of_testBit_eq
  intro i
  rw [Nat.testBit_and, Nat.testBit_or, Nat.testBit_two_pow_sub_succ hle, Nat.testBit_two_pow]
  by_cases hi : i < j
  · simp [show i < 64 by omega, show j ≠ i by omega]
  · have hzero : x.testBit i = false :=
      Nat.testBit_lt_two_pow (hx.trans_le (Nat.pow_le_pow_right (by omega) (by omega)))
    rw [hzero]
    by_cases hij : j = i <;> simp [hij]

theorem pow_mul_sign (k : Nat) : 256 ^ k * 128 = 2 ^ (8 * k + 7) := by
  rw [two_pow_eight_mul, pow_add, show 2 ^ 7 = 128 from rfl]

/-- The magnitude leaves the bit of the sign free. -/
theorem magnitude_lt (init : List UInt8) (top : UInt8) :
    getLE init + 256 ^ init.length * (top.toNat % 128) < 2 ^ (8 * init.length + 7) := by
  have hinit := getLE_lt init
  have hpow := pow_mul_sign init.length
  have hle : 256 ^ init.length * (top.toNat % 128) ≤ 256 ^ init.length * 127 :=
    Nat.mul_le_mul_left _ (by omega)
  omega

/-- **What a string stands for.** -/
theorem makeScriptNum_append (hlen : init.length < 8) (hmin : Minimal init top) :
    makeScriptNum (init ++ [top]) 8 =
      .ok (withSign top (getLE init + 256 ^ init.length * (top.toNat % 128))) := by
  have hsize : (init ++ [top]).length = init.length + 1 := by simp
  have hpow := pow_mul_sign init.length
  have hle : (2 : Nat) ^ (8 * init.length + 7) ≤ 2 ^ 63 :=
    Nat.pow_le_pow_right (by omega) (by omega)
  have hm := magnitude_lt init top
  have hloop : decodeLoop (init ++ [top]) 0 0 = getLE init + 256 ^ init.length * top.toNat := by
    rw [decodeLoop_eq (by omega) (by simp), getLE_snoc]
    ring
  have hbyte := top.toNat_lt
  rw [makeScriptNum, if_neg (by omega), checkMinimalDataEncoding_eq_ok.2 hmin, ok_bind,
    if_neg (by omega), get_last, ok_bind, hloop]
  dsimp only
  unfold withSign
  by_cases hsign : 128 ≤ top.toNat
  · rw [if_pos ((and_sign_ne_zero top).2 hsign), if_pos hsign]
    have hmask : (0x80 <<< (8 * ((init ++ [top]).length - 1) % 256)) % 2 ^ 64 =
        2 ^ (8 * init.length + 7) := by
      rw [hsize, Nat.add_sub_cancel, Nat.mod_eq_of_lt (show 8 * init.length < 256 by omega),
        Nat.shiftLeft_eq, ← two_pow_eight_mul, mul_comm, hpow]
      exact Nat.mod_eq_of_lt (by omega)
    have hsum : getLE init + 256 ^ init.length * top.toNat =
        getLE init + 256 ^ init.length * (top.toNat % 128) + 2 ^ (8 * init.length + 7) := by
      rw [← hpow, add_assoc, ← mul_add, show top.toNat % 128 + 128 = top.toNat by omega]
    rw [hmask, hsum, and_clear hm (by omega)]
    generalize getLE init + 256 ^ init.length * (top.toNat % 128) = m at hm
    rw [@wrap_of_inRange m ⟨by omega, by omega⟩, wrap_of_inRange ⟨by omega, by omega⟩]
  · rw [if_neg (mt (and_sign_ne_zero top).1 hsign), if_neg hsign, Nat.mod_eq_of_lt (not_le.1 hsign)]
    rw [Nat.mod_eq_of_lt (not_le.1 hsign)] at hm
    generalize getLE init + 256 ^ init.length * top.toNat = m at hm
    rw [wrap_of_inRange ⟨by omega, by omega⟩]

/-! ## Writing -/

theorem getLE_pos (hlast : ∀ u, init.getLast? = some u → u.toNat ≠ 0) (hne : init ≠ []) :
    0 < getLE init := by
  rcases eq_nil_or_concat init with rfl | ⟨init', u, rfl⟩
  · exact absurd rfl hne
  · have hu := hlast u (by simp)
    rw [concat_eq_append, getLE_snoc]
    exact Nat.add_pos_right _ (Nat.mul_pos (Nat.pow_pos (by omega)) (Nat.pos_of_ne_zero hu))

theorem Minimal.magnitude_pos (h : Minimal init top) :
    0 < getLE init + 256 ^ init.length * (top.toNat % 128) := by
  rcases h with h | ⟨u, hu, hsign⟩
  · exact Nat.add_pos_right _ (Nat.mul_pos (Nat.pow_pos (by omega)) (Nat.pos_of_ne_zero h))
  · refine Nat.add_pos_left (getLE_pos (fun u' hu' => ?_) ?_) _
    · obtain rfl : u = u' := Option.some.inj (hu.symm.trans hu')
      omega
    · rintro rfl
      cases hu

/-- The loop writes a string without leading zeros. -/
theorem byteLoop_getLE {fuel : Nat} (hlen : init.length ≤ fuel)
    (hlast : ∀ u, init.getLast? = some u → u.toNat ≠ 0) : byteLoop fuel (getLE init) = init := by
  induction init generalizing fuel with
  | nil => cases fuel <;> rfl
  | cons b bs ih =>
    cases fuel with
    | zero => cases hlen
    | succ fuel =>
      have hpos := getLE_pos hlast (cons_ne_nil b bs)
      have hb := b.toNat_lt
      have hmod : ((getLE (b :: bs) : Int) % 256).toNat = b.toNat := by
        rw [getLE]
        omega
      have hdiv : (getLE (b :: bs) : Int) / 256 = (getLE bs : Nat) := by
        rw [getLE]
        omega
      have hlast' : ∀ u, bs.getLast? = some u → u.toNat ≠ 0 := by
        intro u hu
        apply hlast u
        rw [List.getLast?_cons, hu]
        rfl
      rw [byteLoop, if_pos (by omega), hmod, hdiv, ih (Nat.le_of_succ_le_succ hlen) hlast',
        UInt8.ofNat_toNat]

/-- Every number has such a string. -/
theorem exists_getLE_eq {fuel m : Nat} (h : m < 256 ^ fuel) :
    ∃ d : List UInt8, getLE d = m ∧ d.length ≤ fuel ∧ ∀ u, d.getLast? = some u → u.toNat ≠ 0 := by
  induction fuel generalizing m with
  | zero =>
    obtain rfl : m = 0 := by
      rw [pow_zero] at h
      omega
    exact ⟨[], rfl, Nat.le_refl 0, nofun⟩
  | succ fuel ih =>
    by_cases hm : m = 0
    · exact ⟨[], hm.symm, Nat.zero_le _, nofun⟩
    obtain ⟨d, hd, hlen, hlast⟩ := @ih (m / 256) (by rw [pow_succ] at h; omega)
    have hbyte : (UInt8.ofNat (m % 256)).toNat = m % 256 :=
      UInt8.toNat_ofNat_of_lt' (Nat.mod_lt m (by decide))
    refine ⟨UInt8.ofNat (m % 256) :: d, ?_, Nat.succ_le_succ hlen, fun u hu => ?_⟩
    · rw [getLE, hd, hbyte]
      omega
    · cases d with
      | nil =>
        obtain rfl : UInt8.ofNat (m % 256) = u := Option.some.inj hu
        rw [getLE] at hd
        omega
      | cons b bs => exact hlast u hu

/-- The byte of the sign. -/
def signByte (n : Int) : UInt8 := if n < 0 then 0x80 else 0x00

variable {n : Int}

theorem scriptNumBytes_eq (hn : n ≠ 0) (hmin : -2 ^ 63 < n) (hlast : top.toNat ≠ 0)
    (hlen : init.length < 8) (habs : n.natAbs = getLE (init ++ [top])) :
    scriptNumBytes n = .ok (if 128 ≤ top.toNat then init ++ [top, signByte n]
      else init ++ [if n < 0 then top ||| 0x80 else top]) := by
  have hmag : (if n < 0 then wrap (-n) else n) = (getLE (init ++ [top]) : Nat) := by
    rw [← habs]
    split_ifs with hneg
    · rw [wrap_of_inRange ⟨by omega, by omega⟩]
      omega
    · omega
  have hloop : byteLoop 8 (getLE (init ++ [top])) = init ++ [top] := by
    refine byteLoop_getLE (by simp; omega) fun u hu => ?_
    rw [List.getLast?_concat] at hu
    cases hu
    exact hlast
  unfold scriptNumBytes
  rw [if_neg hn]
  dsimp only
  rw [hmag, hloop, List.getLast?_concat]
  dsimp only
  by_cases hsign : 128 ≤ top.toNat
  · rw [if_pos ((and_sign_ne_zero top).2 hsign), if_pos hsign, append_assoc]
    rfl
  · rw [if_neg (mt (and_sign_ne_zero top).1 hsign), if_neg hsign, dropLast_concat]
    split_ifs <;> rfl

/-! ## One to one -/

theorem withSign_natAbs (h : 128 ≤ top.toNat ↔ n < 0) : withSign top n.natAbs = n := by
  unfold withSign
  split_ifs with hsign
  · have := h.1 hsign
    omega
  · have := mt h.2 hsign
    omega

theorem signByte_sign (n : Int) : 128 ≤ (signByte n).toNat ↔ n < 0 := by
  unfold signByte
  split_ifs with h <;> simp [h]

theorem signByte_mod (n : Int) : (signByte n).toNat % 128 = 0 := by
  unfold signByte
  split_ifs <;> rfl

theorem makeScriptNum_bytes (hmin : -2 ^ 63 < n) (hmax : n < 2 ^ 63) :
    ∃ b, scriptNumBytes n = .ok b ∧ makeScriptNum b 8 = .ok n := by
  by_cases hn : n = 0
  · subst hn
    exact ⟨[], rfl, rfl⟩
  obtain ⟨d, hd, hlen, hlast⟩ := @exists_getLE_eq 8 n.natAbs (by omega)
  rcases eq_nil_or_concat d with rfl | ⟨init, u, rfl⟩
  · rw [getLE] at hd
    omega
  rw [concat_eq_append] at hd hlen hlast
  rw [length_append, length_singleton] at hlen
  have hu : u.toNat ≠ 0 := hlast u List.getLast?_concat
  refine ⟨_, scriptNumBytes_eq hn hmin hu (by omega) hd.symm, ?_⟩
  by_cases hsign : 128 ≤ u.toNat
  · -- a byte for the sign fits, since the number has no 64th bit
    have hshort : (init ++ [u]).length < 8 := by
      by_contra hlong
      rw [length_append, length_singleton] at hlong
      have hpow : (256 : Nat) ^ 7 ≤ 256 ^ init.length := Nat.pow_le_pow_right (by omega) (by omega)
      have hmul := Nat.mul_le_mul hpow hsign
      rw [getLE_snoc] at hd
      omega
    rw [if_pos hsign, show init ++ [u, signByte n] = init ++ [u] ++ [signByte n] by simp,
      makeScriptNum_append hshort (.inr ⟨u, List.getLast?_concat, hsign⟩), signByte_mod,
      Nat.mul_zero, Nat.add_zero, hd, withSign_natAbs (signByte_sign n)]
  · have htop : ∀ t : UInt8, t.toNat % 128 = u.toNat → (128 ≤ t.toNat ↔ n < 0) →
        makeScriptNum (init ++ [t]) 8 = .ok n := by
      intro t hmod hneg
      rw [makeScriptNum_append (by omega) (.inl (hmod ▸ hu)), hmod, ← getLE_snoc, hd,
        withSign_natAbs hneg]
    rw [if_neg hsign]
    split_ifs with hneg
    · have hor := toNat_or_sign (not_le.1 hsign)
      exact htop _ (by omega) ⟨fun _ => hneg, fun _ => by omega⟩
    · exact htop _ (by omega) ⟨fun h => absurd h hsign, fun h => absurd h hneg⟩

theorem bytes_makeScriptNum (h : makeScriptNum v 8 = .ok n) :
    (-2 ^ 63 < n ∧ n < 2 ^ 63) ∧ scriptNumBytes n = .ok v := by
  rcases eq_nil_or_concat v with rfl | ⟨init, top, rfl⟩
  · obtain rfl : 0 = n := Except.ok.inj h
    exact ⟨by decide, rfl⟩
  rw [concat_eq_append] at h ⊢
  have hlen : init.length < 8 := by
    by_contra hlong
    rw [makeScriptNum, if_pos (by simp; omega)] at h
    cases h
  have hminimal : Minimal init top := by
    rw [makeScriptNum, if_neg (by simp; omega)] at h
    obtain ⟨_, hcheck, -⟩ := bind_eq_ok.1 h
    exact checkMinimalDataEncoding_eq_ok.1 hcheck
  rw [makeScriptNum_append hlen hminimal] at h
  have hm := magnitude_lt init top
  have hle : (2 : Nat) ^ (8 * init.length + 7) ≤ 2 ^ 63 :=
    Nat.pow_le_pow_right (by omega) (by omega)
  have hpos := hminimal.magnitude_pos
  generalize hmag : getLE init + 256 ^ init.length * (top.toNat % 128) = m at h hm hpos
  have habs : n.natAbs = m ∧ (n < 0 ↔ 128 ≤ top.toNat) := by
    obtain rfl : withSign top m = n := Except.ok.inj h
    unfold withSign
    split_ifs <;> omega
  obtain ⟨habs, hneg⟩ := habs
  refine ⟨by omega, ?_⟩
  by_cases hzero : top.toNat % 128 = 0
  · -- the last byte holds the sign alone
    obtain ⟨u, hu, hsign⟩ := hminimal.resolve_left (not_not.2 hzero)
    obtain ⟨init, rfl⟩ := List.getLast?_eq_some_iff.1 hu
    rw [length_append, length_singleton] at hlen
    rw [hzero, Nat.mul_zero, Nat.add_zero] at hmag
    have hbyte : signByte n = top := by
      rw [← UInt8.toNat_inj, signByte]
      have := top.toNat_lt
      split_ifs with h0
      · have := hneg.1 h0
        show 128 = top.toNat
        omega
      · have := mt hneg.2 h0
        show 0 = top.toNat
        omega
    rw [scriptNumBytes_eq (by omega) (by omega) (by omega) (by omega) (habs.trans hmag.symm),
      if_pos hsign, hbyte]
    simp
  · have hrest : (UInt8.ofNat (top.toNat % 128)).toNat = top.toNat % 128 :=
      UInt8.toNat_ofNat_of_lt' (show top.toNat % 128 < 256 by omega)
    rw [← hrest, ← getLE_snoc] at hmag
    rw [scriptNumBytes_eq (by omega) (by omega) (by omega) hlen (habs.trans hmag.symm),
      if_neg (by omega)]
    congr 3
    have := top.toNat_lt
    rw [← UInt8.toNat_inj]
    split_ifs with h0
    · have := hneg.1 h0
      rw [toNat_or_sign (by omega), hrest]
      omega
    · have := mt hneg.2 h0
      omega

/-- **Numbers and minimal encodings correspond to each other.** Every 64-bit integer but the least
is read back from its bytes, every accepted string is written again, and so each number has exactly
one string that is read as it. -/
theorem scriptNum_canonical : (∀ n : Int, -2 ^ 63 < n → n < 2 ^ 63 →
      ∃ b, scriptNumBytes n = .ok b ∧ makeScriptNum b 8 = .ok n) ∧
    (∀ (v : List UInt8) (n : Int), v.length ≤ 8 → makeScriptNum v 8 = .ok n →
      scriptNumBytes n = .ok v) ∧
    ∀ n : Int, (-2 ^ 63 < n ∧ n < 2 ^ 63) ↔ ∃! v, makeScriptNum v 8 = .ok n := by
  refine ⟨fun n => makeScriptNum_bytes, fun v n _ h => (bytes_makeScriptNum h).2, fun n => ?_⟩
  constructor
  · rintro ⟨hmin, hmax⟩
    obtain ⟨b, hb, hread⟩ := makeScriptNum_bytes hmin hmax
    refine ⟨b, hread, fun v hv => ?_⟩
    have hwritten := (bytes_makeScriptNum hv).2
    exact Except.ok.inj (hwritten.symm.trans hb)
  · rintro ⟨v, hv, -⟩
    exact (bytes_makeScriptNum hv).1

/-- The two examples of a byte that is added for the sign. -/
theorem scriptNum_canonical_255 : (∃ b, scriptNumBytes 255 = .ok b ∧ makeScriptNum b 8 = .ok 255) ∧
      scriptNumBytes (-255) = .ok [0xff, 0x80] :=
  ⟨scriptNum_canonical.1 255 (by decide) (by decide),
    scriptNum_canonical.2.1 _ _ (by decide) (by decide +kernel)⟩

end Fnod
