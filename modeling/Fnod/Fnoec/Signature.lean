import Fnod.Lib.Bytes
import Fnod.Lib.Sim
import Fnod.Lib.Slice
import Mathlib.Data.Nat.Log

/-!
# `signature.go`: signatures and their bytes

A signature is written as a sequence of two integers, each behind a marker and a length byte.
`parseSig` reads the length of the sequence as a byte, adds two in byte arithmetic, cuts the string
there and then reads the first marker and length without a look at what is left.

**`parseSig_exact`**: the reads stay inside the string unless the length byte leaves no room for
them (`Overruns`), `ParseDERSignature` accepts the strings that begin with the strict encoding of
two numbers from `1` to `N - 1`, and what `Serialize` writes is read back with the smaller of `s`
and `N - s`.

An integer is described by its contents: `parseInt_integer` computes a parse of given contents,
`parseInt_safely` finds the contents of a string that is not refused.
-/

namespace Fnod.Secp256k1

open Bytes Except List

/-! ## Parsing -/

/-- `N`. -/
def curveN : Nat := 0xFFFFFFFFFFFFFFFFFFFFFFFFFFFFFFFEBAAEDCE6AF48A03BBFD25E8CD0364141

structure Signature where
  R : Nat
  S : Nat
deriving DecidableEq

/-- The two integers of a signature. -/
inductive Part
  | R
  | S
deriving DecidableEq

/-- The errors of `parseSig`. -/
inductive SigError
  | tooShort
  | noHeaderMagic
  | badLength
  | noMarker (part : Part)
  | bogusLength (part : Part)
  | negative (part : Part)
  | excessivelyPadded (part : Part)
  | badFinalLength (index length : Nat)
  | notPositive (part : Part)
  | tooBig (part : Part)
deriving DecidableEq

/-- The errors of `canonicalPadding`. -/
inductive PaddingError
  | negativeValue
  | excessivelyPaddedValue

def canonicalPadding (b : List UInt8) : Except (Fault PaddingError) Unit := do
  let b0 ← Slice.get b 0
  if b0 &&& 0x80 = 0x80 then .error (.err .negativeValue)
  else if b.length > 1 ∧ b0 = 0x00 then do
    let b1 ← Slice.get b 1
    if b1 &&& 0x80 ≠ 0x80 then .error (.err .excessivelyPaddedValue) else .ok ()
  else .ok ()

variable (sig : Signature) (der : Bool) (sigStr : List UInt8) {bs : List UInt8}

/-- The padding is only looked at for the strict format. -/
def checkPadding (part : Part) (b : List UInt8) : Except (Fault SigError) Unit :=
  if der then
    match canonicalPadding b with
    | .error (.err .negativeValue) => .error (.err (.negative part))
    | .error (.err .excessivelyPaddedValue) => .error (.err (.excessivelyPadded part))
    | .error .panic => .error .panic
    | .ok () => .ok ()
  else .ok ()

/-- One integer: the marker, the length, which leaves `spare` bytes, and the bytes. -/
def parseInt (part : Part) (spare : Int) (sigStr : List UInt8) (index : Nat) :
    Except (Fault SigError) (Nat × Nat) := do
  let marker ← Slice.get sigStr index
  if marker ≠ 0x02 then .error (.err (.noMarker part))
  else do
    let len ← Slice.get sigStr (index + 1)
    let index := index + 2
    if (len.toNat : Int) ≤ 0 ∨ (len.toNat : Int) > sigStr.length - index - spare then
      .error (.err (.bogusLength part))
    else do
      let bytes ← Slice.slice sigStr index (index + len.toNat)
      checkPadding der part bytes
      .ok (getBE bytes, index + len.toNat)

/-- The last checks of `parseSig`. -/
def checkRange (r s : Nat) : Except (Fault SigError) Signature :=
  if r = 0 then .error (.err (.notPositive .R))
  else if s = 0 then .error (.err (.notPositive .S))
  else if r ≥ curveN then .error (.err (.tooBig .R))
  else if s ≥ curveN then .error (.err (.tooBig .S))
  else .ok ⟨r, s⟩

/-- `parseSig` after the string was cut. -/
def parseBody : Except (Fault SigError) Signature := do
  let (r, index) ← parseInt der .R 3 sigStr 2
  let (s, index) ← parseInt der .S 0 sigStr index
  if index ≠ sigStr.length then .error (.err (.badFinalLength index sigStr.length))
  else checkRange r s

/-- `parseSig`. The sum `siglen + 2` is one of bytes. -/
def parseSig (der : Bool) : Except (Fault SigError) Signature :=
  if sigStr.length < 8 then .error (.err .tooShort)
  else do
    let magic ← Slice.get sigStr 0
    if magic ≠ 0x30 then .error (.err .noHeaderMagic)
    else do
      let siglen ← Slice.get sigStr 1
      if (siglen + 2).toNat > sigStr.length then .error (.err .badLength)
      else do
        let sigStr ← Slice.slice sigStr 0 (siglen + 2).toNat
        parseBody der sigStr

def parseSignature : Except (Fault SigError) Signature :=
  parseSig sigStr false

def parseDERSignature : Except (Fault SigError) Signature :=
  parseSig sigStr true

/-! ## Writing -/

/-- `big.Int.Bytes`: as few bytes as hold the number, none for zero. -/
def bigBytes (k : Nat) : List UInt8 := putBE (if k = 0 then 0 else Nat.log 256 k + 1) k

def canonicalizeInt (val : Nat) : List UInt8 :=
  let b := if (bigBytes val).length = 0 then [0x00] else bigBytes val
  if b.headD 0 &&& 0x80 ≠ 0 then 0 :: b else b

def Signature.serialize : List UInt8 :=
  let sigS := if sig.S > curveN / 2 then curveN - sig.S else sig.S
  let rb := canonicalizeInt sig.R
  let sb := canonicalizeInt sigS
  let length := 6 + rb.length + sb.length
  [0x30, UInt8.ofNat (length - 2), 0x02, UInt8.ofNat rb.length] ++ rb ++
    [0x02, UInt8.ofNat sb.length] ++ sb

/-! ## The strict encoding -/

/-- The contents of an integer that is not negative, in the fewest bytes. -/
def Canonical : List UInt8 → Prop
  | [] => False
  | [b] => b.toNat < 128
  | b :: c :: _ => b.toNat < 128 ∧ (b = 0 → 128 ≤ c.toNat)

/-- An integer of given contents. -/
def integer (bs : List UInt8) : List UInt8 := 0x02 :: UInt8.ofNat bs.length :: bs

/-- A sequence of two integers of given contents. -/
def sequence (rb sb : List UInt8) : List UInt8 :=
  0x30 :: UInt8.ofNat (4 + rb.length + sb.length) :: (integer rb ++ integer sb)

/-- The distinguished encoding of two numbers, with a length of one byte. -/
def IsDer (enc : List UInt8) (r s : Nat) : Prop :=
  ∃ rb sb, enc = sequence rb sb ∧ 4 + rb.length + sb.length < 128 ∧
    Canonical rb ∧ getBE rb = r ∧ Canonical sb ∧ getBE sb = s

theorem and_sign_eq (b : UInt8) : b &&& 0x80 = 0x80 ↔ 128 ≤ b.toNat := by
  have h : ∀ x : Fin 256, x.val &&& 128 = 128 ↔ 128 ≤ x.val := by decide +kernel
  rw [← UInt8.toNat_inj]
  exact h ⟨b.toNat, b.toNat_lt⟩

theorem getBE_cons (b : UInt8) (bs : List UInt8) :
    getBE (b :: bs) = b.toNat * 256 ^ bs.length + getBE bs := by
  rw [getBE, reverse_cons, getLE_append, length_reverse, getBE]
  simp only [getLE]
  rw [mul_zero, add_zero, add_comm, mul_comm]

theorem Canonical.ne_nil (h : Canonical bs) : bs ≠ [] := by
  intro hnil
  rw [hnil] at h
  exact h

/-- A long encoding is that of a large number. -/
theorem Canonical.length_le {n : Nat} (h : Canonical bs)
    (hlt : getBE bs < 256 ^ n) : bs.length ≤ n + 1 := by
  match bs, h with
  | [b], _ => exact Nat.succ_le_succ (Nat.zero_le n)
  | b :: c :: bs, ⟨_, hpad⟩ =>
    rw [getBE_cons, getBE_cons, length_cons] at hlt
    have hbig : 256 ^ bs.length < 256 ^ n := by
      by_cases hb : b = 0
      · have hc := Nat.mul_le_mul_right (256 ^ bs.length) (hpad hb)
        omega
      · have hb' : 1 ≤ b.toNat := Nat.pos_of_ne_zero fun h0 => hb (UInt8.toNat_inj.1 h0)
        have hb'' := Nat.mul_le_mul_right (256 ^ (bs.length + 1)) hb'
        have hpow : 256 ^ bs.length ≤ 256 ^ (bs.length + 1) :=
          Nat.pow_le_pow_right (by decide) (Nat.le_succ _)
        omega
    have hlen := (Nat.pow_lt_pow_iff_right (show 1 < 256 by decide)).1 hbig
    simp only [length_cons]
    omega

theorem canonicalPadding_safely (hbs : bs ≠ []) :
    Safely (fun _ => Canonical bs) (canonicalPadding bs) := by
  unfold canonicalPadding
  match bs with
  | [b] =>
    refine .ite (fun _ => .err _) fun hb => ?_
    rw [and_sign_eq, not_le] at hb
    exact .ok hb
  | b :: c :: bs =>
    refine .ite (fun _ => .err _) fun hb => .ite (fun hpad => ?_) fun hpad => ?_
    · refine .ite (fun _ => .err _) fun hc => .ok ⟨?_, fun _ => ?_⟩
      · rwa [and_sign_eq, not_le] at hb
      · rwa [not_not, and_sign_eq] at hc
    · rw [and_sign_eq, not_le] at hb
      exact .ok ⟨hb, fun hzero => absurd ⟨by simp, hzero⟩ hpad⟩

theorem Canonical.padding (h : Canonical bs) : canonicalPadding bs = .ok () := by
  match bs, h with
  | [b], h => simp [canonicalPadding, Slice.get, and_sign_eq, not_le.2 h]
  | b :: c :: bs, ⟨hb, hc⟩ =>
    by_cases hzero : b = 0
    · simp [canonicalPadding, Slice.get, hzero, (and_sign_eq c).2 (hc hzero)]
    · simp [canonicalPadding, Slice.get, and_sign_eq, not_le.2 hb, hzero]

theorem checkPadding_safely (hbs : bs ≠ []) (der : Bool) (part : Part) :
    Safely (fun _ => der = true → Canonical bs) (checkPadding der part bs) := by
  unfold checkPadding
  refine .ite (fun _ => ?_) fun hder => .ok fun h => absurd h hder
  have hsafe := canonicalPadding_safely hbs
  cases hrun : canonicalPadding bs with
  | ok _ => exact .ok fun _ => hsafe.of_eq_ok hrun
  | error e =>
    cases e with
    | panic => exact absurd hrun hsafe.safe
    | err e => cases e <;> exact .err _

/-! ## One integer -/

section Integer

variable {der : Bool} {part : Part} {front bs rest tail : List UInt8} {spare : Nat}

theorem parseInt_cons (marker len : UInt8) (t : List UInt8) :
    parseInt der part spare (front ++ marker :: len :: t) front.length =
      if marker ≠ 0x02 then .error (.err (.noMarker part))
      else if len.toNat = 0 ∨ t.length < len.toNat + spare then .error (.err (.bogusLength part))
      else checkPadding der part (t.take len.toNat) >>= fun _ =>
        .ok (getBE (t.take len.toNat), front.length + 2 + len.toNat) := by
  have hlength : (front ++ marker :: len :: t).length = front.length + 2 + t.length := by
    simp only [length_append, length_cons]
    omega
  have hbogus : ((len.toNat : Int) ≤ 0 ∨ (len.toNat : Int) >
      (front ++ marker :: len :: t).length - (front.length + 2 : Nat) - spare) ↔
      (len.toNat = 0 ∨ t.length < len.toNat + spare) := by
    omega
  have hmarker : (Slice.get (front ++ marker :: len :: t) front.length :
      Except (Fault SigError) UInt8) = .ok marker := Slice.get_eq (by simp)
  have hlen : (Slice.get (front ++ marker :: len :: t) (front.length + 1) :
      Except (Fault SigError) UInt8) = .ok len := Slice.get_eq (by simp)
  unfold parseInt
  simp only [hmarker, hlen, ok_bind, hbogus]
  by_cases hfits : len.toNat = 0 ∨ t.length < len.toNat + spare
  · simp only [if_pos hfits]
  · have hslice : (front ++ marker :: len :: t).take (front.length + 2 + len.toNat) =
        (front ++ [marker, len]) ++ t.take len.toNat := by
      rw [show front ++ marker :: len :: t = (front ++ [marker, len]) ++ t by simp,
        show front.length + 2 = (front ++ [marker, len]).length by simp]
      exact take_length_add_append len.toNat
    simp only [if_neg hfits]
    rw [Slice.slice_eq (Nat.le_add_right ..) (by omega), hslice, drop_left' (by simp)]
    rfl

theorem parseInt_integer (hbs : Canonical bs) (hlen : bs.length < 256)
    (hspare : spare ≤ rest.length) :
    parseInt der part spare (front ++ (integer bs ++ rest)) front.length =
      .ok (getBE bs, front.length + 2 + bs.length) := by
  have hpos := length_pos_iff.2 hbs.ne_nil
  have hbyte : (UInt8.ofNat bs.length).toNat = bs.length := by
    rw [UInt8.toNat_ofNat', Nat.mod_eq_of_lt hlen]
  have hpad : checkPadding der part bs = .ok () := by
    rw [checkPadding, hbs.padding, ite_self]
  rw [integer, cons_append, cons_append, parseInt_cons, if_neg (by decide), hbyte,
    if_neg (by rw [length_append]; omega), take_left, hpad]
  rfl

/-- With two bytes left the reads are inside, and an integer that is read has contents. -/
theorem parseInt_safely (htail : 2 ≤ tail.length) :
    Safely (fun p => ∃ bs rest, tail = integer bs ++ rest ∧ bs ≠ [] ∧ spare ≤ rest.length ∧
        (der = true → Canonical bs) ∧ p = (getBE bs, front.length + 2 + bs.length))
      (parseInt der part spare (front ++ tail) front.length) := by
  match tail, htail with
  | marker :: len :: t, _ =>
    rw [parseInt_cons]
    refine .ite (fun _ => .err _) fun hmarker => .ite (fun _ => .err _) fun hfits => ?_
    have hlen : (t.take len.toNat).length = len.toNat := by
      rw [length_take]
      omega
    have hne : t.take len.toNat ≠ [] := by
      intro hnil
      rw [hnil, length_nil] at hlen
      omega
    refine (checkPadding_safely hne der part).bind fun _ hcan => .ok ?_
    refine ⟨t.take len.toNat, t.drop len.toNat, ?_, hne, ?_, hcan, by rw [hlen]⟩
    · rw [integer, hlen, not_not.1 hmarker, UInt8.ofNat_toNat, cons_append, cons_append,
        take_append_drop]
    · rw [length_drop]
      omega

end Integer

/-! ## The two integers -/

/-- Both numbers are from `1` to `N - 1`. -/
def Signature.InRange : Prop :=
  1 ≤ sig.R ∧ sig.R < curveN ∧ 1 ≤ sig.S ∧ sig.S < curveN

theorem checkRange_safely (r s : Nat) :
    Safely (fun sig => sig.InRange ∧ sig.R = r ∧ sig.S = s) (checkRange r s) := by
  unfold checkRange
  refine .ite (fun _ => .err _) fun h₁ => .ite (fun _ => .err _) fun h₂ => .ite (fun _ => .err _)
    fun h₃ => .ite (fun _ => .err _) fun h₄ => .ok ⟨?_, rfl, rfl⟩
  unfold Signature.InRange
  dsimp only
  omega

theorem Signature.InRange.check {sig : Signature} (h : sig.InRange) :
    checkRange sig.R sig.S = .ok sig := by
  obtain ⟨hr, hrN, hs, hsN⟩ := h
  rw [checkRange, if_neg (by omega), if_neg (by omega), if_neg (by omega), if_neg (by omega)]

section Sequence

variable {der : Bool} {a l : UInt8} {rb sb rest str tail : List UInt8}

/-- The contents of a signature. -/
structure Contents (der : Bool) (rb sb : List UInt8) (sig : Signature) : Prop where
  ne_nil : rb ≠ [] ∧ sb ≠ []
  canonical : der = true → Canonical rb ∧ Canonical sb
  inRange : sig.InRange
  R_eq : sig.R = getBE rb
  S_eq : sig.S = getBE sb

/-- The second integer stands behind the first one. -/
theorem length_front (a l : UInt8) (rb : List UInt8) :
    (a :: l :: integer rb).length = 2 + 2 + rb.length := by
  simp only [integer, length_cons]
  omega

theorem parseBody_safely (htail : 2 ≤ tail.length) :
    Safely (fun sig => ∃ rb sb, tail = integer rb ++ integer sb ∧ Contents der rb sb sig)
      (parseBody der (a :: l :: tail)) := by
  refine (@parseInt_safely der .R [a, l] tail 3 htail).bind fun p hp => ?_
  obtain ⟨rb, rest, rfl, hrb, hrest, hrcan, rfl⟩ := hp
  have hS := @parseInt_safely der .S (a :: l :: integer rb) rest 0 (by omega)
  rw [length_front] at hS
  refine hS.bind fun p hp => ?_
  obtain ⟨sb, rest', rfl, hsb, -, hscan, rfl⟩ := hp
  refine .ite (fun _ => .err _) fun hend => ?_
  have hnil : rest' = [] := by
    simp only [integer, length_cons, length_append, not_not] at hend
    exact length_eq_zero_iff.1 (by omega)
  refine (checkRange_safely _ _).mono fun sig hsig =>
    ⟨rb, sb, ?_, ⟨hrb, hsb⟩, ?_, hsig.1, hsig.2.1, hsig.2.2⟩
  · rw [hnil, append_nil]
  · exact fun hder => ⟨hrcan hder, hscan hder⟩

theorem parseBody_sequence {sig : Signature} (hrb : Canonical rb) (hsb : Canonical sb)
    (hlen : 4 + rb.length + sb.length < 254) (h : sig.InRange) (hr : getBE rb = sig.R)
    (hs : getBE sb = sig.S) : parseBody der (a :: l :: (integer rb ++ integer sb)) = .ok sig := by
  have hpos := length_pos_iff.2 hsb.ne_nil
  have hR : parseInt der .R 3 (a :: l :: (integer rb ++ integer sb)) 2 = _ :=
    @parseInt_integer der .R [a, l] rb (integer sb) 3 hrb (by omega)
      (by simp only [integer, length_cons]; omega)
  have hS := @parseInt_integer der .S (a :: l :: integer rb) sb [] 0 hsb (by omega) le_rfl
  rw [append_nil, length_front] at hS
  rw [parseBody, hR]
  change (parseInt der .S ((0 : Nat) : Int) (a :: l :: integer rb ++ integer sb) (2 + 2 + rb.length)
    >>= _) = _
  rw [hS]
  refine (if_neg ?_).trans (by rw [hr, hs, h.check])
  simp only [integer, length_cons, length_append]
  omega

/-! ## The cut string -/

/-- The length byte leaves no room for the first marker and its length. -/
def Overruns (str : List UInt8) : Prop :=
  ∃ l tail, str = 0x30 :: l :: tail ∧ 6 ≤ tail.length ∧
    (l = 0 ∨ l = 254 ∨ l = 255 ∨ l = 1 ∧ tail.head? = some 0x02)

theorem parseSig_eq (htail : 6 ≤ tail.length) (hl : (l + 2).toNat ≤ tail.length + 2) :
    parseSig (0x30 :: l :: tail) der = parseBody der ((0x30 :: l :: tail).take (l + 2).toNat) := by
  have hlen : (0x30 :: l :: tail).length = tail.length + 2 := rfl
  have hmagic : (Slice.get (0x30 :: l :: tail) 0 : Except (Fault SigError) UInt8) = .ok 0x30 := rfl
  have hsiglen : (Slice.get (0x30 :: l :: tail) 1 : Except (Fault SigError) UInt8) = .ok l := rfl
  rw [parseSig, if_neg (by omega), hmagic, ok_bind, if_neg (by decide), hsiglen, ok_bind,
    if_neg (by omega), Slice.slice_eq (Nat.zero_le _) (by omega), drop_zero,
    ok_bind]

/-- **Out of range.** -/
theorem Overruns.panics (h : Overruns str) : parseSig str der = .error .panic := by
  obtain ⟨l, tail, rfl, htail, rfl | rfl | rfl | ⟨rfl, hhead⟩⟩ := h
  · rw [parseSig_eq htail (by simp)]
    rfl
  · rw [parseSig_eq htail (by simp)]
    rfl
  · rw [parseSig_eq htail (by simp)]
    rfl
  · obtain ⟨tail, rfl⟩ : ∃ t, tail = 0x02 :: t := by
      cases tail with
      | nil => cases hhead
      | cons b tail => exact ⟨tail, by rw [Option.some.inj hhead]⟩
    rw [parseSig_eq htail (by simp)]
    rfl

theorem toNat_add_two (hl : l.toNat < 254) : (l + 2).toNat = l.toNat + 2 := by
  rw [UInt8.toNat_add]
  exact Nat.mod_eq_of_lt (show l.toNat + 2 < 256 by omega)

theorem parseSig_of_lt (htail : 6 ≤ tail.length) (hl : l.toNat < 254)
    (hle : l.toNat ≤ tail.length) :
    parseSig (0x30 :: l :: tail) der = parseBody der (0x30 :: l :: tail.take l.toNat) := by
  rw [parseSig_eq htail (by rw [toNat_add_two hl]; omega), toNat_add_two hl]
  rfl

theorem eq_of_toNat {m : Nat} (h : l.toNat = m) : l = UInt8.ofNat m := by
  rw [← h, UInt8.ofNat_toNat]

/-- A length byte leaves two bytes at least, or only a first marker that is refused. -/
theorem length_byte_cases (htail : 6 ≤ tail.length) (hover : ¬Overruns (0x30 :: l :: tail)) :
    l.toNat < 254 ∧ (2 ≤ l.toNat ∨ l.toNat = 1 ∧ tail.head? ≠ some 0x02) := by
  have hlt := l.toNat_lt
  have hl : ¬(l = 0 ∨ l = 254 ∨ l = 255 ∨ l = 1 ∧ tail.head? = some 0x02) :=
    fun h => hover ⟨l, tail, rfl, htail, h⟩
  simp only [not_or, not_and] at hl
  obtain ⟨h0, h254, h255, h1⟩ := hl
  have h0' : l.toNat ≠ 0 := fun h => h0 (eq_of_toNat h)
  have h254' : l.toNat ≠ 254 := fun h => h254 (eq_of_toNat h)
  have h255' : l.toNat ≠ 255 := fun h => h255 (eq_of_toNat h)
  refine ⟨by omega, ?_⟩
  by_cases hone : l.toNat = 1
  · exact .inr ⟨hone, h1 (eq_of_toNat hone)⟩
  · exact .inl (by omega)

/-- **In range.** A string that is not overrun is read inside, and what is read has contents. -/
theorem parseSig_safely (der : Bool) (hover : ¬Overruns str) :
    Safely (fun sig => ∃ rb sb rest, str = sequence rb sb ++ rest ∧ Contents der rb sb sig)
      (parseSig str der) := by
  by_cases hshort : str.length < 8
  · rw [parseSig, if_pos hshort]
    exact .err _
  obtain ⟨a, str, rfl⟩ := exists_cons_of_length_pos (show 0 < str.length by omega)
  rw [length_cons] at hshort
  obtain ⟨l, tail, rfl⟩ := exists_cons_of_length_pos (show 0 < str.length by omega)
  rw [length_cons] at hshort
  by_cases ha : a = 0x30
  · subst ha
    have htail : 6 ≤ tail.length := by omega
    by_cases hbig : (l + 2).toNat > tail.length + 2
    · rw [show parseSig (0x30 :: l :: tail) der = .error (.err .badLength) from
        (if_neg hshort).trans (if_pos hbig)]
      exact .err _
    obtain ⟨hl, htwo | ⟨hone, hhead⟩⟩ := length_byte_cases htail hover
    · rw [toNat_add_two hl] at hbig
      have hlen : (tail.take l.toNat).length = l.toNat := by
        rw [length_take]
        omega
      rw [parseSig_of_lt htail hl (by omega)]
      refine (parseBody_safely (hlen.symm ▸ htwo)).mono fun sig hsig => ?_
      obtain ⟨rb, sb, htake, hcontents⟩ := hsig
      rw [htake] at hlen
      simp only [integer, length_append, length_cons] at hlen
      refine ⟨rb, sb, tail.drop l.toNat, ?_, hcontents⟩
      rw [sequence, cons_append, cons_append, ← htake, take_append_drop,
        eq_of_toNat (show l.toNat = 4 + rb.length + sb.length by omega)]
    · obtain ⟨b, tail, rfl⟩ := exists_cons_of_length_pos (show 0 < tail.length by omega)
      obtain rfl : l = 1 := eq_of_toNat hone
      have hb : b ≠ 0x02 := fun h => hhead (by rw [h, List.head?_cons])
      have hrefused : parseBody der [0x30, 1, b] = .error (.err (.noMarker .R)) := by
        simp [parseBody, parseInt, Slice.get, hb]
      rw [parseSig_of_lt htail hl (by rw [hone]; omega)]
      exact hrefused ▸ .err _
  · rw [show parseSig (a :: l :: tail) der = .error (.err .noHeaderMagic) from
      (if_neg hshort).trans (if_pos ha)]
    exact .err _

/-- The parse of a signature with canonical contents, whatever follows. -/
theorem parseSig_sequence {sig : Signature} (hrb : Canonical rb) (hsb : Canonical sb)
    (hlen : 4 + rb.length + sb.length < 254) (h : sig.InRange) (hr : getBE rb = sig.R)
    (hs : getBE sb = sig.S) : parseSig (sequence rb sb ++ rest) der = .ok sig := by
  have hrpos := length_pos_iff.2 hrb.ne_nil
  have hspos := length_pos_iff.2 hsb.ne_nil
  have hbyte : (UInt8.ofNat (4 + rb.length + sb.length)).toNat = 4 + rb.length + sb.length := by
    rw [UInt8.toNat_ofNat', Nat.mod_eq_of_lt (by omega)]
  have hsize : (integer rb ++ integer sb).length = 4 + rb.length + sb.length := by
    simp only [integer, length_append, length_cons]
    omega
  rw [sequence, cons_append, cons_append, parseSig_of_lt (by rw [length_append]; omega) (by omega)
      (by rw [length_append]; omega), hbyte, take_left' hsize,
    parseBody_sequence hrb hsb hlen h hr hs]

end Sequence

/-! ## What is written -/

theorem putLE_succ (n x : Nat) :
    putLE (n + 1) x = putLE n x ++ [UInt8.ofNat (x / 256 ^ n % 256)] := by
  induction n generalizing x with
  | zero => simp [putLE]
  | succ n ih =>
    rw [putLE, ih, putLE, cons_append, Nat.div_div_eq_div_mul, Nat.pow_succ']

/-- The first byte of a number in the fewest bytes is not zero. -/
theorem bigBytes_cons {k : Nat} (hk : k ≠ 0) : ∃ b bs, bigBytes k = b :: bs ∧ b ≠ 0 := by
  have htop : k / 256 ^ Nat.log 256 k % 256 = k / 256 ^ Nat.log 256 k := by
    refine Nat.mod_eq_of_lt (Nat.div_lt_of_lt_mul ?_)
    rw [← Nat.pow_succ]
    exact Nat.lt_pow_succ_log_self (by decide) k
  have hpos : 0 < k / 256 ^ Nat.log 256 k :=
    Nat.div_pos (Nat.pow_log_le_self 256 hk) (Nat.pow_pos (by decide))
  refine ⟨UInt8.ofNat (k / 256 ^ Nat.log 256 k % 256), (putLE (Nat.log 256 k) k).reverse, ?_, ?_⟩
  · rw [bigBytes, if_neg hk, putBE, putLE_succ, reverse_append, reverse_singleton, singleton_append]
  · intro hzero
    have hnat := congrArg UInt8.toNat hzero
    rw [UInt8.toNat_ofNat', Nat.mod_mod, htop] at hnat
    exact absurd hnat (Nat.ne_of_gt hpos)

theorem getBE_bigBytes (k : Nat) : getBE (bigBytes k) = k := by
  by_cases hk : k = 0
  · subst hk
    rfl
  · rw [bigBytes, if_neg hk, getBE_putBE_of_lt (Nat.lt_pow_succ_log_self (by decide) k)]

/-- **`canonicalizeInt`** writes the contents of an integer. -/
theorem canonicalizeInt_spec (k : Nat) :
    Canonical (canonicalizeInt k) ∧ getBE (canonicalizeInt k) = k := by
  by_cases hk : k = 0
  · subst hk
    exact ⟨show (0 : UInt8).toNat < 128 by decide, rfl⟩
  · obtain ⟨b, bs, hbytes, hb⟩ := bigBytes_cons hk
    have hval : getBE (b :: bs) = k := hbytes ▸ getBE_bigBytes k
    have heq : canonicalizeInt k = if b &&& 0x80 ≠ 0 then 0 :: b :: bs else b :: bs := by
      rw [canonicalizeInt, hbytes]
      rfl
    rw [heq]
    split_ifs with hsign
    · rw [getBE_cons, hval]
      exact ⟨⟨by decide, fun _ => (and_sign_ne_zero b).1 hsign⟩, by simp⟩
    · rw [hval]
      refine ⟨?_, rfl⟩
      have hlt : b.toNat < 128 := Nat.lt_of_not_le (mt (and_sign_ne_zero b).2 hsign)
      cases bs with
      | nil => exact hlt
      | cons c bs => exact ⟨hlt, fun h => absurd h hb⟩

/-! ## Parsing and writing -/

/-- The property of one string: no read outside of it. -/
def ParsesInside (str : List UInt8) : Prop :=
  parseSignature str ≠ .error .panic ∧ parseDERSignature str ≠ .error .panic

/-- The property of one string: the strict parser accepts the strict encodings. -/
def AcceptsDer (str : List UInt8) : Prop :=
  ∀ sig, parseDERSignature str = .ok sig ↔
    sig.InRange ∧ ∃ enc rest, str = enc ++ rest ∧ IsDer enc sig.R sig.S

/-- The property of one signature: it is read back with the smaller `s`. -/
def Signature.RoundTrips : Prop :=
  parseSignature sig.serialize = .ok ⟨sig.R, min sig.S (curveN - sig.S)⟩ ∧
    parseDERSignature sig.serialize = .ok ⟨sig.R, min sig.S (curveN - sig.S)⟩

theorem parsesInside_iff (str : List UInt8) : ParsesInside str ↔ ¬Overruns str := by
  constructor
  · rintro ⟨hber, -⟩ hover
    exact hber hover.panics
  · intro hover
    exact ⟨(parseSig_safely false hover).safe, (parseSig_safely true hover).safe⟩

/-- The contents of numbers below `N` are short. -/
theorem Canonical.length_le_of_lt (h : Canonical bs) (hlt : getBE bs < curveN) : bs.length ≤ 33 :=
  h.length_le (hlt.trans (show curveN < 256 ^ 32 by decide))

theorem acceptsDer (str : List UInt8) : AcceptsDer str := by
  intro sig
  constructor
  · intro hok
    have hover : ¬Overruns str := fun h => by
      rw [parseDERSignature, h.panics] at hok
      cases hok
    obtain ⟨rb, sb, rest, rfl, hcontents⟩ := (parseSig_safely true hover).of_eq_ok hok
    obtain ⟨hrb, hsb⟩ := hcontents.canonical rfl
    have hrange := hcontents.inRange
    have hrlen := hrb.length_le_of_lt (hcontents.R_eq ▸ hrange.2.1)
    have hslen := hsb.length_le_of_lt (hcontents.S_eq ▸ hrange.2.2.2)
    exact ⟨hrange, _, rest, rfl, rb, sb, rfl, by omega, hrb, hcontents.R_eq.symm, hsb,
      hcontents.S_eq.symm⟩
  · rintro ⟨hrange, enc, rest, rfl, rb, sb, rfl, hlen, hrb, hr, hsb, hs⟩
    exact parseSig_sequence hrb hsb (by omega) hrange hr hs

/-- The lower one of `s` and `N - s`, as `Serialize` takes it. -/
theorem lowS_eq (s : Nat) : (if s > curveN / 2 then curveN - s else s) = min s (curveN - s) := by
  unfold curveN
  split_ifs <;> omega

theorem serialize_eq (sig : Signature) : sig.serialize = sequence (canonicalizeInt sig.R)
      (canonicalizeInt (min sig.S (curveN - sig.S))) := by
  rw [Signature.serialize, lowS_eq]
  simp only [sequence, integer, cons_append, nil_append, append_assoc]
  congr 3
  omega

theorem Signature.InRange.roundTrips {sig : Signature} (h : sig.InRange) : sig.RoundTrips := by
  obtain ⟨hr, hrN, hs, hsN⟩ := h
  obtain ⟨hrc, hrv⟩ := canonicalizeInt_spec sig.R
  obtain ⟨hsc, hsv⟩ := canonicalizeInt_spec (min sig.S (curveN - sig.S))
  have hrlen := hrc.length_le_of_lt (hrv.symm ▸ hrN)
  have hslen := hsc.length_le_of_lt (by rw [hsv]; omega)
  have hrange : Signature.InRange ⟨sig.R, min sig.S (curveN - sig.S)⟩ := by
    unfold Signature.InRange
    dsimp only
    omega
  have hparse : ∀ der, parseSig sig.serialize der = .ok ⟨sig.R, min sig.S (curveN - sig.S)⟩ := by
    intro der
    rw [serialize_eq, ← append_nil (sequence _ _)]
    exact parseSig_sequence hrc hsc (by omega) hrange hrv hsv
  exact ⟨hparse false, hparse true⟩

/-- **Parsing.** The reads are inside the string exactly if it is not overrun, the strict parser is
exact, and signatures are read back. -/
theorem parseSig_exact (str : List UInt8) (sig : Signature) (hsig : sig.InRange) :
    (ParsesInside str ↔ ¬Overruns str) ∧ AcceptsDer str ∧ sig.RoundTrips :=
  ⟨parsesInside_iff str, acceptsDer str, hsig.roundTrips⟩

theorem parseSig_exact_small :
    ParsesInside [0x30, 6, 2, 1, 1, 2, 1, 2] ∧ Signature.RoundTrips ⟨1, 2⟩ := by
  have hsig : Signature.InRange ⟨1, 2⟩ := ⟨by decide, by decide, by decide, by decide⟩
  obtain ⟨hinside, -, hround⟩ := parseSig_exact [0x30, 6, 2, 1, 1, 2, 1, 2] ⟨1, 2⟩ hsig
  refine ⟨hinside.2 ?_, hround⟩
  rintro ⟨l, tail, heq, -, hl⟩
  obtain ⟨-, rfl, -⟩ : (0x30 : UInt8) = 0x30 ∧ l = 6 ∧ tail = [2, 1, 1, 2, 1, 2] := by
    simpa [eq_comm] using heq
  simp at hl

/-- Length bytes that wrap, or that cut the string before the first length. -/
theorem lengthByte_panics : parseSignature [0x30, 254, 2, 1, 1, 2, 1, 2] = .error .panic ∧
      parseDERSignature [0x30, 255, 2, 1, 1, 2, 1, 2] = .error .panic ∧
      parseDERSignature [0x30, 0, 2, 1, 1, 2, 1, 2] = .error .panic ∧
      parseDERSignature [0x30, 1, 2, 1, 1, 2, 1, 2] = .error .panic :=
  ⟨rfl, rfl, rfl, rfl⟩

end Fnod.Secp256k1
