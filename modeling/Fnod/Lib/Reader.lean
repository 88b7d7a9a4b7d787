import Fnod.Lib.Bytes
import Mathlib.Data.List.Induction
import Mathlib.Data.Nat.Log

/-!
# Reading byte strings

A reader takes a value from the front of a byte string and leaves the rest, or it fails. A format
is right if what was written is read back, whatever follows it (`Reads`); readers and writers are
put together alike, and so are the proofs.
-/

namespace Codec

open Bytes

/-- A reader of values. -/
abbrev Reader (α : Type) := StateT (List UInt8) Option α

variable {α β : Type} {n fuel : Nat}

/-- A number of bytes. -/
def bytes (n : Nat) : Reader (List UInt8) := fun b =>
  if b.length < n then none else some (b.take n, b.drop n)

/-- A number in a fixed number of bytes, least significant first. -/
def number (n : Nat) : Reader Nat := do
  let b ← bytes n
  pure (getLE b)

/-- A value that must be there. -/
def ofOption : Option α → Reader α
  | none => fun _ => none
  | some a => pure a

/-- A fixed number of bytes, as an array. -/
def array (n : Nat) : Reader (Vector UInt8 n) := fun b =>
  if h : n ≤ b.length then some (⟨(b.take n).toArray, by simpa using Nat.min_eq_left h⟩, b.drop n)
  else none

/-- One value after the other. -/
def many (r : Reader α) : Nat → Reader (List α)
  | 0 => pure []
  | n + 1 => do
    let a ← r
    let l ← many r n
    pure (a :: l)

/-- The value is read from the bytes, and what follows them is left. -/
def Reads (r : Reader α) (x : List UInt8) (a : α) : Prop := ∀ rest, r (x ++ rest) = some (a, rest)

section Reads

variable {r : Reader α} {f : α → Reader β} {x y : List UInt8} {a : α} {b : β}

theorem Reads.pure (a : α) : Reads (pure a) [] a := fun _ => rfl

theorem Reads.unique {a' : α} (h : Reads r x a) (h' : Reads r x a') : a = a' :=
  congrArg Prod.fst (Option.some.inj ((h []).symm.trans (h' [])))

theorem Reads.bind (hr : Reads r x a) (hf : Reads (f a) y b) : Reads (r >>= f) (x ++ y) b := by
  intro rest
  show (r (x ++ y ++ rest)).bind (fun p => f p.1 p.2) = some (b, rest)
  rw [List.append_assoc, hr (y ++ rest), Option.bind_some]
  exact hf rest

theorem Reads.map (hr : Reads r x a) (g : α → β) :
    Reads (r >>= fun a => Pure.pure (g a)) x (g a) := by
  have h := hr.bind (f := fun a => Pure.pure (g a)) (Reads.pure (g a))
  rwa [List.append_nil] at h

theorem Reads.bytes (h : x.length = n) : Reads (bytes n) x x := by
  intro rest
  unfold Codec.bytes
  rw [if_neg (by simp [← h]), ← h, List.take_left, List.drop_left]

theorem Reads.array (v : Vector UInt8 n) : Reads (array n) v.toList v := by
  intro rest
  have hlen : n = v.toList.length := v.length_toList.symm
  have hle : n ≤ (v.toList ++ rest).length := by
    rw [List.length_append, ← hlen]
    exact Nat.le_add_right _ _
  have htake : (v.toList ++ rest).take n = v.toList := List.take_left' hlen.symm
  unfold Codec.array
  rw [dif_pos hle]
  simp only [htake, List.drop_left' hlen.symm]
  rfl

theorem Reads.ofOption {o : Option α} (h : o = some a) : Reads (ofOption o) [] a := by
  subst h
  exact .pure a

theorem Reads.number {k : Nat} (h : k < 256 ^ n) : Reads (number n) (putLE n k) k := by
  have hread := (Reads.bytes (length_putLE n k)).map getLE
  rwa [getLE_putLE_of_lt h] at hread

end Reads

/-! ## Machine numbers

They are stored least significant byte first, and signed numbers by their bit patterns. -/

def putUint8 (x : UInt8) : List UInt8 := [x]

def putUint16 (x : UInt16) : List UInt8 := putLE 2 x.toNat

def putUint32 (x : UInt32) : List UInt8 := putLE 4 x.toNat

def putUint64 (x : UInt64) : List UInt8 := putLE 8 x.toNat

def putInt32 (x : Int32) : List UInt8 := putUint32 x.toUInt32

def putInt64 (x : Int64) : List UInt8 := putUint64 x.toUInt64

def uint8 : Reader UInt8 := number 1 >>= fun x => pure (UInt8.ofNat x)

def uint16 : Reader UInt16 := number 2 >>= fun x => pure (UInt16.ofNat x)

def uint32 : Reader UInt32 := number 4 >>= fun x => pure (UInt32.ofNat x)

def uint64 : Reader UInt64 := number 8 >>= fun x => pure (UInt64.ofNat x)

def int32 : Reader Int32 := uint32 >>= fun x => pure x.toInt32

def int64 : Reader Int64 := uint64 >>= fun x => pure x.toInt64

theorem Reads.ofNat {k : Nat} {f : Nat → α} {a : α} (hlt : k < 256 ^ n) (hf : f k = a) :
    Reads (Codec.number n >>= fun x => Pure.pure (f x)) (putLE n k) a :=
  hf ▸ (Reads.number hlt).map f

theorem Reads.uint8 (x : UInt8) : Reads uint8 (putUint8 x) x := by
  have hput : putUint8 x = putLE 1 x.toNat := by
    simp [putUint8, putLE]
  rw [hput]
  exact .ofNat x.toNat_lt x.ofNat_toNat

theorem Reads.uint16 (x : UInt16) : Reads uint16 (putUint16 x) x := .ofNat x.toNat_lt x.ofNat_toNat

theorem Reads.uint32 (x : UInt32) : Reads uint32 (putUint32 x) x := .ofNat x.toNat_lt x.ofNat_toNat

theorem Reads.uint64 (x : UInt64) : Reads uint64 (putUint64 x) x := .ofNat x.toNat_lt x.ofNat_toNat

theorem Reads.int32 (x : Int32) : Reads int32 (putInt32 x) x := by
  have h := (Reads.uint32 x.toUInt32).map UInt32.toInt32
  rwa [x.toInt32_toUInt32] at h

theorem Reads.int64 (x : Int64) : Reads int64 (putInt64 x) x := by
  have h := (Reads.uint64 x.toUInt64).map UInt64.toInt64
  rwa [x.toInt64_toUInt64] at h

/-! ## Variable length quantities

A number is stored in groups of seven bits, most significant group first. All bytes but the last
carry the high bit, and one is subtracted for each further byte, so that no number has two forms. -/

/-- The bytes before the last one. -/
def vlqHigh : Nat → Nat → List UInt8
  | 0, _ => []
  | fuel + 1, n =>
    if n ≤ 0x7f then [UInt8.ofNat (n + 0x80)]
    else vlqHigh fuel (n / 128 - 1) ++ [UInt8.ofNat (n % 128 + 0x80)]

def putVLQ (n : Nat) : List UInt8 :=
  if n ≤ 0x7f then [UInt8.ofNat n] else vlqHigh n (n / 128 - 1) ++ [UInt8.ofNat (n % 128)]

/-- The loop of the decoder, in 64-bit arithmetic. -/
def vlqLoop : Nat → List UInt8 → Nat × List UInt8
  | n, [] => (n, [])
  | n, val :: rest =>
    let n := (n * 128 + val.toNat % 128) % 2 ^ 64
    if val.toNat < 128 then (n, rest) else vlqLoop ((n + 1) % 2 ^ 64) rest

/-- There must be a byte. -/
def vlq : Reader Nat := fun b => if b = [] then none else some (vlqLoop 0 b)

theorem vlqLoop_high (hfuel : n < fuel) (hn : n + 1 < 2 ^ 64) (rest : List UInt8) :
    vlqLoop 0 (vlqHigh fuel n ++ rest) = vlqLoop (n + 1) rest := by
  induction fuel generalizing n rest with
  | zero => omega
  | succ fuel ih =>
    unfold vlqHigh
    split_ifs with hle
    · have hbyte : (UInt8.ofNat (n + 0x80)).toNat = n + 0x80 :=
        UInt8.toNat_ofNat_of_lt' (by simp [UInt8.size]; omega)
      rw [List.singleton_append, vlqLoop, hbyte, if_neg (by omega)]
      congr 1
      omega
    · have hbyte : (UInt8.ofNat (n % 128 + 0x80)).toNat = n % 128 + 0x80 :=
        UInt8.toNat_ofNat_of_lt' (by simp [UInt8.size]; omega)
      rw [List.append_assoc, ih (by omega) (by omega), List.singleton_append, vlqLoop, hbyte,
        if_neg (by omega)]
      congr 1
      omega

theorem Reads.vlq (hn : n < 2 ^ 64) : Reads vlq (putVLQ n) n := by
  intro rest
  have hne : putVLQ n ++ rest ≠ [] := by
    unfold putVLQ
    split_ifs <;> simp
  rw [Codec.vlq, if_neg hne]
  unfold putVLQ
  split_ifs with hle
  · have hbyte : (UInt8.ofNat n).toNat = n := UInt8.toNat_ofNat_of_lt' (by simp [UInt8.size]; omega)
    rw [List.singleton_append, vlqLoop, hbyte, if_pos (by omega)]
    congr 2
    omega
  · have hbyte : (UInt8.ofNat (n % 128)).toNat = n % 128 :=
      UInt8.toNat_ofNat_of_lt' (by simp [UInt8.size]; omega)
    rw [List.append_assoc, vlqLoop_high (by omega) (by omega), List.singleton_append,
      vlqLoop, hbyte, if_pos (by omega)]
    congr 2
    omega

/-! ### No number has two forms

A string is a whole form if its last byte is the only one without the high bit. -/

/-- The last byte, and no other one, is without the high bit. -/
def Terminated : List UInt8 → Prop
  | [] => False
  | [b] => b.toNat < 128
  | b :: bs => 128 ≤ b.toNat ∧ Terminated bs

/-- What the bytes before the last one stand for. -/
def highValue (bs : List UInt8) : Nat := bs.foldl (fun n val => n * 128 + val.toNat % 128 + 1) 0

/-- What a whole form stands for. -/
def vlqValue (bs : List UInt8) : Nat :=
  highValue bs.dropLast * 128 + (bs.getLast?.elim 0 fun val => val.toNat % 128)

theorem highValue_concat (bs : List UInt8) (b : UInt8) :
    highValue (bs ++ [b]) = highValue bs * 128 + b.toNat % 128 + 1 := by
  simp [highValue]

variable {bs : List UInt8}

theorem Terminated.split (h : Terminated bs) :
    ∃ init last, bs = init ++ [last] ∧ (∀ b ∈ init, 128 ≤ b.toNat) ∧ last.toNat < 128 := by
  induction bs with
  | nil => exact h.elim
  | cons b bs ih =>
    cases bs with
    | nil => exact ⟨[], b, rfl, by simp, h⟩
    | cons c bs =>
      obtain ⟨hb, hrest⟩ := h
      obtain ⟨init, last, heq, hinit, hlast⟩ := ih hrest
      refine ⟨b :: init, last, by rw [heq]; rfl, ?_, hlast⟩
      exact List.forall_mem_cons.2 ⟨hb, hinit⟩

theorem highValue_pos (h : bs ≠ []) : 0 < highValue bs := by
  rw [← List.dropLast_append_getLast h, highValue_concat]
  exact Nat.succ_pos _

/-- The bytes before the last one are told by what they stand for. -/
theorem vlqHigh_highValue {init : List UInt8} (hinit : ∀ b ∈ init, 128 ≤ b.toNat) (hne : init ≠ [])
    (hfuel : highValue init ≤ fuel) : vlqHigh fuel (highValue init - 1) = init := by
  induction init using List.reverseRecOn generalizing fuel with
  | nil => exact (hne rfl).elim
  | append_singleton init b ih =>
    have hb : 128 ≤ b.toNat := hinit b (by simp)
    have hlt : b.toNat < 256 := b.toNat_lt
    have hbyte : UInt8.ofNat (b.toNat % 128 + 0x80) = b := by
      have : b.toNat % 128 + 0x80 = b.toNat := by omega
      rw [this, UInt8.ofNat_toNat]
    rw [highValue_concat] at hfuel ⊢
    obtain ⟨fuel, rfl⟩ : ∃ f, fuel = f + 1 := ⟨fuel - 1, by omega⟩
    unfold vlqHigh
    by_cases hnil : init = []
    · subst hnil
      have hzero : highValue ([] : List UInt8) * 128 + b.toNat % 128 + 1 - 1 = b.toNat % 128 := by
        simp [highValue]
      rw [hzero, if_pos (by omega), hbyte]
      rfl
    · have hpos := highValue_pos hnil
      have hdiv : (highValue init * 128 + b.toNat % 128 + 1 - 1) / 128 = highValue init := by omega
      have hmod : (highValue init * 128 + b.toNat % 128 + 1 - 1) % 128 = b.toNat % 128 := by omega
      have hle : highValue init ≤ fuel := by omega
      have hrest := ih (fun c hc => hinit c (List.mem_append_left _ hc)) hnil hle
      rw [if_neg (by omega), hdiv, hmod, hbyte, hrest]

/-- **A whole form** is the one that is written for what it stands for. -/
theorem putVLQ_vlqValue (h : Terminated bs) : putVLQ (vlqValue bs) = bs := by
  obtain ⟨init, last, rfl, hinit, hlast⟩ := h.split
  have hvalue : vlqValue (init ++ [last]) = highValue init * 128 + last.toNat := by
    simp [vlqValue, Nat.mod_eq_of_lt hlast]
  rw [hvalue]
  unfold putVLQ
  by_cases hnil : init = []
  · subst hnil
    have hzero : highValue ([] : List UInt8) * 128 + last.toNat = last.toNat := by
      simp [highValue]
    rw [hzero, if_pos (by omega), UInt8.ofNat_toNat]
    rfl
  · have hpos := highValue_pos hnil
    have hdiv : (highValue init * 128 + last.toNat) / 128 = highValue init := by omega
    have hmod : (highValue init * 128 + last.toNat) % 128 = last.toNat := by omega
    rw [if_neg (by omega), hdiv, hmod, UInt8.ofNat_toNat, vlqHigh_highValue hinit hnil (by omega)]

end Codec
