import Fnod.Lib.Canonical

/-!
# Package `wire`: variable length integers

A number below `0xfd` is one byte; a larger one follows a byte that tells its width. A reader
refuses a number that would have fitted a shorter form, so each number has one form only
(`accepts_varInt`). Byte strings are stored with their length in front.

**Theorem (`accepts_script`, `reads_script`).** A script is read back if it is no longer than
allowed, and the bytes that are accepted as a script are those that are written for it.
-/

namespace Fnod.Wire

open Codec List UInt64

def readVarInt : Reader UInt64 := do
  let discriminant ← uint8
  if discriminant = 0xff then do
    let rv ← uint64
    guard (¬rv < 0x100000000)
    pure rv
  else if discriminant = 0xfe then do
    let sv ← uint32
    guard (¬sv.toUInt64 < 0x10000)
    pure sv.toUInt64
  else if discriminant = 0xfd then do
    let sv ← uint16
    guard (¬sv.toUInt64 < 0xfd)
    pure sv.toUInt64
  else
    pure discriminant.toUInt64

def writeVarInt (val : UInt64) : List UInt8 :=
  if val < 0xfd then putUint8 val.toUInt8
  else if val ≤ 0xffff then putUint8 0xfd ++ putUint16 val.toUInt16
  else if val ≤ 0xffffffff then putUint8 0xfe ++ putUint32 val.toUInt32
  else putUint8 0xff ++ putUint64 val

def varIntSerializeSize (val : UInt64) : Nat :=
  if val < 0xfd then 1
  else if val ≤ 0xffff then 3
  else if val ≤ 0xffffffff then 5
  else 9

@[simp] theorem length_writeVarInt (val : UInt64) :
    (writeVarInt val).length = varIntSerializeSize val := by
  unfold writeVarInt varIntSerializeSize
  split_ifs <;> simp [putUint8, putUint16, putUint32, putUint64]

/-! ## The four forms -/

theorem writeVarInt_uint8 {x : UInt8} (hx : x < 0xfd) : writeVarInt x.toUInt64 = putUint8 x := by
  have hlt : x.toUInt64 < 0xfd := by
    rw [lt_iff_toNat_lt, UInt8.toNat_toUInt64]
    exact UInt8.lt_iff_toNat_lt.1 hx
  rw [writeVarInt, if_pos hlt, UInt8.toUInt8_toUInt64]

theorem writeVarInt_uint16 {x : UInt16} (hx : ¬x.toUInt64 < 0xfd) :
    writeVarInt x.toUInt64 = putUint8 0xfd ++ putUint16 x := by
  have hle : x.toUInt64 ≤ 0xffff := by
    rw [le_iff_toNat_le, UInt16.toNat_toUInt64]
    exact Nat.le_of_lt_succ x.toNat_lt
  rw [writeVarInt, if_neg hx, if_pos hle, UInt16.toUInt16_toUInt64]

theorem writeVarInt_uint32 {x : UInt32} (hx : ¬x.toUInt64 < 0x10000) :
    writeVarInt x.toUInt64 = putUint8 0xfe ++ putUint32 x := by
  have hge : 0x10000 ≤ x.toUInt64.toNat := Nat.le_of_not_lt fun h => hx (lt_iff_toNat_lt.2 h)
  have hlt : ¬x.toUInt64 < 0xfd := fun h =>
    absurd (lt_iff_toNat_lt.1 h) (by simp only [reduceToNat]; omega)
  have hle : ¬x.toUInt64 ≤ 0xffff := fun h =>
    absurd (le_iff_toNat_le.1 h) (by simp only [reduceToNat]; omega)
  have hle' : x.toUInt64 ≤ 0xffffffff := by
    rw [le_iff_toNat_le, UInt32.toNat_toUInt64]
    exact Nat.le_of_lt_succ x.toNat_lt
  rw [writeVarInt, if_neg hlt, if_neg hle, if_pos hle', UInt32.toUInt32_toUInt64]

theorem writeVarInt_uint64 {x : UInt64} (hx : ¬x < 0x100000000) :
    writeVarInt x = putUint8 0xff ++ putUint64 x := by
  have hge : 0x100000000 ≤ x.toNat := Nat.le_of_not_lt fun h => hx (UInt64.lt_iff_toNat_lt.2 h)
  have hbig : ∀ y : UInt64, y.toNat < 0x100000000 → ¬x ≤ y := fun y hy h =>
    absurd (UInt64.le_iff_toNat_le.1 h) (by omega)
  have hlt : ¬x < 0xfd := fun h => hbig 0xfd (by decide) (UInt64.le_of_lt h)
  rw [writeVarInt, if_neg hlt, if_neg (hbig _ (by decide)), if_neg (hbig _ (by decide))]

/-- A number has one of the four forms, and the width of the form is the least one. -/
theorem varInt_cases (val : UInt64) : (∃ x : UInt8, x < 0xfd ∧ val = x.toUInt64) ∨
    (∃ x : UInt16, ¬x.toUInt64 < 0xfd ∧ val = x.toUInt64) ∨
    (∃ x : UInt32, ¬x.toUInt64 < 0x10000 ∧ val = x.toUInt64) ∨ ¬val < 0x100000000 := by
  by_cases h₁ : val.toNat < 0xfd
  · refine .inl ⟨UInt8.ofNat val.toNat, ?_, ?_⟩
    · rw [UInt8.lt_iff_toNat_lt, UInt8.toNat_ofNat_of_lt' (by simp [UInt8.size]; omega)]
      exact h₁
    · apply UInt64.toNat_inj.1
      rw [UInt8.toNat_toUInt64, UInt8.toNat_ofNat_of_lt' (by simp [UInt8.size]; omega)]
  by_cases h₂ : val.toNat < 0x10000
  · have hval : (UInt16.ofNat val.toNat).toUInt64 = val := by
      apply UInt64.toNat_inj.1
      rw [UInt16.toNat_toUInt64, UInt16.toNat_ofNat_of_lt' (by simp [UInt16.size]; omega)]
    refine .inr (.inl ⟨UInt16.ofNat val.toNat, ?_, hval.symm⟩)
    rw [hval, UInt64.lt_iff_toNat_lt]
    exact h₁
  by_cases h₃ : val.toNat < 0x100000000
  · have hval : (UInt32.ofNat val.toNat).toUInt64 = val := by
      apply UInt64.toNat_inj.1
      rw [UInt32.toNat_toUInt64, UInt32.toNat_ofNat_of_lt' (by simp [UInt32.size]; omega)]
    refine .inr (.inr (.inl ⟨UInt32.ofNat val.toNat, ?_, hval.symm⟩))
    rw [hval, UInt64.lt_iff_toNat_lt]
    exact h₂
  · exact .inr (.inr (.inr fun h => h₃ (UInt64.lt_iff_toNat_lt.1 h)))

/-- **A number is read back.** -/
theorem reads_varInt (val : UInt64) : Reads readVarInt (writeVarInt val) val := by
  rcases varInt_cases val with ⟨x, hx, rfl⟩ | ⟨x, hx, rfl⟩ | ⟨x, hx, rfl⟩ | hval
  · rw [writeVarInt_uint8 hx]
    have hne : ∀ y : UInt8, 0xfd ≤ y → x ≠ y := fun y hy heq =>
      absurd hx (UInt8.not_lt.2 (heq ▸ hy))
    have hread : Reads readVarInt (putUint8 x ++ []) x.toUInt64 :=
      (Reads.uint8 x).bind (.ite_false (hne _ (by decide)) (.ite_false (hne _ (by decide))
        (.ite_false (hne _ (by decide)) (.pure _))))
    rwa [append_nil] at hread
  · rw [writeVarInt_uint16 hx]
    exact (Reads.uint8 0xfd).bind (.ite_false (by decide) (.ite_false (by decide) (.ite_true rfl
      (((Reads.uint16 x).bind (.bind (.check hx) (.pure _)))))))
  · rw [writeVarInt_uint32 hx]
    exact (Reads.uint8 0xfe).bind (.ite_false (by decide) (.ite_true rfl
      ((Reads.uint32 x).bind (.bind (.check hx) (.pure _)))))
  · rw [writeVarInt_uint64 hval]
    exact (Reads.uint8 0xff).bind (.ite_true rfl
      ((Reads.uint64 val).bind (.bind (.check hval) (.pure _))))

/-- **No number has two forms.** -/
theorem accepts_varInt : Accepts readVarInt fun x val => x = writeVarInt val := by
  refine Accepts.uint8.bind fun x d hx => ?_
  subst hx
  refine .ite (fun hd => ?_) fun h₁ => .ite (fun hd => ?_) fun h₂ =>
    .ite (fun hd => ?_) fun h₃ => ?_
  · subst hd
    refine Accepts.uint64.bind fun y rv hy => Accepts.check.bind fun z _ ⟨hz, hmin⟩ => .pure ?_
    rw [hy, hz, writeVarInt_uint64 hmin]
    rfl
  · subst hd
    refine Accepts.uint32.bind fun y sv hy => Accepts.check.bind fun z _ ⟨hz, hmin⟩ => .pure ?_
    rw [hy, hz, writeVarInt_uint32 hmin]
    rfl
  · subst hd
    refine Accepts.uint16.bind fun y sv hy => Accepts.check.bind fun z _ ⟨hz, hmin⟩ => .pure ?_
    rw [hy, hz, writeVarInt_uint16 hmin]
    rfl
  · refine .pure ?_
    have hlt : d < 0xfd := by
      have := d.toNat_lt
      rw [UInt8.lt_iff_toNat_lt]
      rw [← UInt8.toNat_inj] at h₁ h₂ h₃
      simp only [UInt8.reduceToNat] at h₁ h₂ h₃ ⊢
      omega
    rw [writeVarInt_uint8 hlt, append_nil]

/-! ## Byte strings -/

def maxMessagePayload : UInt32 := 1024 * 1024 * 32

/-- `readScript`. The buffers that scripts are read to and their pool are left out. -/
def readScript (maxAllowed : UInt32) : Reader (List UInt8) := do
  let count ← readVarInt
  guard (count ≤ maxAllowed.toUInt64)
  bytes count.toNat

def writeVarBytes (bytes : List UInt8) : List UInt8 :=
  writeVarInt (UInt64.ofNat bytes.length) ++ bytes

@[simp] theorem length_writeVarBytes (b : List UInt8) :
    (writeVarBytes b).length = varIntSerializeSize (UInt64.ofNat b.length) + b.length := by
  rw [writeVarBytes, length_append, length_writeVarInt]

variable {n : Nat} {limit : UInt64}

theorem toNat_length_of_le (h : n ≤ limit.toNat) : (UInt64.ofNat n).toNat = n :=
  toNat_ofNat_of_lt' (lt_of_le_of_lt h limit.toNat_lt)

theorem ofNat_length_le (h : n ≤ limit.toNat) : UInt64.ofNat n ≤ limit := by
  rwa [le_iff_toNat_le, toNat_length_of_le h]

theorem reads_script {maxAllowed : UInt32} {b : List UInt8} (h : b.length ≤ maxAllowed.toNat) :
    Reads (readScript maxAllowed) (writeVarBytes b) b := by
  have hle : b.length ≤ maxAllowed.toUInt64.toNat := by rwa [UInt32.toNat_toUInt64]
  exact (reads_varInt _).bind (.bind (.check (ofNat_length_le hle))
    (.bytes (toNat_length_of_le hle).symm))

theorem accepts_script (maxAllowed : UInt32) :
    Accepts (readScript maxAllowed) fun x b => x = writeVarBytes b ∧
      b.length ≤ maxAllowed.toNat := by
  refine accepts_varInt.bind fun x count hx => Accepts.check.bind fun y _ ⟨hy, hle⟩ =>
    (Accepts.bytes _).mono fun z b ⟨hz, hlen⟩ => ?_
  subst hx hy hz
  rw [UInt64.le_iff_toNat_le, UInt32.toNat_toUInt64] at hle
  exact ⟨by rw [writeVarBytes, hlen, UInt64.ofNat_toNat, nil_append], hlen ▸ hle⟩

/-! ## Lists

A list is stored with its length in front, and the reader checks the length first. -/

/-- The length, the check of it and the items. -/
def readList {α : Type} (limit : UInt64) (r : Reader α) : Reader (List α) := do
  let count ← readVarInt
  guard (count ≤ limit)
  many r count.toNat

def writeList {α : Type} (put : α → List UInt8) (l : List α) : List UInt8 :=
  writeVarInt (UInt64.ofNat l.length) ++ l.flatMap put

section Lists

variable {α : Type} {limit : UInt64} {r : Reader α} {put : α → List UInt8} {l : List α}

/-- Two lists are put together item by item, and only the items of the first one are written. -/
theorem writeList_zipWith_left {β γ : Type} {put' : γ → List UInt8} {g : α → β → γ}
    (h : ∀ a b, put' (g a b) = put a) {m : List β} (hlen : l.length = m.length) :
    writeList put' (l.zipWith g m) = writeList put l := by
  have hmap : (l.zipWith g m).map put' = l.map put := by
    rw [map_zipWith]
    refine ext_getElem (by simp [hlen]) fun i hi hi' => ?_
    simp [h]
  simp only [writeList, flatMap_def, hmap, length_zipWith, hlen, Nat.min_self]

theorem writeList_zipWith_right {β γ : Type} {put' : γ → List UInt8} {g : β → α → γ}
    (h : ∀ b a, put' (g b a) = put a) {m : List β} (hlen : m.length = l.length) :
    writeList put' (m.zipWith g l) = writeList put l := by
  rw [zipWith_comm]
  exact writeList_zipWith_left (fun a b => h b a) hlen.symm

theorem length_writeList {size : α → Nat} (h : ∀ a, (put a).length = size a) (l : List α) :
    (writeList put l).length = varIntSerializeSize (UInt64.ofNat l.length) + (l.map size).sum := by
  simp only [writeList, length_append, length_writeVarInt, length_flatMap, h]

theorem reads_list_map {g : α → α} (hlen : l.length ≤ limit.toNat)
    (h : ∀ a ∈ l, Reads r (put a) (g a)) :
    Reads (readList limit r) (writeList put l) (l.map g) := by
  refine (reads_varInt _).bind (.bind (.check (ofNat_length_le hlen)) ?_)
  rw [toNat_length_of_le hlen]
  exact .many_map h

theorem reads_list (hlen : l.length ≤ limit.toNat) (h : ∀ a ∈ l, Reads r (put a) a) :
    Reads (readList limit r) (writeList put l) l := by
  have hread := reads_list_map (g := id) hlen h
  rwa [map_id] at hread

theorem accepts_list {P : List UInt8 → α → Prop} (h : Accepts r fun x a => x = put a ∧ P x a) :
    Accepts (readList limit r) fun x l =>
      x = writeList put l ∧ l.length ≤ limit.toNat ∧ ∀ a ∈ l, P (put a) a := by
  refine accepts_varInt.bind fun x count hx => Accepts.check.bind fun y _ ⟨hy, hle⟩ =>
    (h.many _).mono fun z l ⟨hz, hlen, hl⟩ => ?_
  subst hx hy hz
  rw [UInt64.le_iff_toNat_le, ← hlen] at hle
  exact ⟨by rw [writeList, hlen, UInt64.ofNat_toNat, nil_append], hle, hl⟩

theorem map_readList {β : Type} {r' : Reader β} {g : α → β} (h : g <$> r = r') :
    List.map g <$> readList limit r = readList limit r' := by
  simp only [readList, map_bind, map_many h]

end Lists

end Fnod.Wire
