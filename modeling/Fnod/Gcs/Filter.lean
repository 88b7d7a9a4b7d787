import Fnod.Gcs.Bits
import Fnod.Lib.Bytes
import Mathlib.Data.List.Sort

/-!
# `gcs.go`: Golomb coded set filters

A filter holds the hashes of its items, reduced modulo `N * 2 ^ P` and sorted, as the Golomb codes
of their differences. `Match` and `MatchAny` read the codes back with a running sum, and both start
from the sum zero, which they treat as if it were a value that was read: `Match` does not look for
zero, and `MatchAny` takes zero as found.

**`membership_iff`** says when the answers are right. The reader is described by the values that are
left to read (`Holds`), one step by `Holds.readFullUint64`; the loops are inductions over these
steps. The zero bits that end the last byte are read as values equal to the last one, or as the
end.
-/

namespace Fnod.Gcs

open BitStream Bytes Except List

/-- `[KeySize]byte`. -/
abbrev Key := { key : List UInt8 // key.length = 16 }

/-- `Filter`. -/
@[ext]
structure Filter where
  n : Nat
  p : UInt8
  modulusNP : Nat
  filterNData : List UInt8
  /-- The data starts with the four bytes of `n`. -/
  four_le : 4 ≤ filterNData.length
deriving DecidableEq

/-! ## Building a filter -/

section Build

variable (hash : UInt64 → UInt64 → List UInt8 → UInt64)

/-- `siphash.Hash(k0, k1, d) % modulusNP`. -/
def reduced (modulusNP : Nat) (key : Key) (d : List UInt8) : Nat :=
  (hash (UInt64.ofNat (getLE (key.1.take 8))) (UInt64.ofNat (getLE (key.1.drop 8))) d).toNat %
    modulusNP

/-- The loop that writes a number in unary, without the zero that ends it. -/
def writeOnes : Nat → BitWriter → BitWriter
  | 0, b => b
  | value + 1, b => writeOnes value b.writeOne

/-- `x - y` of unsigned numbers. -/
def sub64 (x y : Nat) : Nat := (x + 2 ^ 64 - y) % 2 ^ 64

/-- The loop of `NewFilter` over the sorted values. -/
def writeValues (p : Nat) : Nat → List Nat → BitWriter → BitWriter
  | _, [], b => b
  | lastValue, v :: values, b =>
    let remainder := sub64 v lastValue &&& (2 ^ p - 1)
    let value := sub64 (sub64 v lastValue) remainder >>> p
    writeValues p v values ((writeOnes value b).writeZero.writeNBits remainder p)

/-- The value of an item in a filter of `data`. -/
def valueOf (P : UInt8) (key : Key) (data : List (List UInt8)) (d : List UInt8) : Nat :=
  reduced hash (data.length * 2 ^ P.toNat) key d

/-- The sorted values of the data. -/
def encoded (P : UInt8) (key : Key) (data : List (List UInt8)) : List Nat :=
  (data.map (valueOf hash P key data)).insertionSort (· ≤ ·)

def newFilter (P : UInt8) (key : Key) (data : List (List UInt8)) : Except (Fault GcsError) Filter :=
  if data.length = 0 then .error (.err .noData)
  else if 2 ^ 31 - 1 < data.length then .error (.err .nTooBig)
  else if 32 < P then .error (.err .pTooBig)
  else
    .ok {
      n := data.length
      p := P
      modulusNP := data.length * 2 ^ P.toNat
      filterNData := putBE 4 data.length ++
        (writeValues P.toNat 0 (encoded hash P key data) ⟨[], 0⟩).bytes
      four_le := by simp }

end Build

/-! ## The byte forms -/

def fromBytes (N : Nat) (P : UInt8) (d : List UInt8) : Except (Fault GcsError) Filter :=
  if 32 < P then .error (.err .pTooBig)
  else
    .ok {
      n := N
      p := P
      modulusNP := N * 2 ^ P.toNat
      filterNData := putBE 4 N ++ d
      four_le := by simp }

/-- `FromNBytes`. It does not bound `P`, and the modulus can be cut to 64 bits. -/
def fromNBytes (P : UInt8) (d : List UInt8) : Except (Fault GcsError) Filter :=
  if h : d.length < 4 then .error (.err .misserialized)
  else
    .ok {
      n := getBE (d.take 4)
      p := P
      modulusNP := getBE (d.take 4) * 2 ^ P.toNat % 2 ^ 64
      filterNData := d
      four_le := Nat.le_of_not_lt h }

def fromPBytes (N : Nat) : List UInt8 → Except (Fault GcsError) Filter
  | [] => .error (.err .misserialized)
  | P :: d => fromBytes N P d

def fromNPBytes (d : List UInt8) : Except (Fault GcsError) Filter :=
  match d.drop 4 with
  | [] => .error (.err .misserialized)
  | P :: rest => fromBytes (getBE (d.take 4)) P rest

namespace Filter

def bytes (f : Filter) : List UInt8 := f.filterNData.drop 4

def nBytes (f : Filter) : List UInt8 := f.filterNData

def pBytes (f : Filter) : List UInt8 := f.p :: f.bytes

def npBytes (f : Filter) : List UInt8 := f.filterNData.take 4 ++ f.p :: f.bytes

/-! ## Matching -/

def readFullUint64 (p : Nat) (b : BitReader) : Except (Fault GcsError) (Nat × BitReader) := do
  let (v, b) ← b.readUnary
  let (rem, b) ← b.readNBits p
  return ((v * 2 ^ p % 2 ^ 64 + rem) % 2 ^ 64, b)

/-- The loop of `Match`. -/
def matchLoop (p term : Nat) : Nat → BitReader → Nat → Except (Fault GcsError) Bool
  | 0, _, _ => .error .panic
  | fuel + 1, b, lastValue =>
    if lastValue < term then
      match readFullUint64 p b with
      | .error .panic => .error .panic
      | .error (.err _) => .ok false
      | .ok (value, b) =>
        let value := (value + lastValue) % 2 ^ 64
        if value = term then .ok true else matchLoop p term fuel b value
    else .ok false

/-- The loop of `MatchAny`, over the search values that follow `lastValue2`. -/
def matchAnyLoop (p : Nat) : Nat → BitReader → Nat → Nat → List Nat → Except (Fault GcsError) Bool
  | 0, _, _, _, _ => .error .panic
  | fuel + 1, b, lastValue1, lastValue2, values =>
    if lastValue1 = lastValue2 then .ok true
    else if lastValue2 < lastValue1 then
      match values with
      | [] => .ok false
      | v :: values => matchAnyLoop p fuel b lastValue1 v values
    else
      match readFullUint64 p b with
      | .error .panic => .error .panic
      | .error (.err _) => .ok false
      | .ok (value, b) =>
        matchAnyLoop p fuel b ((lastValue1 + value) % 2 ^ 64) lastValue2 values

variable (hash : UInt64 → UInt64 → List UInt8 → UInt64)

/-- `Match`. Each round reads a bit at least, so there are no more rounds than bits. -/
def Match (f : Filter) (key : Key) (data : List UInt8) : Except (Fault GcsError) Bool :=
  if f.modulusNP = 0 then .error .panic
  else
    matchLoop f.p.toNat (reduced hash f.modulusNP key data) (8 * f.bytes.length + 1)
      (BitReader.new f.bytes) 0

def matchAny (f : Filter) (key : Key) (data : List (List UInt8)) : Except (Fault GcsError) Bool :=
  if data.length = 0 then .ok false
  else if f.modulusNP = 0 then .error .panic
  else
    match (data.map (reduced hash f.modulusNP key)).insertionSort (· ≤ ·) with
    | [] => .error .panic
    | v :: values =>
      matchAnyLoop f.p.toNat (8 * f.bytes.length + data.length + 1) (BitReader.new f.bytes) 0 v
        values

end Filter

/-! ## What is written -/

section Writing

variable {b : BitWriter} {bits : List Bool} {last n p v : Nat} {vs : List Nat}

theorem sub64_eq {x y : Nat} (h : y ≤ x) (hx : x < 2 ^ 64) : sub64 x y = x - y := by
  unfold sub64
  omega

theorem BitWriter.Written.writeOnes (h : b.Written bits) :
    (writeOnes n b).Written (bits ++ replicate n true) := by
  induction n generalizing b bits with
  | zero => rwa [replicate_zero, append_nil]
  | succ n ih =>
    have hrest := ih h.writeOne
    rwa [append_assoc, singleton_append, ← replicate_succ] at hrest

/-- The two parts that are written are the quotient and the remainder. -/
theorem writeValue_parts (h : last ≤ v) (hv : v < 2 ^ 64) :
    sub64 v last &&& (2 ^ p - 1) = (v - last) % 2 ^ p ∧
      sub64 (sub64 v last) (sub64 v last &&& (2 ^ p - 1)) >>> p = (v - last) / 2 ^ p := by
  have hand : sub64 v last &&& (2 ^ p - 1) = (v - last) % 2 ^ p := by
    rw [sub64_eq h hv, Nat.and_two_pow_sub_one_eq_mod]
  refine ⟨hand, ?_⟩
  have hle : (v - last) % 2 ^ p ≤ v - last := Nat.mod_le ..
  rw [hand, sub64_eq h hv, sub64_eq hle (by omega), Nat.shiftRight_eq_div_pow,
    ← Nat.div_eq_sub_mod_div]

theorem BitWriter.Written.writeValues (hp : p ≤ 64) (hsorted : (last :: vs).Pairwise (· ≤ ·))
    (hlt : ∀ v ∈ vs, v < 2 ^ 64) (h : b.Written bits) :
    (writeValues p last vs b).Written (bits ++ golombSet p last vs) := by
  induction vs generalizing b bits last with
  | nil => rwa [golombSet, append_nil]
  | cons v vs ih =>
    rw [pairwise_cons] at hsorted
    obtain ⟨hrem, hquot⟩ := @writeValue_parts last p v (hsorted.1 v mem_cons_self)
      (hlt v mem_cons_self)
    have hbits : bitsBE p ((v - last) % 2 ^ p) = bitsBE p (v - last) :=
      bitsBE_congr fun i hi => by rw [Nat.testBit_mod_two_pow, decide_eq_true hi, Bool.true_and]
    have hone : ((Gcs.writeOnes ((v - last) / 2 ^ p) b).writeZero.writeNBits
        ((v - last) % 2 ^ p) p).Written _ := h.writeOnes.writeZero.writeNBits hp
    have hrest := ih hsorted.2 (forall_mem_cons.1 hlt).2 hone
    rw [hbits] at hrest
    rw [hrem] at hquot
    rw [Gcs.writeValues, hrem, hquot]
    simpa [golombSet, golomb, append_assoc] using hrest

end Writing

/-! ## What is read -/

section Reading

variable {b : BitReader} {last p z v fuel : Nat} {vs xs ys : List Nat} {rest : List Bool}

/-- The values that are left to read after `last`, and the zeros that follow them. -/
structure Holds (p : Nat) (b : BitReader) (last : Nat) (vs : List Nat) (z : Nat) : Prop where
  left : BitReader.Left b (golombSet p last vs ++ List.replicate z false)
  sorted : (last :: vs).Pairwise (· ≤ ·)
  lt : ∀ v ∈ last :: vs, v < 2 ^ 64

theorem readFullUint64_of_readUnary {b' : BitReader} (h : b.readUnary = .ok (v, b')) :
    Filter.readFullUint64 p b =
      b'.readNBits p >>= fun r => .ok ((v * 2 ^ p % 2 ^ 64 + r.1) % 2 ^ 64, r.2) := by
  rw [Filter.readFullUint64, h]
  rfl

theorem readFullUint64_golomb {d : Nat} (hp : p ≤ 64) (hd : d < 2 ^ 64)
    (h : BitReader.Left b (golomb p d ++ rest)) :
    ∃ b', Filter.readFullUint64 p b = .ok (d, b') ∧ BitReader.Left b' rest := by
  rw [golomb, append_assoc, cons_append] at h
  obtain ⟨b₁, hunary, hleft₁, hne⟩ := h.readUnary
  have hlen := length_bitsBE p d
  obtain ⟨b₂, hbits, hleft₂⟩ := hleft₁.readNBits (by rwa [hlen]) hne
  rw [hlen, valBE_bitsBE] at hbits
  have hquot : d / 2 ^ p * 2 ^ p ≤ d := Nat.div_mul_le_self ..
  have hsum : (d / 2 ^ p * 2 ^ p % 2 ^ 64 + d % 2 ^ p) % 2 ^ 64 = d := by
    rw [Nat.mod_eq_of_lt (hquot.trans_lt hd), Nat.div_add_mod', Nat.mod_eq_of_lt hd]
  refine ⟨b₂, ?_, hleft₂⟩
  rw [readFullUint64_of_readUnary hunary, hbits]
  exact congrArg (fun x => Except.ok (x, b₂)) hsum

/-- The zeros at the end are read as the difference zero, or there are too few. -/
theorem readFullUint64_zeros (hp : p ≤ 64) (h : BitReader.Left b (replicate z false)) :
    (∃ b' z', z' < z ∧ Filter.readFullUint64 p b = .ok (0, b') ∧
      BitReader.Left b' (replicate z' false)) ∨
    Filter.readFullUint64 p b = .error (.err .eof) := by
  cases z with
  | zero =>
    rw [Filter.readFullUint64, h.readUnary_eof]
    exact .inr rfl
  | succ z =>
    by_cases hz : p ≤ z
    · have hcode : replicate (z + 1) false =
          golomb p 0 ++ replicate (z - p) false := by
        rw [golomb_zero, replicate_append_replicate]
        congr 1
        omega
      rw [hcode] at h
      obtain ⟨b', hrun, hleft⟩ := readFullUint64_golomb hp (by decide) h
      exact .inl ⟨b', z - p, by omega, hrun, hleft⟩
    · obtain ⟨b', hunary, hleft, hne⟩ := BitReader.Left.readUnary (q := 0) h
      have heof := hleft.readNBits_eof hp hne (by rw [length_replicate]; omega)
      rw [readFullUint64_of_readUnary hunary, heof]
      exact .inr rfl

theorem Holds.tail {v : Nat} {b' : BitReader} (h : Holds p b last (v :: vs) z)
    (hleft : BitReader.Left b' (golombSet p v vs ++ replicate z false)) : Holds p b' v vs z :=
  ⟨hleft, (pairwise_cons.1 h.sorted).2, (forall_mem_cons.1 h.lt).2⟩

theorem Holds.le (h : Holds p b last vs z) (hv : v ∈ vs) : last ≤ v :=
  (pairwise_cons.1 h.sorted).1 v hv

/-- One step of a reader: the next value, once more the last one, or the end. -/
theorem Holds.readFullUint64 (hp : p ≤ 64) (h : Holds p b last vs z) :
    (∃ v vs' b', vs = v :: vs' ∧ Filter.readFullUint64 p b = .ok (v - last, b') ∧
      Holds p b' v vs' z) ∨
    (∃ z' b', vs = [] ∧ z' < z ∧ Filter.readFullUint64 p b = .ok (0, b') ∧
      Holds p b' last [] z') ∨
    (vs = [] ∧ Filter.readFullUint64 p b = .error (.err .eof)) := by
  cases vs with
  | nil =>
    rcases readFullUint64_zeros hp h.left with ⟨b', z', hz, hrun, hleft⟩ | hrun
    · exact .inr (.inl ⟨z', b', rfl, hz, hrun, hleft, h.sorted, h.lt⟩)
    · exact .inr (.inr ⟨rfl, hrun⟩)
  | cons v vs =>
    have hv : v < 2 ^ 64 := h.lt v (mem_cons_of_mem _ mem_cons_self)
    have hleft := h.left
    rw [golombSet, append_assoc] at hleft
    obtain ⟨b', hrun, hleft'⟩ := readFullUint64_golomb hp ((Nat.sub_le ..).trans_lt hv) hleft
    exact .inl ⟨v, vs, b', rfl, hrun, h.tail hleft'⟩

theorem Holds.sum_eq (h : Holds p b last (v :: vs) z) : (last + (v - last)) % 2 ^ 64 = v := by
  have hle := h.le mem_cons_self
  have hv := h.lt v (mem_cons_of_mem _ mem_cons_self)
  rw [Nat.add_sub_cancel' hle, Nat.mod_eq_of_lt hv]

/-- **The loop of `Match`** looks for a value above the running sum. -/
theorem Holds.matchLoop {term : Nat} (hp : p ≤ 64) (h : Holds p b last vs z)
    (hfuel : vs.length + z < fuel) :
    Filter.matchLoop p term fuel b last = .ok (decide (last < term ∧ term ∈ vs)) := by
  induction fuel generalizing b last vs z with
  | zero => exact absurd hfuel (Nat.not_lt_zero _)
  | succ fuel ih =>
    rw [Filter.matchLoop]
    split_ifs with hlt
    · rcases h.readFullUint64 hp with ⟨v, vs', b', rfl, hrun, h'⟩ | ⟨z', b', rfl, hz, hrun, h'⟩ |
        ⟨rfl, hrun⟩
      · rw [hrun]
        dsimp only
        rw [add_comm, h.sum_eq]
        by_cases hterm : v = term
        · rw [if_pos hterm, decide_eq_true ⟨hlt, hterm ▸ mem_cons_self⟩]
        · have hmem : (v < term ∧ term ∈ vs') ↔ (last < term ∧ term ∈ v :: vs') := by
            rw [mem_cons]
            constructor
            · exact fun hv => ⟨hlt, .inr hv.2⟩
            · intro hv
              have hin := hv.2.resolve_left (Ne.symm hterm)
              exact ⟨Nat.lt_of_le_of_ne (h'.le hin) hterm, hin⟩
          rw [if_neg hterm, ih h' (by rw [length_cons] at hfuel; omega), decide_eq_decide.2 hmem]
      · have hlast := h.lt last mem_cons_self
        rw [hrun]
        dsimp only
        rw [zero_add, Nat.mod_eq_of_lt hlast, if_neg (ne_of_lt hlt),
          ih h' (by rw [length_nil] at hfuel ⊢; omega)]
      · rw [hrun]
        simp
    · rw [decide_eq_false fun hv => hlt hv.1]

theorem common_cons_left {x : Nat} (h : x ∉ ys) : (∃ a ∈ x :: xs, a ∈ ys) ↔ ∃ a ∈ xs, a ∈ ys := by
  simp [h]

theorem common_cons_right {y : Nat} (h : y ∉ xs) : (∃ a ∈ xs, a ∈ y :: ys) ↔ ∃ a ∈ xs, a ∈ ys := by
  refine exists_congr fun a => and_congr_right fun ha => ?_
  have hne : a ≠ y := fun heq => h (heq ▸ ha)
  rw [mem_cons, or_iff_right hne]

/-- **The loop of `MatchAny`** looks for a value common to both lists, the running sum and the
current search value included. -/
theorem Holds.matchAnyLoop {q : Nat} {qs : List Nat} (hp : p ≤ 64) (h : Holds p b last vs z)
    (hqs : (q :: qs).Pairwise (· ≤ ·)) (hfuel : vs.length + z + qs.length < fuel) :
    Filter.matchAnyLoop p fuel b last q qs = .ok (decide (∃ x ∈ last :: vs, x ∈ q :: qs)) := by
  induction fuel generalizing b last vs z q qs with
  | zero => exact absurd hfuel (Nat.not_lt_zero _)
  | succ fuel ih =>
    have hvs := pairwise_cons.1 h.sorted
    have hqs' := pairwise_cons.1 hqs
    unfold Filter.matchAnyLoop
    by_cases heq : last = q
    · rw [if_pos heq, decide_eq_true ⟨last, mem_cons_self, heq ▸ mem_cons_self⟩]
    rw [if_neg heq]
    by_cases hlt : q < last
    · -- the search value is below everything that is left
      rw [if_pos hlt]
      have hnot : q ∉ last :: vs := not_mem_cons_of_ne_of_not_mem (Ne.symm heq) fun hmem =>
        absurd (hvs.1 q hmem) (not_le.2 hlt)
      cases qs with
      | nil =>
        exact congrArg Except.ok (decide_eq_false (by simpa using hnot)).symm
      | cons q' qs =>
        dsimp only
        rw [ih h hqs'.2 (by rw [length_cons] at hfuel; omega),
          decide_eq_decide.2 (common_cons_right hnot)]
    · -- the running sum is below all search values
      rw [if_neg hlt]
      have hnot : last ∉ q :: qs := not_mem_cons_of_ne_of_not_mem heq fun hmem =>
        heq (le_antisymm (not_lt.1 hlt) (hqs'.1 last hmem))
      rcases h.readFullUint64 hp with ⟨v, vs', b', rfl, hrun, h'⟩ | ⟨z', b', rfl, hz, hrun, h'⟩ |
        ⟨rfl, hrun⟩
      · rw [hrun]
        dsimp only
        rw [h.sum_eq, ih h' hqs (by rw [length_cons] at hfuel; omega),
          decide_eq_decide.2 (common_cons_left hnot)]
      · have hlast := h.lt last mem_cons_self
        rw [hrun]
        dsimp only
        rw [add_zero, Nat.mod_eq_of_lt hlast, ih h' hqs (by rw [length_nil] at hfuel ⊢; omega)]
      · rw [hrun]
        exact congrArg Except.ok (decide_eq_false (by simpa using hnot)).symm

end Reading

/-! ## Built filters -/

section Built

variable {hash : UInt64 → UInt64 → List UInt8 → UInt64} {P : UInt8} {key : Key}
  {data queries : List (List UInt8)} {item : List UInt8} {f : Filter}

/-- What `NewFilter` accepts. -/
structure Accepts (P : UInt8) (data : List (List UInt8)) : Prop where
  ne_nil : data ≠ []
  length_le : data.length ≤ 2 ^ 31 - 1
  le : P ≤ 32

namespace Accepts

theorem p_le (h : Accepts P data) : P.toNat ≤ 32 := UInt8.le_iff_toNat_le.1 h.le

theorem modulus_pos (h : Accepts P data) : 0 < data.length * 2 ^ P.toNat :=
  mul_pos (length_pos_iff.2 h.ne_nil) (Nat.two_pow_pos _)

theorem modulus_lt (h : Accepts P data) : data.length * 2 ^ P.toNat < 2 ^ 64 := by
  have hpow : 2 ^ P.toNat ≤ 2 ^ 32 := Nat.pow_le_pow_right (by decide) h.p_le
  calc data.length * 2 ^ P.toNat
      ≤ (2 ^ 31 - 1) * 2 ^ 32 := Nat.mul_le_mul h.length_le hpow
    _ < 2 ^ 64 := by decide

end Accepts

theorem reduced_lt {m : Nat} (hm : 0 < m) (d : List UInt8) : reduced hash m key d < m :=
  Nat.mod_lt _ hm

theorem mem_encoded {v : Nat} : v ∈ encoded hash P key data ↔
      ∃ d ∈ data, valueOf hash P key data d = v := by
  rw [encoded, mem_insertionSort, mem_map]

/-- The reader of the written bytes holds the values. -/
theorem Accepts.holds (h : Accepts P data) {bytes : List UInt8}
    (hbytes : bytes = (writeValues P.toNat 0 (encoded hash P key data) ⟨[], 0⟩).bytes) :
    ∃ z, Holds P.toNat (BitReader.new bytes) 0 (encoded hash P key data) z ∧
      (encoded hash P key data).length + z ≤ 8 * bytes.length := by
  have hp : P.toNat ≤ 64 := h.p_le.trans (by decide)
  have hsorted : (0 :: encoded hash P key data).Pairwise (· ≤ ·) :=
    pairwise_cons.2 ⟨fun _ _ => Nat.zero_le _, pairwise_insertionSort _ _⟩
  have hlt : ∀ v ∈ encoded hash P key data, v < 2 ^ 64 := by
    intro v hv
    obtain ⟨d, -, rfl⟩ := mem_encoded.1 hv
    exact (reduced_lt h.modulus_pos d).trans h.modulus_lt
  have hempty : BitWriter.Written ⟨[], 0⟩ [] := ⟨0, by decide, rfl, rfl⟩
  obtain ⟨z, -, -, hstream⟩ := hempty.writeValues hp hsorted hlt
  rw [← hbytes, nil_append] at hstream
  refine ⟨z, ⟨?_, hsorted, ?_⟩, ?_⟩
  · rw [← hstream]
    exact BitReader.left_new _
  · exact forall_mem_cons.2 ⟨by decide, hlt⟩
  · have hlen := congrArg List.length hstream
    rw [length_stream, length_append, length_replicate] at hlen
    have hcodes := length_le_length_golombSet P.toNat 0 (encoded hash P key data)
    omega

/-- A filter as `NewFilter` builds it. -/
structure BuiltFrom (hash : UInt64 → UInt64 → List UInt8 → UInt64) (P : UInt8) (key : Key)
    (data : List (List UInt8)) (f : Filter) : Prop where
  accepts : Accepts P data
  n_eq : f.n = data.length
  p_eq : f.p = P
  modulusNP_eq : f.modulusNP = data.length * 2 ^ P.toNat
  data_eq : f.filterNData = putBE 4 data.length ++
    (writeValues P.toNat 0 (encoded hash P key data) ⟨[], 0⟩).bytes

theorem Accepts.newFilter_eq (h : Accepts P data) (hash : UInt64 → UInt64 → List UInt8 → UInt64)
    (key : Key) : ∃ f, newFilter hash P key data = .ok f ∧ BuiltFrom hash P key data f := by
  unfold newFilter
  rw [if_neg fun hnil => h.ne_nil (length_eq_zero_iff.1 hnil), if_neg (not_lt.2 h.length_le),
    if_neg (UInt8.not_lt.2 h.le)]
  exact ⟨_, rfl, h, rfl, rfl, rfl, rfl⟩

namespace BuiltFrom

theorem bytes_eq (hf : BuiltFrom hash P key data f) :
    f.bytes = (writeValues P.toNat 0 (encoded hash P key data) ⟨[], 0⟩).bytes := by
  rw [Filter.bytes, hf.data_eq, drop_left' (length_putBE ..)]

/-- **The answer of `Match`.** -/
theorem match_eq (hf : BuiltFrom hash P key data f) (item : List UInt8) :
    f.Match hash key item = .ok (decide
      (0 < valueOf hash P key data item ∧
        valueOf hash P key data item ∈ encoded hash P key data)) := by
  have h := hf.accepts
  obtain ⟨z, hholds, hlen⟩ := h.holds hf.bytes_eq
  rw [Filter.Match, hf.modulusNP_eq, if_neg (ne_of_gt h.modulus_pos), hf.p_eq]
  exact hholds.matchLoop (h.p_le.trans (by decide)) (Nat.lt_succ_of_le hlen)

/-- **The answer of `MatchAny`.** -/
theorem matchAny_eq (hf : BuiltFrom hash P key data f) (hqueries : queries ≠ []) :
    f.matchAny hash key queries = .ok (decide
      (∃ x ∈ (0 : Nat) :: encoded hash P key data, x ∈ queries.map (valueOf hash P key data))) := by
  have h := hf.accepts
  obtain ⟨z, hholds, hlen⟩ := h.holds hf.bytes_eq
  have hne : queries.length ≠ 0 := mt length_eq_zero_iff.1 hqueries
  rw [Filter.matchAny, if_neg hne, hf.modulusNP_eq, if_neg (ne_of_gt h.modulus_pos), hf.p_eq]
  have hsorted := pairwise_insertionSort (· ≤ ·) (queries.map (valueOf hash P key data))
  have hperm := perm_insertionSort (· ≤ ·) (queries.map (valueOf hash P key data))
  change (match (queries.map (valueOf hash P key data)).insertionSort (· ≤ ·) with
    | [] => _
    | v :: values => _) = _
  generalize (queries.map (valueOf hash P key data)).insertionSort (· ≤ ·) = values
    at hsorted hperm ⊢
  have hlength : values.length = queries.length := by
    rw [hperm.length_eq, length_map]
  cases values with
  | nil => exact absurd hlength.symm hne
  | cons v values =>
    rw [length_cons] at hlength
    dsimp only
    rw [hholds.matchAnyLoop (h.p_le.trans (by decide)) hsorted (by omega)]
    refine congrArg Except.ok (decide_eq_decide.2 ?_)
    exact exists_congr fun x => and_congr_right fun _ => hperm.mem_iff

end BuiltFrom

/-- A filter is read back from each of its byte forms. -/
def Filter.Rebuilds (f : Filter) : Prop :=
  fromBytes f.n f.p f.bytes = .ok f ∧ fromNBytes f.p f.nBytes = .ok f ∧
    fromPBytes f.n f.pBytes = .ok f ∧ fromNPBytes f.npBytes = .ok f

section

variable (hf : BuiltFrom hash P key data f)

include hf

theorem BuiltFrom.rebuilds : f.Rebuilds := by
  have h := hf.accepts
  have hP : ¬32 < f.p := hf.p_eq ▸ UInt8.not_lt.2 h.le
  have hmod : f.modulusNP = f.n * 2 ^ f.p.toNat := by rw [hf.modulusNP_eq, hf.n_eq, hf.p_eq]
  have hlt : f.modulusNP < 2 ^ 64 := hf.modulusNP_eq ▸ h.modulus_lt
  have htake : f.filterNData.take 4 = putBE 4 f.n := by
    rw [hf.data_eq, hf.n_eq, take_left' (length_putBE ..)]
  have hn : getBE (f.filterNData.take 4) = f.n := by
    rw [htake, getBE_putBE_of_lt (hf.n_eq ▸ h.length_le.trans_lt (by decide))]
  have hdata : putBE 4 f.n ++ f.bytes = f.filterNData := by
    rw [← htake, Filter.bytes, take_append_drop]
  have hbytes : fromBytes f.n f.p f.bytes = .ok f := by
    rw [fromBytes, if_neg hP]
    exact congrArg Except.ok (Filter.ext rfl rfl hmod.symm hdata)
  refine ⟨hbytes, ?_, hbytes, ?_⟩
  · rw [fromNBytes, dif_neg (show ¬f.nBytes.length < 4 from not_lt.2 f.four_le)]
    refine congrArg Except.ok (Filter.ext hn rfl ?_ rfl)
    show getBE (f.filterNData.take 4) * 2 ^ f.p.toNat % 2 ^ 64 = f.modulusNP
    rw [hn, ← hmod, Nat.mod_eq_of_lt hlt]
  · have hlen : (f.filterNData.take 4).length = 4 := by rw [htake, length_putBE]
    rw [fromNPBytes, Filter.npBytes, drop_left' hlen, take_left' hlen, hn]
    exact hbytes

/-! ## Membership -/

/-- `Match` says whether the value of an item is encoded. -/
def Filter.MatchExact (hash : UInt64 → UInt64 → List UInt8 → UInt64) (f : Filter) (key : Key)
    (values : List Nat) (item : List UInt8) : Prop :=
  f.Match hash key item = .ok (decide (reduced hash f.modulusNP key item ∈ values))

/-- `MatchAny` says whether `Match` holds for some item. -/
def Filter.AnyAgrees (hash : UInt64 → UInt64 → List UInt8 → UInt64) (f : Filter) (key : Key)
    (queries : List (List UInt8)) : Prop :=
  f.matchAny hash key queries =
    .ok (queries.any fun item => decide (f.Match hash key item = .ok true))

theorem BuiltFrom.matchExact_iff (item : List UInt8) :
    f.MatchExact hash key (encoded hash P key data) item ↔
      (valueOf hash P key data item = 0 → ∀ d ∈ data, valueOf hash P key data d ≠ 0) := by
  rw [Filter.MatchExact, hf.match_eq, hf.modulusNP_eq, Except.ok.injEq, decide_eq_decide]
  constructor
  · intro hiff hzero d hd hd0
    have hmem := mem_encoded.2 ⟨d, hd, hd0.trans hzero.symm⟩
    exact ne_of_gt (hiff.2 hmem).1 hzero
  · intro hne
    refine and_iff_right_of_imp fun hmem => pos_of_ne_zero fun hzero => ?_
    obtain ⟨d, hd, hd0⟩ := mem_encoded.1 hmem
    exact hne hzero d hd (hd0.trans hzero)

theorem BuiltFrom.any_match_eq :
    (queries.any fun item => decide (f.Match hash key item = .ok true)) =
      decide (∃ q ∈ queries, valueOf hash P key data q ≠ 0 ∧
        ∃ d ∈ data, valueOf hash P key data d = valueOf hash P key data q) := by
  rw [Bool.eq_iff_iff, any_eq_true, decide_eq_true_iff]
  refine exists_congr fun q => and_congr_right fun _ => ?_
  rw [decide_eq_true_iff, hf.match_eq, Except.ok.injEq, decide_eq_true_iff, mem_encoded,
    Nat.pos_iff_ne_zero]

theorem BuiltFrom.anyAgrees_iff (hqueries : queries ≠ []) : f.AnyAgrees hash key queries ↔
      ((∃ q ∈ queries, valueOf hash P key data q = 0) →
        ∃ q ∈ queries, valueOf hash P key data q ≠ 0 ∧
          ∃ d ∈ data, valueOf hash P key data d = valueOf hash P key data q) := by
  rw [Filter.AnyAgrees, hf.matchAny_eq hqueries, hf.any_match_eq, Except.ok.injEq, decide_eq_decide]
  constructor
  · rintro hiff ⟨q, hq, hzero⟩
    exact hiff.1 ⟨0, mem_cons_self, mem_map.2 ⟨q, hq, hzero⟩⟩
  · intro himp
    constructor
    · rintro ⟨x, hx, hxq⟩
      obtain ⟨q, hq, rfl⟩ := mem_map.1 hxq
      by_cases hzero : valueOf hash P key data q = 0
      · exact himp ⟨q, hq, hzero⟩
      · exact ⟨q, hq, hzero, mem_encoded.1 ((mem_cons.1 hx).resolve_left hzero)⟩
    · rintro ⟨q, hq, -, hd⟩
      exact ⟨_, mem_cons_of_mem _ (mem_encoded.2 hd), mem_map.2 ⟨q, hq, rfl⟩⟩

end

/-- **Membership.** The answers of a built filter are right exactly when zero is not the value of
the item and of a member, and a query of value zero comes with one that is found without it. -/
theorem membership_iff (hash : UInt64 → UInt64 → List UInt8 → UInt64) (P : UInt8) (key : Key)
    (data : List (List UInt8)) (item : List UInt8) (queries : List (List UInt8)) (hP : P ≤ 32)
    (hdata : data ≠ []) (hlen : data.length ≤ 2 ^ 31 - 1) (hqueries : queries ≠ []) :
    ∃ f, newFilter hash P key data = .ok f ∧ f.Rebuilds ∧
      ((f.MatchExact hash key (encoded hash P key data) item ∧ f.AnyAgrees hash key queries) ↔
        (valueOf hash P key data item = 0 → ∀ d ∈ data, valueOf hash P key data d ≠ 0) ∧
        ((∃ q ∈ queries, valueOf hash P key data q = 0) →
          ∃ q ∈ queries, valueOf hash P key data q ≠ 0 ∧
            ∃ d ∈ data, valueOf hash P key data d = valueOf hash P key data q)) := by
  have haccepts : Accepts P data := ⟨hdata, hlen, hP⟩
  obtain ⟨f, hnew, hf⟩ := haccepts.newFilter_eq hash key
  exact ⟨f, hnew, hf.rebuilds, and_congr (hf.matchExact_iff item) (hf.anyAgrees_iff hqueries)⟩

/-- Two items of different length, hashed to their length. -/
theorem membership_iff_twoItems :
    ∃ f, newFilter (fun _ _ d => UInt64.ofNat d.length) 4 ⟨List.replicate 16 0, rfl⟩ [[1], [2, 3]] =
        .ok f ∧ f.Rebuilds ∧
      (f.MatchExact (fun _ _ d => UInt64.ofNat d.length) ⟨List.replicate 16 0, rfl⟩
          (encoded (fun _ _ d => UInt64.ofNat d.length) 4 ⟨List.replicate 16 0, rfl⟩
            [[1], [2, 3]]) [2, 3] ∧
        f.AnyAgrees (fun _ _ d => UInt64.ofNat d.length) ⟨List.replicate 16 0, rfl⟩
          [[1, 2, 3], [4]]) := by
  obtain ⟨f, hnew, hrebuilds, hiff⟩ :=
    membership_iff (fun _ _ d => UInt64.ofNat d.length) 4 ⟨List.replicate 16 0, rfl⟩
      [[1], [2, 3]] [2, 3] [[1, 2, 3], [4]] (by decide) (by decide) (by decide) (by decide)
  exact ⟨f, hnew, hrebuilds, hiff.2 (by decide)⟩

/-- With `P = 0` a filter of one item has the modulus one: its only member has the value zero and is
not matched, while `MatchAny` finds it. -/
theorem onlyItem_missed :
    ∃ f, newFilter (fun _ _ _ => 7) 0 ⟨List.replicate 16 0, rfl⟩ [[1]] = .ok f ∧
      f.Match (fun _ _ _ => 7) ⟨List.replicate 16 0, rfl⟩ [1] = .ok false ∧
      f.matchAny (fun _ _ _ => 7) ⟨List.replicate 16 0, rfl⟩ [[1]] = .ok true :=
  ⟨_, rfl, by decide, by decide⟩

end Built

end Fnod.Gcs
