import Fnod.Gcs.Filter

/-!
# `gcs.go`: filters from untrusted bytes

**`returns_iff`** says when `Match` and `MatchAny` answer on a filter that was read from bytes: when
the modulus is not zero. It is zero for a filter of no items, and `FromNBytes`, which does not bound
`P`, also makes it zero by an overflow.

No other panic is left: the reader always stands before some bits (`BitReader.Left`), a round of
either loop reads one of them at least or ends (`BitReader.Left.readFullUint64`), and a modulus that
is not zero keeps `P` within the width of a number.
-/

namespace Fnod.Gcs

open BitStream Bytes Gcs.Filter List

/-! ## Any stream -/

namespace BitReader

variable {byte : UInt8} {bytes : List UInt8} {bits : List Bool} {k p v : Nat} {b : BitReader}

/-- A stream has a first zero or is all ones. -/
theorem ones_or_zero (bits : List Bool) :
    (∃ q rest, bits = List.replicate q true ++ false :: rest) ∨
      bits = List.replicate bits.length true := by
  induction bits with
  | nil => exact .inr rfl
  | cons bit bits ih =>
    cases bit with
    | false => exact .inl ⟨0, bits, rfl⟩
    | true =>
      rcases ih with ⟨q, rest, hbits⟩ | hbits
      · exact .inl ⟨q + 1, rest, by rw [hbits, replicate_succ, cons_append]⟩
      · exact .inr (by rw [length_cons, replicate_succ, ← hbits])

theorem unaryByte_ones (hk : k ≤ 8) (h : ∀ bit ∈ bitsBE k byte.toNat, bit = true) :
    unaryByte byte 8 (maskOf k) v = (false, 0, v + k) := by
  have hbyte : bitsBE k byte.toNat = List.replicate k true :=
    eq_replicate_iff.2 ⟨length_bitsBE .., h⟩
  -- a zero put behind the byte is not found in it
  rcases @unaryByte_spec byte [] [false] k k v 8 hk hk (by rw [hbyte]) with
    ⟨hlt, -, -⟩ | ⟨-, hrun, -⟩
  · exact absurd hlt (lt_irrefl k)
  · exact hrun

theorem unaryLoop_ones (hk : k ≤ 8) (h : ∀ bit ∈ bitsBE k byte.toNat ++ stream bytes, bit = true) :
    unaryLoop (byte :: bytes) (maskOf k) v = .error (.err .eof) := by
  induction bytes generalizing byte k v with
  | nil =>
    rw [unaryLoop, unaryByte_ones hk fun bit hbit => h bit (mem_append_left _ hbit)]
    rfl
  | cons byte' bytes ih =>
    rw [unaryLoop, unaryByte_ones hk fun bit hbit => h bit (mem_append_left _ hbit)]
    apply ih le_rfl
    intro bit hbit
    rw [← stream_cons] at hbit
    exact h bit (mem_append_right _ hbit)

theorem Left.readUnary_ones (h : Left b bits) (hones : ∀ bit ∈ bits, bit = true) :
    b.readUnary = .error (.err .eof) := by
  cases h with
  | inside hk => exact unaryLoop_ones hk hones
  | atEnd => rfl

/-- **One round** reads a bit at least, or meets the end of the data. -/
theorem Left.readFullUint64 (hp : p ≤ 64) (h : Left b bits) :
    (∃ v b' bits', Filter.readFullUint64 p b = .ok (v, b') ∧ Left b' bits' ∧
      bits'.length < bits.length) ∨
    Filter.readFullUint64 p b = .error (.err .eof) := by
  rcases ones_or_zero bits with ⟨q, rest, rfl⟩ | hbits
  · obtain ⟨b₁, hunary, hleft, hne⟩ := h.readUnary
    rw [readFullUint64_of_readUnary hunary]
    rcases readNBits_spec hp hleft hne with
      ⟨v, b₂, bits₂, hrun, ⟨front, hrest, -, -⟩, hleft₂⟩ | ⟨hrun, -⟩
    · rw [hrun]
      refine .inl ⟨_, b₂, bits₂, rfl, hleft₂, ?_⟩
      simp only [hrest, length_append, length_replicate, length_cons]
      omega
    · rw [hrun]
      exact .inr rfl
  · rw [Filter.readFullUint64, h.readUnary_ones (eq_replicate_iff.1 hbits).2]
    exact .inr rfl

/-- **The loop of `Match`** returns. -/
theorem Left.matchLoop {term fuel last : Nat} (hp : p ≤ 64) (h : Left b bits)
    (hfuel : bits.length < fuel) : ∃ r, matchLoop p term fuel b last = .ok r := by
  induction fuel generalizing b bits last with
  | zero => exact absurd hfuel (Nat.not_lt_zero _)
  | succ fuel ih =>
    rw [matchLoop]
    split_ifs
    · rcases h.readFullUint64 hp with ⟨v, b', bits', hrun, hleft, hlt⟩ | hrun
      · rw [hrun]
        dsimp only
        split_ifs
        · exact ⟨true, rfl⟩
        · exact ih hleft (by omega)
      · rw [hrun]
        exact ⟨false, rfl⟩
    · exact ⟨false, rfl⟩

/-- **The loop of `MatchAny`** returns. -/
theorem Left.matchAnyLoop {fuel last q : Nat} {qs : List Nat} (hp : p ≤ 64) (h : Left b bits)
    (hfuel : bits.length + qs.length < fuel) :
    ∃ r, matchAnyLoop p fuel b last q qs = .ok r := by
  induction fuel generalizing b bits last q qs with
  | zero => exact absurd hfuel (Nat.not_lt_zero _)
  | succ fuel ih =>
    unfold matchAnyLoop
    split_ifs
    · exact ⟨true, rfl⟩
    · cases qs with
      | nil => exact ⟨false, rfl⟩
      | cons q' qs => exact ih h (by rw [length_cons] at hfuel; omega)
    · rcases h.readFullUint64 hp with ⟨v, b', bits', hrun, hleft, hlt⟩ | hrun
      · rw [hrun]
        exact ih hleft (by omega)
      · rw [hrun]
        exact ⟨false, rfl⟩

end BitReader

/-! ## The byte forms -/

/-- What a filter is read from. -/
inductive Form
  | bytes (N : UInt32) (P : UInt8) (d : List UInt8)
  | nBytes (P : UInt8) (d : List UInt8)
  | pBytes (N : UInt32) (d : List UInt8)
  | npBytes (d : List UInt8)

namespace Form

/-- `FromBytes`, `FromNBytes`, `FromPBytes` and `FromNPBytes`. -/
def load : Form → Except (Fault GcsError) Filter
  | bytes N P d => fromBytes N.toNat P d
  | nBytes P d => fromNBytes P d
  | pBytes N d => fromPBytes N.toNat d
  | npBytes d => fromNPBytes d

/-- The number of items, given or in the bytes. -/
def count : Form → Nat
  | bytes N _ _ | pBytes N _ => N.toNat
  | nBytes _ d | npBytes d => getBE (d.take 4)

/-- The parameter, given or in the bytes. -/
def param : Form → UInt8
  | bytes _ P _ | nBytes P _ => P
  | pBytes _ d => d.headD 0
  | npBytes d => (d.drop 4).headD 0

end Form

variable {form : Form} {f : Filter}

theorem fromBytes_modulus {N : Nat} {P : UInt8} {d : List UInt8} (hN : N < 2 ^ 32)
    (h : fromBytes N P d = .ok f) : f.p = P ∧ f.modulusNP = N * 2 ^ P.toNat % 2 ^ 64 := by
  unfold fromBytes at h
  split_ifs at h with hP
  cases h
  have hpow : 2 ^ P.toNat ≤ 2 ^ 32 :=
    Nat.pow_le_pow_right (by decide) (UInt8.le_iff_toNat_le.1 (UInt8.not_lt.1 hP))
  have hlt : N * 2 ^ P.toNat < 2 ^ 64 :=
    calc N * 2 ^ P.toNat
        ≤ N * 2 ^ 32 := Nat.mul_le_mul_left N hpow
      _ < 2 ^ 32 * 2 ^ 32 := Nat.mul_lt_mul_of_pos_right hN (by decide)
      _ = 2 ^ 64 := by decide
  exact ⟨rfl, (Nat.mod_eq_of_lt hlt).symm⟩

theorem getBE_take_lt (d : List UInt8) : getBE (d.take 4) < 2 ^ 32 := by
  have hlt := getLE_lt (d.take 4).reverse
  rw [length_reverse] at hlt
  have hlen : (d.take 4).length ≤ 4 := length_take_le ..
  exact hlt.trans_le (Nat.pow_le_pow_right (by decide) hlen)

theorem Form.modulus (h : form.load = .ok f) :
    f.p = form.param ∧ f.modulusNP = form.count * 2 ^ form.param.toNat % 2 ^ 64 := by
  cases form with
  | bytes N P d => exact fromBytes_modulus N.toNat_lt h
  | nBytes P d =>
    change fromNBytes P d = .ok f at h
    unfold fromNBytes at h
    split_ifs at h
    cases h
    exact ⟨rfl, rfl⟩
  | pBytes N d =>
    cases d with
    | nil => cases h
    | cons P d => exact fromBytes_modulus N.toNat_lt h
  | npBytes d =>
    change fromNPBytes d = .ok f at h
    unfold fromNPBytes at h
    simp only [Form.param, Form.count]
    cases hd : d.drop 4 with
    | nil =>
      rw [hd] at h
      cases h
    | cons P rest =>
      rw [hd] at h
      exact fromBytes_modulus (getBE_take_lt d) h

/-! ## Answers -/

/-- Both queries answer. -/
def Filter.Returns (f : Filter) (hash : UInt64 → UInt64 → List UInt8 → UInt64) (key : Key)
    (item : List UInt8) (queries : List (List UInt8)) : Prop :=
  (∃ r, f.Match hash key item = .ok r) ∧ ∃ r, f.matchAny hash key queries = .ok r

theorem p_lt_of_modulus {n p : Nat} (h : n * 2 ^ p % 2 ^ 64 ≠ 0) : p < 64 := by
  by_contra hp
  have hdvd : 2 ^ 64 ∣ n * 2 ^ p := Dvd.dvd.mul_left (pow_dvd_pow 2 (not_lt.1 hp)) n
  exact h (Nat.mod_eq_zero_of_dvd hdvd)

theorem Filter.returns_of_modulus (hp : f.p.toNat ≤ 64) (h : f.modulusNP ≠ 0)
    (hash : UInt64 → UInt64 → List UInt8 → UInt64) (key : Key) (item : List UInt8)
    (queries : List (List UInt8)) : f.Returns hash key item queries := by
  have hleft := BitReader.left_new f.bytes
  have hlen : (stream f.bytes).length = 8 * f.bytes.length := length_stream _
  constructor
  · rw [Filter.Match, if_neg h]
    exact hleft.matchLoop hp (by omega)
  · rw [matchAny, if_neg h]
    split_ifs with hnil
    · exact ⟨false, rfl⟩
    · have hlength := length_insertionSort (· ≤ ·) (queries.map (reduced hash f.modulusNP key))
      rw [length_map] at hlength
      cases hsorted : (queries.map (reduced hash f.modulusNP key)).insertionSort (· ≤ ·) with
      | nil =>
        rw [hsorted] at hlength
        exact absurd hlength.symm hnil
      | cons q qs =>
        rw [hsorted, length_cons] at hlength
        exact hleft.matchAnyLoop hp (by omega)

/-- **Robust decoding.** The queries on a filter read from bytes answer exactly when the modulus,
cut to 64 bits, is not zero. -/
theorem returns_iff (form : Form) (f : Filter) (hf : form.load = .ok f)
    (hash : UInt64 → UInt64 → List UInt8 → UInt64) (key : Key) (item : List UInt8)
    (queries : List (List UInt8)) :
    f.Returns hash key item queries ↔ form.count * 2 ^ form.param.toNat % 2 ^ 64 ≠ 0 := by
  obtain ⟨hp, hmod⟩ := Form.modulus hf
  rw [← hmod]
  constructor
  · rintro ⟨⟨r, hr⟩, -⟩ hzero
    rw [Filter.Match, if_pos hzero] at hr
    cases hr
  · intro hne
    have hlt : f.p.toNat < 64 := p_lt_of_modulus (hp.symm ▸ hmod ▸ hne)
    exact Filter.returns_of_modulus (le_of_lt hlt) hne hash key item queries

/-- One item whose code is cut off, and a query of two items. -/
theorem returns_iff_cut : ∃ f, (Form.npBytes [0, 0, 0, 1, 20, 0x40]).load = .ok f ∧
      f.Returns (fun _ _ d => d.length.toUInt64) ⟨List.replicate 16 0, rfl⟩ [7] [[7], [8, 9]] :=
  ⟨_, rfl, (returns_iff (Form.npBytes [0, 0, 0, 1, 20, 0x40]) _ rfl _ _ _ _).2 (by decide)⟩

/-- A filter that claims no items, and one whose modulus is cut to zero. -/
theorem zeroModulus_panics : (∃ f, fromNPBytes [0, 0, 0, 0, 20] = .ok f ∧
      ∀ hash key item, f.Match hash key item = .error .panic) ∧
    ∃ f, fromNBytes 64 [0, 0, 0, 1, 0x40] = .ok f ∧
      ∀ hash key item, f.Match hash key item = .error .panic :=
  ⟨⟨_, rfl, fun _ _ _ => rfl⟩, _, rfl, fun _ _ _ => rfl⟩

end Fnod.Gcs
