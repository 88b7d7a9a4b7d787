import Fnod.Fnoec.Signature

/-!
# `NonceRFC6979`: nonces from the key and the hash

A nonce is computed from the private key, the hash and two optional tags: `extra`, of thirty-two
bytes, and `version`, of sixteen, which is there to keep signature schemes apart. The string of the
four, `seed`, is all that the chain of HMACs sees of them. With both tags `extra` is appended a
second time, and `version` not at all.

**`seed_separated_iff`**: two pairs of tags that differ give different strings, on either curve,
unless both have the same `extra` and both have a version; `nonce_version_ignored` is then the same
nonce, whatever the HMAC. The strings are told apart by the length of what follows the hash: `0`,
`32`, `48` or `64` bytes.
-/

namespace Fnod.Fnoec

open Bytes List Secp256k1

/-! ## The string -/

/-- `big.Int.BitLen`, of a positive number. -/
def bitLen (q : Nat) : Nat := q.log2 + 1

/-- `hashToInt`: the leading bits of a hash, as many as the order has. -/
def hashToInt (q : Nat) (hash : List UInt8) : Nat :=
  let orderBits := bitLen q
  let orderBytes := (orderBits + 7) / 8
  let hash := if orderBytes < hash.length then hash.take orderBytes else hash
  getBE hash >>> (hash.length * 8 - orderBits)

def int2octets (v rolen : Nat) : List UInt8 :=
  let out := bigBytes v
  if out.length < rolen then List.replicate (rolen - out.length) 0 ++ out
  else out.drop (out.length - rolen)

def bits2octets (q : Nat) (hash : List UInt8) (rolen : Nat) : List UInt8 :=
  let z1 := hashToInt q hash
  if z1 < q then int2octets z1 rolen else int2octets (z1 - q) rolen

/-- What the tags add to the string. -/
def tags (extra version : List UInt8) : List UInt8 :=
  (if extra.length = 32 then extra else []) ++
    if version.length = 16 then
      if extra.length = 32 then extra else List.replicate 32 0 ++ version
    else []

/-- `bx`, the string that `NonceRFC6979` hashes. -/
def seed (q privkey : Nat) (hash extra version : List UInt8) : List UInt8 :=
  let rolen := (bitLen q + 7) >>> 3
  int2octets privkey rolen ++ bits2octets q hash rolen ++ tags extra version

/-! ## The chain -/

section Chain

variable (mac : List UInt8 → List UInt8 → List UInt8) (q : Nat)

/-- Step H2: `v` and the bits that are collected. -/
def collect (k : List UInt8) : Nat → List UInt8 → List UInt8 → List UInt8 × List UInt8
  | 0, v, t => (v, t)
  | fuel + 1, v, t =>
    if t.length * 8 < bitLen q then collect k fuel (mac k v) (t ++ mac k v) else (v, t)

/-- Step H. -/
def search : Nat → List UInt8 → List UInt8 → Option Nat
  | 0, _, _ => none
  | fuel + 1, k, v =>
    -- each round of H2 adds a byte at least, so that the bits of the order are rounds enough
    let (v, t) := collect mac q k (bitLen q) v []
    let secret := hashToInt q t
    if 1 ≤ secret ∧ secret < q then some secret
    else
      let k := mac k (v ++ [0x00])
      search fuel k (mac k v)

/-- `NonceRFC6979` over a curve of order `q`, with at most `fuel` rounds of step H. -/
def nonceRFC6979 (fuel privkey : Nat) (hash extra version : List UInt8) : Option Nat :=
  let holen := 32
  let bx := seed q privkey hash extra version
  let v := List.replicate holen 0x01
  let k := List.replicate holen 0x00
  let k := mac k (v ++ 0x00 :: bx)
  let v := mac k v
  let k := mac k (v ++ 0x01 :: bx)
  search mac q fuel k (mac k v)

/-- `secp256k1.NonceRFC6979`. -/
def secp256k1Nonce : Nat → Nat → List UInt8 → List UInt8 → List UInt8 → Option Nat :=
  nonceRFC6979 mac curveN

/-- `N` of the edwards curve. -/
def edwardsN : Nat := 2 ^ 252 + 27742317777372353535851937790883648493

/-- `edwards.NonceRFC6979`. -/
def edwardsNonce : Nat → Nat → List UInt8 → List UInt8 → List UInt8 → Option Nat :=
  nonceRFC6979 mac edwardsN

end Chain

/-! ## Separation -/

/-- The tags of a call: `extra` is absent or has thirty-two bytes, not all zero, and `version` is
absent or has sixteen bytes. -/
structure Tags (extra version : List UInt8) : Prop where
  extra : extra = [] ∨ extra.length = 32 ∧ extra ≠ List.replicate 32 0
  version : version = [] ∨ version.length = 16

/-- Both calls have a version, and one `extra` in front of which it is dropped. -/
def VersionIgnored (extra version extra' version' : List UInt8) : Prop :=
  extra = extra' ∧ extra.length = 32 ∧ version.length = 16 ∧ version'.length = 16

variable {extra version extra' version' : List UInt8}

theorem tags_of_both (hextra : extra.length = 32) (hversion : version.length = 16) :
    tags extra version = extra ++ extra := by
  simp [tags, hextra, hversion]

theorem tags_of_version (hversion : version.length = 16) :
    tags [] version = replicate 32 0 ++ version := by
  simp [tags, hversion]

/-- The length of what is added tells which tags there are. -/
theorem length_tags (extra version : List UInt8) : (tags extra version).length =
    if extra.length = 32 then if version.length = 16 then 64 else 32
    else if version.length = 16 then 48 else 0 := by
  unfold tags
  split_ifs with hextra hversion hversion <;> simp [*]

theorem Tags.extra_nil (h : Tags extra version) (hlen : extra.length ≠ 32) : extra = [] :=
  h.extra.resolve_right fun hextra => hlen hextra.1

theorem Tags.version_nil (h : Tags extra version) (hlen : version.length ≠ 16) : version = [] :=
  h.version.resolve_right hlen

/-- **What is added** is the same for the same tags, and for two versions with one `extra`. -/
theorem tags_eq_iff (h : Tags extra version) (h' : Tags extra' version') :
    tags extra version = tags extra' version' ↔
      (extra, version) = (extra', version') ∨ VersionIgnored extra version extra' version' := by
  constructor
  · intro heq
    have hlen := congrArg List.length heq
    rw [length_tags, length_tags] at hlen
    -- the lengths agree only where the same tags are there
    have hboth : (extra.length = 32 ↔ extra'.length = 32) ∧
        (version.length = 16 ↔ version'.length = 16) := by
      split_ifs at hlen <;> simp_all
    by_cases hextra : extra.length = 32
    · have hextra' := hboth.1.1 hextra
      simp only [tags, hextra, hextra', if_true] at heq
      obtain ⟨rfl, -⟩ := append_inj heq (hextra.trans hextra'.symm)
      by_cases hversion : version.length = 16
      · exact .inr ⟨rfl, hextra, hversion, hboth.2.1 hversion⟩
      · rw [h.version_nil hversion, h'.version_nil fun hlen => hversion (hboth.2.2 hlen)]
        exact .inl rfl
    · left
      obtain rfl := h.extra_nil hextra
      obtain rfl := h'.extra_nil fun hlen => hextra (hboth.1.2 hlen)
      by_cases hversion : version.length = 16
      · rw [tags_of_version hversion, tags_of_version (hboth.2.1 hversion)] at heq
        rw [append_cancel_left heq]
      · rw [h.version_nil hversion, h'.version_nil fun hlen => hversion (hboth.2.2 hlen)]
  · intro hcases
    obtain heq | ⟨rfl, hextra, hversion, hversion'⟩ := hcases
    · cases heq
      rfl
    · rw [tags_of_both hextra hversion, tags_of_both hextra hversion']

theorem seed_eq_iff (q privkey : Nat) (hash : List UInt8) :
    seed q privkey hash extra version = seed q privkey hash extra' version' ↔
      tags extra version = tags extra' version' :=
  append_right_inj _

/-- **The version is dropped**: the nonces of two versions with one `extra` are the same, for every
HMAC, curve, key and hash. -/
theorem nonce_version_ignored (h : VersionIgnored extra version extra' version')
    (mac : List UInt8 → List UInt8 → List UInt8) (q fuel privkey : Nat) (hash : List UInt8) :
    nonceRFC6979 mac q fuel privkey hash extra version =
      nonceRFC6979 mac q fuel privkey hash extra' version' := by
  obtain ⟨rfl, hextra, hversion, hversion'⟩ := h
  have hseed := (seed_eq_iff q privkey hash).2
    ((tags_of_both hextra hversion).trans (tags_of_both hextra hversion').symm)
  simp only [nonceRFC6979, hseed]

/-- **Separation.** For every key and hash, the strings of two calls whose tags differ are different
on both curves if and only if it is not a version behind one `extra` that alone differs. -/
theorem seed_separated_iff (privkey : Nat) (hash : List UInt8) (h : Tags extra version)
    (h' : Tags extra' version') (hne : (extra, version) ≠ (extra', version')) :
    (seed curveN privkey hash extra version ≠ seed curveN privkey hash extra' version' ∧
      seed edwardsN privkey hash extra version ≠ seed edwardsN privkey hash extra' version') ↔
      ¬ VersionIgnored extra version extra' version' := by
  have heq : tags extra version = tags extra' version' ↔
      VersionIgnored extra version extra' version' := by
    rw [tags_eq_iff h h', or_iff_right hne]
  rw [ne_eq, ne_eq, seed_eq_iff, seed_eq_iff, heq, and_self]

theorem seed_separated_version :
    seed curveN 5 [0x2a] [] (List.replicate 16 1) ≠ seed curveN 5 [0x2a] [] (List.replicate 16 2) ∧
      seed edwardsN 5 [0x2a] [] (List.replicate 16 1) ≠
        seed edwardsN 5 [0x2a] [] (List.replicate 16 2) :=
  (seed_separated_iff 5 [0x2a] ⟨.inl rfl, .inr rfl⟩ ⟨.inl rfl, .inr rfl⟩ (by decide)).2
    fun h => absurd h.2.1 (by decide)

/-- Two versions with one `extra` give one string. -/
theorem seed_version_dropped : List.replicate 16 (1 : UInt8) ≠ List.replicate 16 2 ∧
      seed curveN 5 [0x2a] (List.replicate 32 7) (List.replicate 16 1) =
        seed curveN 5 [0x2a] (List.replicate 32 7) (List.replicate 16 2) ∧
      seed edwardsN 5 [0x2a] (List.replicate 32 7) (List.replicate 16 1) =
        seed edwardsN 5 [0x2a] (List.replicate 32 7) (List.replicate 16 2) :=
  ⟨by decide, rfl, rfl⟩

end Fnod.Fnoec
