import Fnod.Fnoec.Secp256k1
import Fnod.Fnoec.Signature

/-!
# `extendedkey.go`: extended keys and their slices

An extended key holds slices: its key, its chain code, the fingerprint of its parent and, once it
was needed, its public key. `Child` makes all of them anew. `Neuter` of a private key hands out the
slices it has, and the public key that it remembers as the key; `Zero` writes zeros into them.

**`zero_unchanged_iff`**: in a family that any calls of `Child` and `Neuter` make from one key,
`Zero` on a key leaves what another one gives (`Gives`) unchanged if and only if the two do not
share their chain code, as a private key and what `Neuter` makes of it do; these are the keys of
one owner, which the calls tell (`owners`).

A slice is named by the key it was made for and the field (`Slice`). Every key refers to the slices
of one owner only (`Placed`), so `Zero` does not reach the others; and two keys of one owner have
the same slice for their public key.
-/

namespace Fnod.Hdkeychain

open Bytes Function Secp256k1

/-! ## What a key gives -/

/-- The curve, the hash functions and the table of versions. -/
structure Crypto where
  scalarBaseMult : List UInt8 → PublicKey
  add : PublicKey → PublicKey → PublicKey
  hmac512 : List UInt8 → List UInt8 → List UInt8
  hash160 : List UInt8 → List UInt8
  hashB : List UInt8 → List UInt8
  base58 : List UInt8 → List UInt8
  hdPrivateKeyToPublicKeyID : List UInt8 → Option (List UInt8)

def serializeCompressed (p : PublicKey) : List UInt8 :=
  compressedFormat (isOdd p.y) :: putBE 32 p.x

/-- The errors of `ParsePubKey`: the wrong first byte of a compressed key, and the others. -/
inductive PubKeyError
  | invalidMagic
  | other
deriving DecidableEq

/-- `ParsePubKey`, with its error. -/
def parse (pubKeyStr : List UInt8) : Except PubKeyError PublicKey :=
  match parsePubKey pubKeyStr with
  | some key => .ok key
  | none =>
    .error (if pubKeyStr.length = 33 ∧ pubKeyStr.headD 0 &&& 0xfe ≠ 0x02 then .invalidMagic
      else .other)

inductive KeyError
  | deriveHardFromPublic
  | invalidChild
  | pubKey (err : PubKeyError)
deriving DecidableEq

/-- The bytes of an extended key. -/
structure KeyData where
  key : List UInt8
  pubKey : List UInt8
  chainCode : List UInt8
  parentFP : List UInt8
  version : List UInt8
  childNum : UInt32
  depth : UInt16
  isPrivate : Bool
deriving DecidableEq

def hardenedKeyStart : UInt32 := 0x80000000

/-- `paddedAppend` to an empty slice. -/
def padded (size : Nat) (src : List UInt8) : List UInt8 :=
  List.replicate (size - src.length) 0 ++ src

/-- `copy` into a new slice. -/
def copied (size : Nat) (src : List UInt8) : List UInt8 :=
  (src ++ List.replicate size 0).take size

namespace KeyData

variable (c : Crypto) (k : KeyData)

def pubKeyBytes : List UInt8 :=
  if !k.isPrivate then k.key
  else if k.pubKey.length = 0 then serializeCompressed (c.scalarBaseMult k.key)
  else k.pubKey

/-- `ParentFingerprint`, which panics if there are fewer than four bytes. -/
def parentFingerprint : Option UInt32 :=
  if k.parentFP.length < 4 then none else some (UInt32.ofNat (getBE (k.parentFP.take 4)))

def ecPubKey : Except PubKeyError PublicKey := parse (k.pubKeyBytes c)

/-- The key of a child, from the left half of the hash. -/
def childKey (il : List UInt8) : Except KeyError (List UInt8) :=
  if curveN ≤ getBE il ∨ getBE il = 0 then .error .invalidChild
  else if k.isPrivate then .ok (bigBytes ((getBE il + getBE k.key) % curveN))
  else
    let p := c.scalarBaseMult il
    if p.x = 0 ∨ p.y = 0 then .error .invalidChild
    else
      match parse k.key with
      | .error err => .error (.pubKey err)
      | .ok pubKey => .ok (serializeCompressed (c.add p pubKey))

def child (i : UInt32) : Except KeyError KeyData :=
  if !k.isPrivate ∧ hardenedKeyStart ≤ i then .error .deriveHardFromPublic
  else do
    let data := (if hardenedKeyStart ≤ i then copied 33 (0 :: k.key)
      else copied 33 (k.pubKeyBytes c)) ++ putBE 4 i.toNat
    let ilr := c.hmac512 k.chainCode data
    let childKey ← k.childKey c (ilr.take (ilr.length / 2))
    .ok {
      key := childKey
      pubKey := []
      chainCode := ilr.drop (ilr.length / 2)
      parentFP := (c.hash160 (k.pubKeyBytes c)).take 4
      version := k.version
      childNum := i
      depth := k.depth + 1
      isPrivate := k.isPrivate }

/-- `String`; nothing for a key that was zeroed. -/
def string : Option (List UInt8) :=
  if k.key.length = 0 then none
  else
    let serializedBytes := k.version ++ UInt8.ofNat (k.depth.toNat % 256) :: k.parentFP ++
      putBE 4 k.childNum.toNat ++ k.chainCode ++
      if k.isPrivate then 0x00 :: padded 32 k.key else k.pubKeyBytes c
    some (c.base58 (serializedBytes ++ (c.hashB (c.hashB serializedBytes)).take 4))

end KeyData

variable (s : Store) (c : Crypto)

/-- Two keys give the same. -/
structure Gives (k k' : KeyData) : Prop where
  string : k'.string c = k.string c
  child : ∀ i, k'.child c i = k.child c i
  ecPubKey : k'.ecPubKey c = k.ecPubKey c
  parentFingerprint : k'.parentFingerprint = k.parentFingerprint

/-! ## Keys and slices -/

inductive Field
  | key
  | pubKey
  | chainCode
  | parentFP
deriving DecidableEq

/-- A slice: the key it was made for, and the field. -/
abbrev Slice := Nat × Field

/-- `ExtendedKey`. The version is never written to. -/
structure ExtendedKey where
  key : Option Slice
  pubKey : Option Slice
  chainCode : Slice
  parentFP : Slice
  version : List UInt8
  childNum : UInt32
  depth : UInt16
  isPrivate : Bool
deriving DecidableEq

def ExtendedKey.slices (x : ExtendedKey) : List Slice :=
  x.key.toList ++ x.pubKey.toList ++ [x.chainCode, x.parentFP]

/-- The keys made so far, and the contents of their slices. -/
structure Store where
  size : Nat
  keys : Nat → ExtendedKey
  bytes : Slice → List UInt8

namespace Store

/-- The bytes of a key. -/
def data (s : Store) (k : Nat) : KeyData :=
  let x := s.keys k
  { key := (x.key.map s.bytes).getD []
    pubKey := (x.pubKey.map s.bytes).getD []
    chainCode := s.bytes x.chainCode
    parentFP := s.bytes x.parentFP
    version := x.version
    childNum := x.childNum
    depth := x.depth
    isPrivate := x.isPrivate }

def add (s : Store) (x : ExtendedKey) : Store :=
  { s with size := s.size + 1, keys := Function.update s.keys s.size x }

/-- `newExtendedKey` on new slices. -/
def new (s : Store) (k : KeyData) : Store :=
  let n := s.size
  let s := s.add ⟨some (n, .key), none, (n, .chainCode), (n, .parentFP), k.version, k.childNum,
    k.depth, k.isPrivate⟩
  { s with bytes := fun p => if p.1 ≠ n then s.bytes p else
      match p.2 with
      | .key => k.key
      | .pubKey => []
      | .chainCode => k.chainCode
      | .parentFP => k.parentFP }

/-- What `pubKeyBytes` remembers. -/
def memoize (c : Crypto) (s : Store) (k : Nat) : Store :=
  if (s.keys k).isPrivate ∧ (s.data k).pubKey.length = 0 then
    { s with
      keys := Function.update s.keys k { s.keys k with pubKey := some (k, .pubKey) }
      bytes := Function.update s.bytes (k, .pubKey) ((s.data k).pubKeyBytes c) }
  else s

/-- `Child`. A failed call has asked for the public key too, if the child is not hardened. -/
def child (c : Crypto) (s : Store) (k : Nat) (i : UInt32) : Store :=
  match (s.data k).child c i with
  | .error _ => if i < hardenedKeyStart then s.memoize c k else s
  | .ok w => (s.memoize c k).new w

def neuter (c : Crypto) (s : Store) (k : Nat) : Store :=
  if !(s.keys k).isPrivate then s
  else
    match c.hdPrivateKeyToPublicKeyID (s.keys k).version with
    | none => s
    | some version =>
      let s := s.memoize c k
      let x := s.keys k
      s.add ⟨x.pubKey, none, x.chainCode, x.parentFP, version, x.childNum, x.depth, false⟩

def zero (s : Store) (k : Nat) : Store :=
  let x := s.keys k
  { s with
    keys := Function.update s.keys k
      { x with version := [], key := none, depth := 0, childNum := 0, isPrivate := false }
    bytes := fun p =>
      if p ∈ x.slices then List.replicate (s.bytes p).length 0 else s.bytes p }

end Store

/-! ## Families -/

inductive Call
  | child (k : Nat) (i : UInt32)
  | neuter (k : Nat)

def Store.call (s : Store) : Call → Store
  | .child k i => if k < s.size then s.child c k i else s
  | .neuter k => if k < s.size then s.neuter c k else s

/-- One key. -/
def Store.start (root : KeyData) : Store :=
  (⟨0, fun _ => ⟨none, none, (0, .chainCode), (0, .parentFP), [], 0, 0, false⟩, fun _ => []⟩ :
    Store).new root

/-- The keys that calls make from one key. -/
def family (root : KeyData) (calls : List Call) : Store :=
  calls.foldl (Store.call c) (.start root)

/-- The owner of the key that a call makes, where `n` keys were there before. -/
def Call.owner (n : Nat) : Call → Nat
  | child _ _ => n
  | neuter k => k

/-- The owners of the keys that calls make, in their order. Some calls fail and make none. -/
def Store.owners (s : Store) : List Call → List Nat
  | [] => []
  | call :: calls =>
    (if s.size < (s.call c call).size then [call.owner s.size] else []) ++
      (s.call c call).owners calls

/-- The owners of the keys of a family: a key that comes from `Neuter` has the slices of the key
that it was made of, and the others have their own. -/
def owners (root : KeyData) (calls : List Call) : List Nat :=
  0 :: (Store.start root).owners c calls

/-- A private key with its own slices has its public key in its slice for it. -/
structure Remembered (o : Nat) : Prop where
  isPrivate : (s.keys o).isPrivate = true
  pubKey : (s.keys o).pubKey = some (o, .pubKey)
  compressed : ∃ p, s.bytes (o, .pubKey) = serializeCompressed p

/-- Where a key has its slices: in its own ones, or, if it comes from `Neuter`, in those of the
private key `o`. -/
inductive Placed (n : Nat) : Nat → Prop
  | own : (s.keys n).key = some (n, .key) → (s.keys n).chainCode = (n, .chainCode) →
      (s.keys n).parentFP = (n, .parentFP) → (s.keys n).pubKey = none ∨ Remembered s n →
      Placed n n
  | neutered {o : Nat} : o < s.size → n ≠ o → Remembered s o →
      (s.keys n).key = some (o, .pubKey) → (s.keys n).pubKey = none →
      (s.keys n).chainCode = (o, .chainCode) → (s.keys n).parentFP = (o, .parentFP) →
      (s.keys n).isPrivate = false → Placed n o

/-- The keys have the owners that are listed. -/
structure Inv (l : List Nat) : Prop where
  length : l.length = s.size
  placed : ∀ n o, l[n]? = some o → Placed s n o

variable {c : Crypto} {s s' : Store} {n o k : Nat} {l : List Nat}

theorem Remembered.congr (h : Remembered s o) (hkeys : s'.keys o = s.keys o)
    (hbytes : s'.bytes (o, .pubKey) = s.bytes (o, .pubKey)) : Remembered s' o := by
  refine ⟨?_, ?_, ?_⟩
  · rw [hkeys, h.isPrivate]
  · rw [hkeys, h.pubKey]
  · rw [hbytes]
    exact h.compressed

/-- A key stays where it is if nothing is done to it and to the public key of its owner. -/
theorem Placed.congr (h : Placed s n o) (hsize : s.size ≤ s'.size) (hkeys : s'.keys n = s.keys n)
    (howner : Remembered s o → Remembered s' o) : Placed s' n o := by
  cases h with
  | own hkey hchain hparent hpub =>
    rw [← hkeys] at hkey hchain hparent hpub
    exact .own hkey hchain hparent (hpub.imp_right howner)
  | neutered hlt hne hrem hkey hpub hchain hparent hpriv =>
    rw [← hkeys] at hkey hpub hchain hparent hpriv
    exact .neutered (by omega) hne (howner hrem) hkey hpub hchain hparent hpriv

theorem Placed.lt (h : Placed s n o) (hn : n < s.size) : o < s.size := by
  cases h with
  | own => exact hn
  | neutered hlt => exact hlt

theorem Placed.chainCode (h : Placed s n o) : (s.keys n).chainCode = (o, .chainCode) := by
  cases h with
  | own _ hchain => exact hchain
  | neutered _ _ _ _ _ hchain => exact hchain

theorem Inv.of_lt (h : Inv s l) (hn : n < s.size) :
    ∃ o, l[n]? = some o ∧ Placed s n o := by
  have hget := List.getElem?_eq_getElem (h.length ▸ hn : n < l.length)
  exact ⟨_, hget, h.placed n _ hget⟩

theorem Inv.add (h : Inv s l) {x : ExtendedKey} {bytes : Slice → List UInt8}
    (hbytes : ∀ o < s.size, bytes (o, .pubKey) = s.bytes (o, .pubKey))
    (hnew : Placed { s.add x with bytes } s.size o) :
    Inv { s.add x with bytes } (l ++ [o]) := by
  refine ⟨by simp [Store.add, h.length], fun n o' hget => ?_⟩
  have hkeys : ∀ m < s.size, (s.add x).keys m = s.keys m := fun m hm =>
    update_of_ne hm.ne _ _
  rw [List.getElem?_append, h.length] at hget
  split_ifs at hget with hlt
  · have ho := h.placed n o' hget
    have hlto := ho.lt hlt
    exact ho.congr (Nat.le_succ _) (hkeys n hlt) fun hrem =>
      hrem.congr (hkeys o' hlto) (hbytes o' hlto)
  · obtain ⟨hzero, rfl⟩ : n - s.size = 0 ∧ o = o' := by
      simpa [List.getElem?_singleton] using hget
    obtain rfl : n = s.size := by omega
    exact hnew

theorem Inv.new (h : Inv s l) (w : KeyData) : Inv (s.new w) (l ++ [s.size]) := by
  refine h.add (fun o ho => if_pos ho.ne) (.own ?_ ?_ ?_ (.inl ?_))
  all_goals simp [Store.add]

theorem memoize_eq_self (h : (s.keys k).isPrivate = false ∨ Remembered s k) :
    s.memoize c k = s := by
  refine if_neg fun ⟨hpriv, hlen⟩ => ?_
  obtain hpub | hrem := h
  · simp [hpub] at hpriv
  · obtain ⟨p, hp⟩ := hrem.compressed
    simp [Store.data, hrem.pubKey, hp, serializeCompressed] at hlen

section

variable (h : Inv s l) (hk : k < s.size)

include h hk

/-- After `pubKeyBytes`, a private key remembers its public key. -/
theorem Inv.memoize (hpriv : (s.keys k).isPrivate = true) :
    Inv (s.memoize c k) l ∧ Remembered (s.memoize c k) k := by
  obtain ⟨o, hget, hplaced⟩ := h.of_lt hk
  cases hplaced with
  | neutered _ _ _ _ _ _ _ hpub => simp [hpub] at hpriv
  | own hkey hchain hparent hpub =>
    obtain hpub | hrem := hpub
    · have hnot : ¬ Remembered s k := fun hrem => by simp [hrem.pubKey] at hpub
      have heq : s.memoize c k = _ := if_pos ⟨hpriv, by simp [Store.data, hpub]⟩
      have hrem : Remembered (s.memoize c k) k := by
        rw [heq]
        refine ⟨by simpa using hpriv, by simp, c.scalarBaseMult (s.data k).key, ?_⟩
        simp [KeyData.pubKeyBytes, Store.data, hpriv, hpub]
      refine ⟨⟨by rw [heq, h.length], fun n o hn => ?_⟩, hrem⟩
      by_cases hnk : n = k
      · subst hnk
        cases hget.symm.trans hn
        refine .own ?_ ?_ ?_ (.inr hrem)
        all_goals rw [heq]; simpa
      · refine (h.placed n o hn).congr (by rw [heq]) ?_ fun hrem' => ?_
        · rw [heq]
          exact update_of_ne hnk _ _
        · -- the owner remembers its public key already, so it is another one
          have hok : o ≠ k := fun hok => hnot (hok ▸ hrem')
          refine hrem'.congr ?_ ?_
          · rw [heq]
            exact update_of_ne hok _ _
          · rw [heq]
            exact update_of_ne (fun hp => hok (Prod.mk.inj hp).1) _ _
    · rw [memoize_eq_self (.inr hrem)]
      exact ⟨h, hrem⟩

theorem Inv.memoize_any : Inv (s.memoize c k) l := by
  cases hpriv : (s.keys k).isPrivate with
  | false => rwa [memoize_eq_self (.inl hpriv)]
  | true => exact (h.memoize hk hpriv).1

theorem Inv.neuter : Inv (s.neuter c k) l ∨ Inv (s.neuter c k) (l ++ [k]) := by
  unfold Store.neuter
  split_ifs with hpub
  · exact .inl h
  · have hpriv : (s.keys k).isPrivate = true := by simpa using hpub
    obtain ⟨hinv, hrem⟩ := h.memoize (c := c) hk hpriv
    have hsize : (s.memoize c k).size = s.size := hinv.length.symm.trans h.length
    cases c.hdPrivateKeyToPublicKeyID (s.keys k).version with
    | none => exact .inl h
    | some version =>
      refine .inr (hinv.add (fun _ _ => rfl) ?_)
      obtain ⟨o, -, hplaced⟩ := hinv.of_lt (hsize ▸ hk)
      cases hplaced with
      | neutered _ _ _ _ hnone => simp [hrem.pubKey] at hnone
      | own _ hchain hparent =>
        have hkeep : (s.memoize c k).size ≠ k := by omega
        refine .neutered (by simp [Store.add]; omega) hkeep
          (hrem.congr (update_of_ne hkeep.symm _ _) rfl) ?_ ?_ ?_ ?_ ?_
        all_goals simp [Store.add, hrem.pubKey, hchain, hparent]

theorem Inv.child (i : UInt32) :
    Inv (s.child c k i) l ∨ Inv (s.child c k i) (l ++ [s.size]) := by
  unfold Store.child
  have hmemo := h.memoize_any (c := c) hk
  cases (s.data k).child c i with
  | error err =>
    split_ifs
    · exact .inl hmemo
    · exact .inl h
  | ok w => exact .inr (hmemo.length.symm.trans h.length ▸ hmemo.new w)

end

/-- **One call**: a new key has the owner that the call says. -/
theorem Inv.call (h : Inv s l) (call : Call) : Inv (s.call c call)
    (l ++ if s.size < (s.call c call).size then [call.owner s.size] else []) := by
  have hcases : Inv (s.call c call) l ∨ Inv (s.call c call) (l ++ [call.owner s.size]) := by
    cases call with
    | child k i =>
      dsimp only [Store.call]
      split_ifs with hk
      · exact h.child hk i
      · exact .inl h
    | neuter k =>
      dsimp only [Store.call]
      split_ifs with hk
      · exact h.neuter hk
      · exact .inl h
  rcases hcases with hsame | hnew
  · rwa [if_neg (by rw [← hsame.length, h.length]; exact lt_irrefl _), List.append_nil]
  · rwa [if_pos (by rw [← hnew.length, ← h.length]; simp)]

theorem family_inv (c : Crypto) (root : KeyData) (calls : List Call) :
    Inv (family c root calls) (owners c root calls) := by
  unfold family owners
  have h : Inv (.start root) [0] := Inv.new (l := []) ⟨rfl, nofun⟩ root
  change Inv _ ([0] ++ _)
  generalize Store.start root = start, [0] = l at h
  induction calls generalizing start l with
  | nil => rwa [Store.owners, List.append_nil]
  | cons call calls ih =>
    rw [Store.owners, ← List.append_assoc]
    exact ih _ _ (h.call call)

/-! ## `Zero` -/

/-- The slices of a key have one owner. -/
theorem Placed.owner (h : Placed s n o) : ∀ p ∈ (s.keys n).slices, p.1 = o := by
  cases h with
  | own hkey hchain hparent hpub =>
    obtain hpub | hrem := hpub
    · simp [ExtendedKey.slices, hkey, hpub, hchain, hparent]
    · simp [ExtendedKey.slices, hkey, hrem.pubKey, hchain, hparent]
  | neutered _ _ _ hkey hpub hchain hparent =>
    simp [ExtendedKey.slices, hkey, hpub, hchain, hparent]

theorem data_congr (hkeys : s'.keys n = s.keys n)
    (hbytes : ∀ p ∈ (s.keys n).slices, s'.bytes p = s.bytes p) : s'.data n = s.data n := by
  unfold Store.data
  rw [hkeys]
  generalize s.keys n = x at hbytes
  cases hkey : x.key <;> cases hpub : x.pubKey <;> simp_all [ExtendedKey.slices]

/-- The public key of a key, where that of its owner is remembered. -/
theorem pubKeyBytes_of_remembered (h : Placed s n o) (hrem : Remembered s o)
    (hkeys : s'.keys n = s.keys n) (hlen : (s'.bytes (o, .pubKey)).length ≠ 0) :
    (s'.data n).pubKeyBytes c = s'.bytes (o, .pubKey) := by
  unfold KeyData.pubKeyBytes Store.data
  cases h with
  | own => simp [hkeys, hrem.isPrivate, hrem.pubKey, List.length_eq_zero_iff.not.1 hlen]
  | neutered _ _ _ hkey hpub _ _ hpriv => simp [hkeys, hkey, hpriv]

theorem parse_compressed (p : PublicKey) :
    parse (serializeCompressed p) ≠ .error .invalidMagic := by
  unfold parse
  cases parsePubKey (serializeCompressed p) with
  | some key => simp
  | none => simp [serializeCompressed, (compressedFormat_bits _).1]

/-- Two keys of one owner have one slice for their public keys. -/
theorem not_gives_of_owner {a b : Nat} (ha : Placed s a o) (hb : Placed s b o) (hab : b ≠ a) :
    ¬ Gives c (s.data b) ((s.zero a).data b) := by
  intro h
  have hrem : Remembered s o := by
    cases ha with
    | neutered _ _ hrem => exact hrem
    | own =>
      cases hb with
      | own => exact absurd rfl hab
      | neutered _ _ hrem => exact hrem
  obtain ⟨p, hp⟩ := hrem.compressed
  have hslice : (o, .pubKey) ∈ (s.keys a).slices := by
    cases ha with
    | own => simp [ExtendedKey.slices, hrem.pubKey]
    | neutered _ _ _ hkey => simp [ExtendedKey.slices, hkey]
  have hzero : (s.zero a).bytes (o, .pubKey) = List.replicate 33 0 := by
    have hif : (s.zero a).bytes (o, .pubKey) = _ := if_pos hslice
    simpa [hp, serializeCompressed] using hif
  have hkeys : (s.zero a).keys b = s.keys b := update_of_ne hab _ _
  have hec := h.ecPubKey
  unfold KeyData.ecPubKey at hec
  rw [pubKeyBytes_of_remembered hb hrem hkeys (by simp [hzero]), hzero,
    pubKeyBytes_of_remembered hb hrem rfl (by simp [hp, serializeCompressed]), hp] at hec
  exact parse_compressed p hec.symm

/-- **Zeroing a key.** In a family, `Zero` leaves what another key gives unchanged if and only if
the two keys do not share their chain code, which the keys of one owner do. -/
theorem zero_unchanged_iff (c : Crypto) (root : KeyData) (calls : List Call) {a b : Nat}
    (ha : a < (family c root calls).size) (hb : b < (family c root calls).size) (hab : b ≠ a) :
    (Gives c ((family c root calls).data b) (((family c root calls).zero a).data b) ↔
      ((family c root calls).keys a).chainCode ≠ ((family c root calls).keys b).chainCode) ∧
    (((family c root calls).keys a).chainCode = ((family c root calls).keys b).chainCode ↔
      (owners c root calls)[a]? = (owners c root calls)[b]?) := by
  have hinv := family_inv c root calls
  generalize family c root calls = s at *
  obtain ⟨oa, hoa', hoa⟩ := hinv.of_lt ha
  obtain ⟨ob, hob', hob⟩ := hinv.of_lt hb
  rw [hoa.chainCode, hob.chainCode, hoa', hob']
  refine ⟨⟨?_, ?_⟩, by simp⟩
  · rintro h heq
    obtain rfl := (Prod.mk.inj heq).1
    exact not_gives_of_owner hoa hob hab h
  · intro hne
    -- `Zero` writes to the slices of another owner
    have hsame : (s.zero a).data b = s.data b :=
      data_congr (Function.update_of_ne hab _ _) fun p hp => if_neg fun hpa =>
        hne (by rw [← hoa.owner p hpa, ← hob.owner p hp])
    rw [hsame]
    exact ⟨rfl, fun _ => rfl, rfl, rfl⟩

/-! A private key, its first child and its public form. -/

namespace ThreeKeys

/-- The generator. -/
def base : PublicKey where
  x := 0x79BE667EF9DCBBAC55A06295CE870B07029BFCDB2DCE28D959F2815B16F81798
  y := 0x483ADA7726A3C4655DA4FBFC0E1108A8FD17B448A68554199C47D08FFB10D4B8

/-- Functions that give the same whatever their arguments. -/
def crypto : Crypto where
  scalarBaseMult _ := base
  add p _ := p
  hmac512 _ _ := List.replicate 64 1
  hash160 _ := List.replicate 20 2
  hashB _ := List.replicate 32 3
  base58 bs := bs
  hdPrivateKeyToPublicKeyID := some

def master : KeyData := ⟨[1], [], List.replicate 32 4, [0, 0, 0, 0], [5, 6, 7, 8], 0, 0, true⟩

/-- Key 1 is the first child of key 0, key 2 the public form of key 0. -/
def calls : List Call := [.child 0 0, .neuter 0]

end ThreeKeys

open ThreeKeys in
theorem zero_unchanged_child : owners crypto master calls = [0, 1, 0] ∧
    Gives crypto ((family crypto master calls).data 0)
      (((family crypto master calls).zero 1).data 0) := by
  obtain ⟨hgives, hshared⟩ := zero_unchanged_iff crypto master calls (a := 1) (b := 0)
    (by decide +kernel) (by decide +kernel) (by decide)
  exact ⟨by decide +kernel, hgives.2 (hshared.not.2 (by decide +kernel))⟩

open ThreeKeys in
/-- `Zero` on a private key makes the public key that `Neuter` gave unusable. -/
theorem zero_private_breaks_public :
    ((family crypto master calls).data 2).ecPubKey crypto = .ok base ∧
      (((family crypto master calls).zero 0).data 2).ecPubKey crypto = .error .invalidMagic := by
  decide +kernel

end Fnod.Hdkeychain
