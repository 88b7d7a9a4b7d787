import Fnod.Lib.Buffer
import Fnod.Lib.HashTree
import Fnod.Wire.TxCodec
import Mathlib.Data.Nat.Log

/-!
# `merkle.go`: merkle trees

The header of a block commits to the transactions of the block by the root of a hash tree over the
hashes of the transactions. The tree is built in one array: the hashes of the transactions, nil up
to the next power of two, and then the levels above, up to the root.

**Theorem (`merkleRoot_commits`).** The last element of the array is the root of the hash tree, as
the recursion over levels defines it. If two lists of transactions without repeated hashes have the
same next power of two and the same root, they have the same hashes, unless two different pairs that
are hashed on the way have the same hash.

The loop reads two elements and writes one, so it is `runQueue` of the library on the part of the
array that is not read yet (`populateLoop_eq`).
-/

namespace Fnod

open Except HashTree List

section Store

variable [Blake256]

def Wire.MsgTx.txHashWitness (msg : Wire.MsgTx) : Hash :=
  Blake256.hashH ((msg.serialize Wire.txSerializeOnlyWitness).getD [])

def Wire.MsgTx.txHashFull (msg : Wire.MsgTx) : Hash :=
  Blake256.hashH (msg.txHash.bytes ++ msg.txHashWitness.bytes)

def hashMerkleBranches (left right : Hash) : Hash := Blake256.hashH (left.bytes ++ right.bytes)

omit [Blake256] in
/-- `nextPowerOfTwo`. The logarithm is that of a floating point number, which is exact for the
length of every slice that fits in memory. -/
def nextPowerOfTwo (n : Nat) : Nat :=
  if n &&& (n - 1) = 0 then n
  else
    let exponent := n.log2 + 1
    1 <<< exponent

/-- The cases of `populateMerkleStore`: the node above two elements. -/
def merkleParent : Option Hash → Option Hash → Option Hash
  | none, _ => none
  | some left, none => some (hashMerkleBranches left left)
  | some left, some right => some (hashMerkleBranches left right)

/-- The loop of `populateMerkleStore`. -/
def populateLoop : (fuel i offset : Nat) → List (Option Hash) →
    Except (Fault Empty) (List (Option Hash))
  | 0, _, _, merkles => .ok merkles
  | fuel + 1, i, offset, merkles =>
    if i + 1 < merkles.length then do
      let left ← Slice.get merkles i
      let right ← Slice.get merkles (i + 1)
      let merkles ← Slice.set merkles offset (merkleParent left right)
      populateLoop fuel (i + 2) (offset + 1) merkles
    else .ok merkles

def populateMerkleStore (offset : Nat) (merkles : List (Option Hash)) :
    Except (Fault Empty) (List (Option Hash)) :=
  populateLoop merkles.length 0 offset merkles

def buildMerkleTreeStore (transactions : List Wire.MsgTx) :
    Except (Fault Empty) (List (Option Hash)) :=
  if transactions.length = 0 then .ok [some default]
  else do
    let nextPoT := nextPowerOfTwo transactions.length
    let arraySize := nextPoT * 2 - 1
    let merkles ← Slice.fill none arraySize (transactions.map fun tx => some tx.txHashFull)
    populateMerkleStore nextPoT merkles

/-! ## The next power of two -/

omit [Blake256] in
theorem nextPowerOfTwo_eq {n : Nat} (hn : n ≠ 0) :
    ∃ k, nextPowerOfTwo n = 2 ^ k ∧ n ≤ 2 ^ k ∧ 2 ^ k < 2 * n := by
  unfold nextPowerOfTwo
  by_cases hpow : n &&& (n - 1) = 0
  · obtain ⟨k, hk⟩ := (Nat.and_sub_one_eq_zero_iff_isPowerOfTwo hn).1 hpow
    refine ⟨k, by rw [if_pos hpow, hk], by omega, by omega⟩
  · refine ⟨n.log2 + 1, ?_, le_of_lt Nat.lt_log2_self, ?_⟩
    · rw [if_neg hpow, Nat.one_shiftLeft]
    · have hle := Nat.log2_self_le hn
      have hne : 2 ^ n.log2 ≠ n := by
        intro heq
        exact hpow ((Nat.and_sub_one_eq_zero_iff_isPowerOfTwo hn).2 ⟨n.log2, heq.symm⟩)
      rw [pow_succ]
      omega

/-! ## The loop -/

theorem merkleParent_eq (left right : Option Hash) :
    merkleParent left right = combine hashMerkleBranches left right := by
  cases left with
  | none => rfl
  | some left => cases right <;> rfl

theorem populateLoop_succ (fuel : Nat) (done q : List (Option Hash)) (pad : Nat)
    (left right : Option Hash) :
    populateLoop (fuel + 1) done.length (done.length + (left :: right :: q).length)
      (done ++ left :: right :: q ++ List.replicate (pad + 1) none) =
      populateLoop fuel (done ++ [left, right]).length
        ((done ++ [left, right]).length + (q ++ [combine hashMerkleBranches left right]).length)
        (done ++ [left, right] ++ (q ++ [combine hashMerkleBranches left right]) ++
          List.replicate pad none) := by
  have hleft : (done ++ left :: right :: q ++ List.replicate (pad + 1) none)[done.length]? =
      some left := by simp
  have hright : (done ++ left :: right :: q ++ List.replicate (pad + 1) none)[done.length + 1]? =
      some right := by simp
  have hset (parent : Option Hash) :
      (Slice.set (done ++ left :: right :: q ++ List.replicate (pad + 1) none)
        (done.length + (left :: right :: q).length) parent : Except (Fault Empty) _) =
      .ok (done ++ [left, right] ++ (q ++ [parent]) ++ List.replicate pad none) := by
    rw [Slice.set_eq (by simp), replicate_succ]
    simp
  have hlength : (done ++ [left, right]).length +
      (q ++ [combine hashMerkleBranches left right]).length =
        done.length + (left :: right :: q).length + 1 := by
    simp
    omega
  rw [populateLoop, if_pos (by simp), Slice.get_eq hleft, ok_bind, Slice.get_eq hright, ok_bind,
    hset, ok_bind, hlength, length_append, merkleParent_eq]
  rfl

/-- **The loop** treats the part of the array that is not read yet as a queue. -/
theorem populateLoop_eq {fuel : Nat} (done q : List (Option Hash)) (pad : Nat)
    (hq : q.length = pad + 1) (hfuel : pad ≤ fuel) :
    populateLoop fuel done.length (done.length + q.length) (done ++ q ++ List.replicate pad none) =
      .ok (done ++ runQueue hashMerkleBranches pad q) := by
  induction pad generalizing fuel done q with
  | zero =>
    have hrun : runQueue hashMerkleBranches 0 q = q := by rw [runQueue]; simp
    rw [hrun, replicate_zero, append_nil]
    cases fuel with
    | zero => rfl
    | succ fuel =>
      rw [populateLoop, if_neg]
      rw [length_append]
      omega
  | succ pad ih =>
    obtain ⟨fuel, rfl⟩ : ∃ f, fuel = f + 1 := ⟨fuel - 1, by omega⟩
    obtain ⟨left, q, rfl⟩ := exists_cons_of_length_eq_add_one hq
    obtain ⟨right, q, rfl⟩ := exists_cons_of_length_eq_add_one (Nat.succ.inj hq)
    rw [populateLoop_succ, ih, runQueue, append_assoc]
    · rfl
    · simp at hq ⊢
      omega
    · omega

/-! ## The tree -/

section Tree

variable {transactions transactions' : List Wire.MsgTx} {k : Nat}

/-- The hashes that the tree is over. -/
def fullHashes (transactions : List Wire.MsgTx) : List Hash :=
  transactions.map Wire.MsgTx.txHashFull

/-- The arguments of `HashMerkleBranches` when the tree is built. -/
def merkleBranches (transactions : List Wire.MsgTx) : List (Hash × Hash) :=
  hashed hashMerkleBranches (nextPowerOfTwo transactions.length).log2 (fullHashes transactions)

omit [Blake256] in
theorem nextPowerOfTwo_depth (hne : transactions ≠ []) :
    nextPowerOfTwo transactions.length = 2 ^ (nextPowerOfTwo transactions.length).log2 ∧
      Depth (nextPowerOfTwo transactions.length).log2 transactions := by
  obtain ⟨k, hk, hle, hlt⟩ := nextPowerOfTwo_eq (length_pos_iff.2 hne).ne'
  rw [hk, Nat.log2_two_pow]
  exact ⟨rfl, hle, hlt⟩

theorem depth_fullHashes (h : Depth k transactions) : Depth k (fullHashes transactions) := by
  unfold Depth fullHashes at *
  rwa [length_map]

/-- **The array is the tree.** -/
theorem buildMerkleTreeStore_eq (hne : transactions ≠ []) :
    ∃ merkles, buildMerkleTreeStore transactions = .ok merkles ∧
      merkles.getLast? = some (root hashMerkleBranches (fullHashes transactions)) := by
  obtain ⟨hpow, hdepth⟩ := nextPowerOfTwo_depth hne
  generalize hk : (nextPowerOfTwo transactions.length).log2 = k at hpow hdepth
  have hdepth := depth_fullHashes hdepth
  have hpos := Nat.one_le_two_pow (n := k)
  have hfill : (Slice.fill none (2 ^ k * 2 - 1) (transactions.map fun tx => some tx.txHashFull) :
      Except (Fault Empty) _) =
        .ok (padded k (fullHashes transactions) ++ List.replicate (2 ^ k - 1) none) := by
    have hlen : (transactions.map fun tx => some tx.txHashFull).length = transactions.length :=
      length_map _
    have hsize : transactions.length ≤ 2 ^ k := by simpa [fullHashes] using hdepth.1
    rw [Slice.fill, if_pos (by omega), padded, append_assoc, replicate_append_replicate, fullHashes,
      map_map, hlen, length_map]
    congr 3
    omega
  have hlength := length_padded hdepth.1
  refine ⟨_, ?_, getLast?_runQueue hashMerkleBranches hdepth⟩
  unfold buildMerkleTreeStore
  rw [if_neg (length_pos_iff.2 hne).ne', hpow]
  dsimp only
  rw [hfill, ok_bind, populateMerkleStore]
  have hloop := @populateLoop_eq _ (padded k (fullHashes transactions) ++
    List.replicate (2 ^ k - 1) none).length [] (padded k (fullHashes transactions)) (2 ^ k - 1)
    (by omega) (by simp)
  rw [hlength, length_nil, zero_add, nil_append] at hloop
  exact hloop

/-- **Theorem.** The last element of the array is the root of the tree. Two lists of transactions
without repeated hashes that have the same next power of two and the same root have the same hashes,
if `HashMerkleBranches` gives different hashes to the different pairs in both trees, and they are
the same transactions if different ones have different hashes. -/
theorem merkleRoot_commits (hne : transactions ≠ []) :
    (∃ merkles, buildMerkleTreeStore transactions = .ok merkles ∧
      merkles.getLast? = some (root hashMerkleBranches (fullHashes transactions))) ∧
    ∀ transactions' : List Wire.MsgTx, transactions' ≠ [] →
      nextPowerOfTwo transactions.length = nextPowerOfTwo transactions'.length →
      (fullHashes transactions).Nodup → (fullHashes transactions').Nodup →
      NoCollision hashMerkleBranches
        (merkleBranches transactions ++ merkleBranches transactions') →
      ∀ merkles merkles', buildMerkleTreeStore transactions = .ok merkles →
        buildMerkleTreeStore transactions' = .ok merkles' →
        merkles.getLast? = merkles'.getLast? →
        fullHashes transactions = fullHashes transactions' ∧
          ((∀ tx ∈ transactions, ∀ tx' ∈ transactions', tx.txHashFull = tx'.txHashFull → tx = tx') →
            transactions = transactions') := by
  refine ⟨buildMerkleTreeStore_eq hne, ?_⟩
  intro transactions' hne' hpow hnodup hnodup' hinj merkles merkles' hbuild hbuild' hlast
  obtain ⟨_, hbuild₁, hroot⟩ := buildMerkleTreeStore_eq hne
  obtain ⟨_, hbuild₂, hroot'⟩ := buildMerkleTreeStore_eq hne'
  cases hbuild.symm.trans hbuild₁
  cases hbuild'.symm.trans hbuild₂
  rw [hroot, hroot'] at hlast
  have hdepth := depth_fullHashes (nextPowerOfTwo_depth hne).2
  have hdepth' := depth_fullHashes (nextPowerOfTwo_depth hne').2
  unfold merkleBranches at hinj
  rw [← hpow] at hdepth' hinj
  have heq := eq_of_root_eq hinj hdepth hdepth' hnodup hnodup' (Option.some.inj hlast)
  exact ⟨heq, eq_of_map_eq heq⟩

end Tree

end Store

/-! Three transactions, and a hash function that is simple enough to compute. -/

namespace ThreeTxs

@[reducible] def blake256 : Blake256 where
  hashH b := Hash.ofNat (b.foldl (fun a x => (a * 257 + x.toNat + 1) % 1000003) 7)

attribute [local instance] blake256

def tx (lockTime : UInt32) : Wire.MsgTx := { (default : Wire.MsgTx) with version := 1, lockTime }

def txs : List Wire.MsgTx := [tx 1, tx 2, tx 3]

/-- The same transactions, received without witnesses. -/
def txs' : List Wire.MsgTx := txs.map fun tx => { tx with serType := Wire.txSerializeNoWitness }

end ThreeTxs

open ThreeTxs in
attribute [local instance] ThreeTxs.blake256 in
/-- The same root means the same hashes. -/
theorem merkleRoot_commits_threeTxs :
    NoCollision hashMerkleBranches (merkleBranches txs ++ merkleBranches txs') ∧
    ∃ merkles merkles', buildMerkleTreeStore txs = .ok merkles ∧
      buildMerkleTreeStore txs' = .ok merkles' ∧ merkles.getLast? = merkles'.getLast? ∧
      merkles.getLast? = some (root hashMerkleBranches (fullHashes txs)) ∧
      fullHashes txs = fullHashes txs' := by
  have hne : txs ≠ [] := by decide
  have hne' : txs' ≠ [] := by decide
  have hinj : NoCollision hashMerkleBranches (merkleBranches txs ++ merkleBranches txs') := by
    decide +kernel
  have hbuild : buildMerkleTreeStore txs = buildMerkleTreeStore txs' := by decide +kernel
  obtain ⟨⟨merkles, hmerkles, hlast⟩, hcommits⟩ := merkleRoot_commits hne
  refine ⟨hinj, merkles, merkles, hmerkles, hbuild.symm.trans hmerkles, rfl, hlast, ?_⟩
  exact (hcommits txs' hne' (by decide) (by decide +kernel) (by decide +kernel) hinj merkles merkles
    hmerkles (hbuild.symm.trans hmerkles) rfl).1

end Fnod
