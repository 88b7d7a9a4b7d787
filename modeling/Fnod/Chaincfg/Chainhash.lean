import Fnod.Lib.Bytes
import Mathlib.Data.List.Lex
import Mathlib.Order.Lattice

/-!
# Package `chainhash`

A `Hash` is a 32-byte array. `bytes.Compare` orders hashes lexicographically.

The hash function itself is BLAKE-256 from a third-party package. Nothing here depends on which
function it is, so it is an instance argument.
-/

namespace Fnod

open Bytes

def hashSize : Nat := 32

/-- A 32-byte hash. -/
structure Hash where
  bytes : List UInt8
  size : bytes.length = hashSize
deriving DecidableEq

namespace Hash

theorem ext_bytes {a b : Hash} (h : a.bytes = b.bytes) : a = b := by
  cases a; cases b; simpa using h

instance : LinearOrder Hash := LinearOrder.lift' Hash.bytes fun _ _ h => ext_bytes h

/-- The hash whose big-endian value is `n`. -/
def ofNat (n : Nat) : Hash := ⟨putBE hashSize n, length_putBE _ _⟩

instance : Inhabited Hash := ⟨ofNat 0⟩

end Hash

/-- `NewHash`: a byte string of the right length as a hash. -/
def newHash (b : List UInt8) : Option Hash :=
  if h : b.length = hashSize then some ⟨b, h⟩ else none

@[simp] theorem newHash_bytes (h : Hash) : newHash h.bytes = some h := by
  simp [newHash, h.size]

/-- The hash function of the chain. -/
class Blake256 where
  /-- `HashH`: the hash of a byte string. -/
  hashH : List UInt8 → Hash

/-- `HashB`: the hash of a byte string, as bytes. -/
def hashB [Blake256] (b : List UInt8) : List UInt8 := (Blake256.hashH b).bytes

end Fnod
