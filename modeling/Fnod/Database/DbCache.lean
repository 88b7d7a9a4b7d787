import Fnod.Lib.Layer

/-!
# The database cache

`dbcache.go` of package `ffldb`. Committed transactions are kept in memory, as entries to store and
keys to remove, until they are flushed to leveldb. The treaps that hold them are ordered maps here,
and a leveldb transaction is one change of the leveldb contents.

When a flush is needed depends on the clock and on the size of the cache, so it is an argument.
-/

namespace Fnod

variable {K V : Type} [LinearOrder K]

structure DbCacheSnapshot (K V : Type) [LinearOrder K] where
  dbSnapshot : OrdMap K V
  /-- `pendingKeys` and `pendingRemove`. -/
  pending : Layer K V

namespace DbCacheSnapshot

def has (snap : DbCacheSnapshot K V) (key : K) : Bool :=
  if snap.pending.dels.contains key then false
  else if snap.pending.puts.contains key then true
  else snap.dbSnapshot.contains key

def get (snap : DbCacheSnapshot K V) (key : K) : Option V :=
  if snap.pending.dels.contains key then none
  else
    match snap.pending.puts.get? key with
    | some value => some value
    | none => snap.dbSnapshot.get? key

/-- What is seen through the snapshot. -/
def contents (snap : DbCacheSnapshot K V) : OrdMap K V := snap.pending.apply snap.dbSnapshot

theorem get_eq (snap : DbCacheSnapshot K V) (key : K) : snap.get key = snap.contents.get? key := by
  rw [contents, Layer.get?_apply, Layer.lookup, get]
  cases snap.pending.puts.get? key <;> rfl

theorem has_eq (snap : DbCacheSnapshot K V) (key : K) :
    snap.has key = snap.contents.contains key := by
  rw [OrdMap.contains, ← get_eq, has, get]
  split_ifs with hdel hput
  · rfl
  · obtain ⟨v, hv⟩ := OrdMap.contains_eq_true.1 hput
    rw [hv]
    rfl
  · rw [Bool.not_eq_true, OrdMap.contains_eq_false] at hput
    rw [hput]
    rfl

end DbCacheSnapshot

structure DbCache (K V : Type) [LinearOrder K] where
  ldb : OrdMap K V
  /-- `cachedKeys` and `cachedRemove`. -/
  cached : Layer K V

namespace DbCache

/-- What the database holds. -/
def contents (c : DbCache K V) : OrdMap K V := c.cached.apply c.ldb

/-- `commitTreaps`: all updates in one leveldb transaction. -/
def commitTreaps (ldb : OrdMap K V) (pending : Layer K V) : OrdMap K V := pending.apply ldb

end DbCache

end Fnod
