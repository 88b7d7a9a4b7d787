import Fnod.Lib.Treap
import Fnod.Chaincfg.Chainhash

/-!
# Package `tickettreap`

The tickets of a stake node are kept in an immutable treap whose priority is the height of the
ticket. `Immutable` carries the search order, the heap order and the exactness of the cached
sizes, and `Put` and `Delete` keep them.

The code that uses the treap is written over the interface `TicketMap`, so that the same text runs
on treaps and on the ordered maps they stand for. `TreapSim` relates the two: the treap holds the
entries of the map, and the priority of every entry is the height of its ticket. `Put` on a key
that is already there leaves the priority as it was, so this part is kept by `Put` only where the
key is new (`TreapSim.put`).
-/

namespace Fnod

open OrdMap Treap Treap.Tree

/-- The state of a ticket. -/
structure TicketValue where
  /-- Height of the block in which the ticket became live. -/
  height : Nat
  missed : Bool
  revoked : Bool
  spent : Bool
  expired : Bool
deriving DecidableEq

/-- The bytes one node is estimated to take: the fields, the key and the fixed-size value. -/
def nodeSize : Nat := (32 + 8 + 4 + 4 + 2 * 8) + hashSize + 8

/-- An immutable treap of tickets. -/
structure Immutable where
  root : Tree Hash TicketValue
  count : Nat
  totalSize : Nat
  ascending : Ascending root.toList
  sized : root.Sized
  heap : root.Heap
  count_eq : count = root.toList.length
  totalSize_eq : totalSize = nodeSize * count

namespace Immutable

/-- `NewImmutable`. -/
def new : Immutable where
  root := .nil
  count := 0
  totalSize := 0
  ascending := List.Pairwise.nil
  sized := trivial
  heap := trivial
  count_eq := rfl
  totalSize_eq := rfl

variable (t : Immutable)

def len : Nat := t.count

def get (t : Immutable) (k : Hash) : Option TicketValue := t.root.get k

def has (k : Hash) : Bool := (t.get k).isSome

/-- `GetByIndex`. No result stands for a panic. -/
def getByIndex (t : Immutable) (i : Nat) : Option (Hash × TicketValue) := t.root.getByIndex i

/-- The entries `ForEachByHeight` visits. -/
def forEachByHeight (heightLessThan : Nat) : List (Hash × TicketValue) :=
  t.root.belowList heightLessThan

/-- The entries, as the map the treap stands for. -/
def toMap : OrdMap Hash TicketValue where
  toList := t.root.toList.map fun a => (a.1, a.2.2)
  ascending := List.pairwise_map.2 t.ascending

variable (t : Immutable) (k : Hash)

theorem get?_toMap : t.toMap.get? k = t.get k := by
  rw [get, get_eq t.ascending]
  exact lookupList_map (fun a : Nat × TicketValue => a.2) k t.root.toList

theorem lookupList_root_isSome : (lookupList k t.root.toList).isSome = t.has k := by
  rw [has, get, get_eq t.ascending, Option.isSome_map]

theorem size_toMap : t.toMap.size = t.len := by
  simp [toMap, OrdMap.size, len, t.count_eq]

/-- `Put`: a key that is already there keeps its node and its priority. -/
def put (t : Immutable) (k : Hash) (v : TicketValue) : Immutable where
  root := t.root.put k v v.height
  count := if t.has k then t.count else t.count + 1
  totalSize := if t.has k then t.totalSize else t.totalSize + nodeSize
  ascending := by
    rw [toList_put t.ascending]
    exact ascending_insertList t.ascending
  sized := sized_put t.sized _ _ _
  heap := heap_put t.heap _ _ _
  count_eq := by
    rw [toList_put t.ascending]
    have hhas := t.lookupList_root_isSome k
    cases hk : lookupList k t.root.toList with
    | none =>
      rw [length_insertList _ hk, ← t.count_eq, ← hhas, hk]
      rfl
    | some a =>
      rw [length_insertList_of_some _ t.ascending hk, ← t.count_eq, ← hhas, hk]
      rfl
  totalSize_eq := by
    split_ifs
    · exact t.totalSize_eq
    · rw [t.totalSize_eq, mul_add, mul_one]

def delete (t : Immutable) (k : Hash) : Immutable where
  root := t.root.delete k
  count := if t.has k then t.count - 1 else t.count
  totalSize := if t.has k then t.totalSize - nodeSize else t.totalSize
  ascending := by
    rw [toList_delete t.ascending]
    exact ascending_eraseList t.ascending
  sized := sized_delete t.sized _
  heap := heap_delete t.heap _
  count_eq := by
    rw [toList_delete t.ascending]
    have hhas := t.lookupList_root_isSome k
    cases hk : lookupList k t.root.toList with
    | none =>
      rw [eraseList_of_lookupList_none hk, ← hhas, hk]
      exact t.count_eq
    | some a =>
      have hlen := length_eraseList hk
      rw [← hhas, hk, t.count_eq]
      simp only [Option.isSome_some, if_true]
      omega
  totalSize_eq := by
    split_ifs
    · rw [t.totalSize_eq, Nat.mul_sub, Nat.mul_one]
    · exact t.totalSize_eq

/-- **`Put`** inserts into the map. -/
theorem toMap_put (v : TicketValue) : (t.put k v).toMap = t.toMap.insert k v := by
  apply OrdMap.ext_get?
  intro k'
  rw [OrdMap.get?_insert, get?_toMap, get?_toMap, get, get, get_eq (t.put k v).ascending,
    get_eq t.ascending, show (t.put k v).root = t.root.put k v v.height from rfl,
    toList_put t.ascending, lookupList_insertList]
  split_ifs
  · cases lookupList k t.root.toList <;> rfl
  · rfl

/-- **`Delete`** erases from the map. -/
theorem toMap_delete : (t.delete k).toMap = t.toMap.erase k := by
  apply OrdMap.ext_get?
  intro k'
  rw [OrdMap.get?_erase, get?_toMap, get?_toMap, get, get, get_eq (t.delete k).ascending,
    get_eq t.ascending, show (t.delete k).root = t.root.delete k from rfl,
    toList_delete t.ascending, lookupList_eraseList t.ascending]
  split_ifs <;> rfl

/-- The priority of every entry is the height of its ticket. -/
def ByHeight : Prop := ∀ a ∈ t.root.toList, a.2.1 = a.2.2.height

theorem ByHeight.delete {t : Immutable} (h : t.ByHeight) (k : Hash) : (t.delete k).ByHeight := by
  intro a ha
  rw [show (t.delete k).root = t.root.delete k from rfl, toList_delete t.ascending] at ha
  exact h a ((eraseList_sublist k _).subset ha)

/-- A ticket that is already there has to have the same height as the one it is replaced by. -/
theorem ByHeight.put {t : Immutable} (h : t.ByHeight) {k : Hash} {v : TicketValue}
    (hv : ∀ v', t.get k = some v' → v'.height = v.height) : (t.put k v).ByHeight := by
  intro a ha
  rw [show (t.put k v).root = t.root.put k v v.height from rfl, toList_put t.ascending] at ha
  rcases mem_insertList ha with rfl | ha
  · cases hk : lookupList k t.root.toList with
    | none => rfl
    | some b =>
      refine (h (k, b) (lookupList_eq_some_mem hk)).trans (hv b.2 ?_)
      rw [get, get_eq t.ascending, hk]
      rfl
  · exact h a ha

end Immutable

/-! ## The interface -/

/-- What the stake code asks of a set of tickets. -/
class TicketMap (M : Type) where
  new : M
  len : M → Nat
  get : M → Hash → Option TicketValue
  put : M → Hash → TicketValue → M
  delete : M → Hash → M
  /-- The entries of height below a bound, in ascending key order. -/
  forEachByHeight : M → Nat → List (Hash × TicketValue)
  /-- The entry at a position of the ascending key order. -/
  getByIndex : M → Nat → Option (Hash × TicketValue)

def TicketMap.has {M : Type} [TicketMap M] (t : M) (k : Hash) : Bool := (TicketMap.get t k).isSome

instance : TicketMap Immutable where
  new := Immutable.new
  len := Immutable.len
  get := Immutable.get
  put := Immutable.put
  delete := Immutable.delete
  forEachByHeight := Immutable.forEachByHeight
  getByIndex := Immutable.getByIndex

/-- The tickets a treap stands for. -/
abbrev Tickets := OrdMap Hash TicketValue

instance : TicketMap Tickets where
  new := OrdMap.empty
  len := OrdMap.size
  get := OrdMap.get?
  put := OrdMap.insert
  delete := OrdMap.erase
  forEachByHeight m h := m.toList.filter fun a => a.2.height < h
  getByIndex m i := m.toList[i]?

/-- The treap holds exactly the tickets of the map, each with its height as priority. -/
structure TreapSim (t : Immutable) (m : Tickets) : Prop where
  toMap : t.toMap = m
  byHeight : t.ByHeight

namespace TreapSim

variable {t : Immutable} {m : Tickets}

theorem new : TreapSim (TicketMap.new : Immutable) TicketMap.new :=
  ⟨rfl, by intro a ha; cases ha⟩

section

variable (h : TreapSim t m)

include h

theorem len : TicketMap.len t = TicketMap.len m := by
  obtain ⟨rfl, -⟩ := h
  exact t.size_toMap.symm

theorem get (k : Hash) : TicketMap.get t k = TicketMap.get m k := by
  obtain ⟨rfl, -⟩ := h
  exact (t.get?_toMap k).symm

theorem has (k : Hash) : TicketMap.has t k = TicketMap.has m k := by
  rw [TicketMap.has, TicketMap.has, h.get]

theorem delete (k : Hash) : TreapSim (TicketMap.delete t k) (TicketMap.delete m k) := by
  obtain ⟨rfl, hh⟩ := h
  exact ⟨t.toMap_delete k, hh.delete k⟩

theorem put {k : Hash} (hk : TicketMap.has m k = false) (v : TicketValue) :
    TreapSim (TicketMap.put t k v) (TicketMap.put m k v) := by
  rw [← h.has] at hk
  obtain ⟨rfl, hh⟩ := h
  refine ⟨t.toMap_put k v, hh.put fun v' hv' => ?_⟩
  have hsome : t.has k = true := by simp [Immutable.has, hv']
  rw [show t.has k = false from hk] at hsome
  cases hsome

theorem forEachByHeight (n : Nat) :
    TicketMap.forEachByHeight t n = TicketMap.forEachByHeight m n := by
  obtain ⟨rfl, hh⟩ := h
  show t.root.belowList n = (t.root.toList.map fun a => (a.1, a.2.2)).filter _
  rw [belowList_eq t.heap, List.filter_map]
  congr 1
  refine List.filter_congr fun a ha => ?_
  simp [hh a ha]

theorem getByIndex (i : Nat) : TicketMap.getByIndex t i = TicketMap.getByIndex m i := by
  obtain ⟨rfl, -⟩ := h
  show t.root.getByIndex i = (t.root.toList.map _)[i]?
  rw [getByIndex_eq t.sized, List.getElem?_map]

end

end TreapSim

end Fnod
