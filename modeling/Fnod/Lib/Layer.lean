import Fnod.Lib.OrdMap

/-!
# Layers of updates over a map

A layer is a set of updates that are not in the map below it yet: entries to put and keys to
delete. It can be read through (`lookup`), applied to the map (`apply`) and merged with a layer
above it (`merge`). Reading through a layer is reading the map it was applied to
(`get?_apply`), a layer may be applied twice (`apply_apply`), and merging is applying one
after the other (`apply_merge`).
-/

/-- Updates to a map: entries to put and keys to delete. A key that is in both is deleted. -/
structure Layer (K V : Type*) [LT K] where
  puts : OrdMap K V
  dels : OrdMap K Unit

namespace Layer

open List

variable {K V : Type*} [LinearOrder K]

def empty : Layer K V := ⟨.empty, .empty⟩

variable (l : Layer K V)

/-- The value of a key whose value in the map below is `below`. -/
def lookup (below : Option V) (k : K) : Option V :=
  if l.dels.contains k then none else (l.puts.get? k).or below

/-- Put the entries into a map, then delete the keys. -/
def apply (m : OrdMap K V) : OrdMap K V :=
  l.dels.keys.foldl .erase (l.puts.toList.foldl (fun m a => m.insert a.1 a.2) m)

def put (k : K) (v : V) : Layer K V := ⟨l.puts.insert k v, l.dels.erase k⟩

def delete (k : K) : Layer K V := ⟨l.puts.erase k, l.dels.insert k ()⟩

/-- The updates of a layer followed by those of `upper`, one by one. -/
def merge (upper : Layer K V) : Layer K V :=
  upper.dels.keys.foldl delete (upper.puts.toList.foldl (fun l a => l.put a.1 a.2) l)

/-- There is nothing to apply. -/
def isEmpty : Bool := l.puts.size = 0 ∧ l.dels.size = 0

variable {l upper : Layer K V} {m : OrdMap K V} {k k' : K} {v : V}

theorem contains_dels_iff : l.dels.contains k = true ↔ k ∈ l.dels.keys := by
  rw [OrdMap.contains_eq_true, OrdMap.mem_keys]

/-- **Reading through a layer.** -/
theorem get?_apply (l : Layer K V) (m : OrdMap K V) (k : K) :
    (l.apply m).get? k = l.lookup (m.get? k) k := by
  rw [apply, OrdMap.get?_foldl_erase, OrdMap.get?_foldl_insert l.puts.keys_nodup, lookup]
  simp only [contains_dels_iff]
  rfl

theorem lookup_lookup (below : Option V) : l.lookup (l.lookup below k) k = l.lookup below k := by
  simp only [lookup]
  split_ifs
  · rfl
  · cases l.puts.get? k <;> rfl

/-- A layer may be applied twice. -/
theorem apply_apply (l : Layer K V) (m : OrdMap K V) : l.apply (l.apply m) = l.apply m := by
  apply OrdMap.ext_get?
  intro k
  rw [get?_apply, get?_apply, lookup_lookup]

@[simp] theorem apply_empty (m : OrdMap K V) : empty.apply m = m := rfl

theorem eq_empty_of_isEmpty (h : l.isEmpty = true) : l = empty := by
  obtain ⟨puts, dels⟩ := l
  simp only [isEmpty, decide_eq_true_eq, OrdMap.size, length_eq_zero_iff] at h
  have hputs : puts = .empty := OrdMap.ext_toList h.1
  have hdels : dels = .empty := OrdMap.ext_toList h.2
  rw [hputs, hdels]
  rfl

theorem lookup_put (below : Option V) :
    (l.put k v).lookup below k' = if k' = k then some v else l.lookup below k' := by
  by_cases h : k' = k
  · simp [lookup, put, OrdMap.contains, h]
  · have hdels : (l.dels.erase k).contains k' = l.dels.contains k' := by
      rw [OrdMap.contains, OrdMap.get?_erase, if_neg h, OrdMap.contains]
    simp only [lookup, put, hdels, OrdMap.get?_insert, if_neg h]

theorem lookup_delete (below : Option V) :
    (l.delete k).lookup below k' = if k' = k then none else l.lookup below k' := by
  by_cases h : k' = k
  · simp [lookup, delete, OrdMap.contains, h]
  · have hdels : (l.dels.insert k ()).contains k' = l.dels.contains k' := by
      rw [OrdMap.contains, OrdMap.get?_insert, if_neg h, OrdMap.contains]
    simp only [lookup, delete, hdels, OrdMap.get?_erase, if_neg h]

theorem apply_put : (l.put k v).apply m = (l.apply m).insert k v := by
  apply OrdMap.ext_get?
  intro k'
  rw [get?_apply, lookup_put, OrdMap.get?_insert, get?_apply]

theorem apply_delete : (l.delete k).apply m = (l.apply m).erase k := by
  apply OrdMap.ext_get?
  intro k'
  rw [get?_apply, lookup_delete, OrdMap.get?_erase, get?_apply]

/-- **Merging** is applying one layer after the other. -/
theorem apply_merge (l upper : Layer K V) (m : OrdMap K V) :
    (l.merge upper).apply m = upper.apply (l.apply m) := by
  have hdels : ∀ (ks : List K) (l : Layer K V),
      (ks.foldl delete l).apply m = ks.foldl .erase (l.apply m) := by
    intro ks
    induction ks with
    | nil => exact fun _ => rfl
    | cons k ks ih =>
      intro l
      rw [foldl_cons, ih, apply_delete, foldl_cons]
  have hputs : ∀ (as : List (K × V)) (l : Layer K V),
      (as.foldl (fun l a => l.put a.1 a.2) l).apply m =
        as.foldl (fun m a => m.insert a.1 a.2) (l.apply m) := by
    intro as
    induction as with
    | nil => exact fun _ => rfl
    | cons a as ih =>
      intro l
      rw [foldl_cons, ih, apply_put, foldl_cons]
  rw [merge, hdels, hputs]
  rfl

end Layer
