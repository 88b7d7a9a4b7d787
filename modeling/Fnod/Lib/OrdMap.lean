import Mathlib.Algebra.Order.Ring.Int
import Mathlib.Data.List.Basic
import Mathlib.Tactic.Common

/-!
# Ordered finite maps

A finite map kept as the list of its entries in strictly ascending key order. The order makes
the representation canonical: two maps with the same lookups are equal (`OrdMap.ext_get?`), so
that results about maps can be stated as equations, and an enumeration in key order is part of
the map rather than a choice.

The list functions come first; the structure `OrdMap` carries the order as a field.
-/

namespace OrdMap

open List

variable {K V : Type*}

/-- The keys of the list ascend strictly. -/
abbrev Ascending [LT K] (l : List (K × V)) : Prop := l.Pairwise fun a b => a.1 < b.1

/-! ## Association lists in key order -/

section Lists

variable [LinearOrder K] {k : K}

/-- The value at the first entry for `k`. -/
def lookupList (k : K) : List (K × V) → Option V
  | [] => none
  | (k', v) :: l => if k = k' then some v else lookupList k l

/-- Insert an entry at its place, replacing the value of an entry with the same key. -/
def insertList (k : K) (v : V) : List (K × V) → List (K × V)
  | [] => [(k, v)]
  | (k', v') :: l =>
      if k < k' then (k, v) :: (k', v') :: l
      else if k' < k then (k', v') :: insertList k v l
      else (k, v) :: l

/-- Remove the entry for `k`. -/
def eraseList (k : K) : List (K × V) → List (K × V)
  | [] => []
  | (k', v) :: l => if k = k' then l else (k', v) :: eraseList k l

variable {v : V} {l : List (K × V)}

theorem lookupList_eq_some_mem (h : lookupList k l = some v) : (k, v) ∈ l := by
  induction l with
  | nil => simp [lookupList] at h
  | cons a l ih =>
    obtain ⟨k', v'⟩ := a
    rw [lookupList] at h
    split_ifs at h with hk
    · simp_all
    · exact mem_cons_of_mem _ (ih h)

theorem lookupList_of_mem (hl : Ascending l) (h : (k, v) ∈ l) : lookupList k l = some v := by
  induction l with
  | nil => simp at h
  | cons a l ih =>
    obtain ⟨k', v'⟩ := a
    have hl' := pairwise_cons.1 hl
    rcases mem_cons.1 h with h | h
    · cases h; simp [lookupList]
    · have hne : k ≠ k' := (hl'.1 _ h).ne'
      simp [lookupList, hne, ih hl'.2 h]

theorem lookupList_eq_none : lookupList k l = none ↔ ∀ v, (k, v) ∉ l := by
  induction l with
  | nil => simp [lookupList]
  | cons a l ih =>
    obtain ⟨k', v'⟩ := a
    by_cases hk : k = k'
    · subst hk
      simp only [lookupList, if_true, reduceCtorEq, false_iff, not_forall, not_not]
      exact ⟨v', mem_cons_self⟩
    · simp [lookupList, hk, ih]

/-- In an ascending list no later entry has the key of the first. -/
theorem lookupList_tail (hl : Ascending ((k, v) :: l)) : lookupList k l = none := by
  rw [lookupList_eq_none]
  intro v' h
  exact lt_irrefl k ((pairwise_cons.1 hl).1 (k, v') h)

theorem lookupList_append (k : K) (l l' : List (K × V)) :
    lookupList k (l ++ l') = (lookupList k l).or (lookupList k l') := by
  induction l with
  | nil => rfl
  | cons a l ih =>
    rw [cons_append, lookupList, lookupList, ih]
    split_ifs <;> rfl

theorem mem_insertList {a : K × V} (h : a ∈ insertList k v l) : a = (k, v) ∨ a ∈ l := by
  induction l with
  | nil => simpa [insertList] using h
  | cons b l ih =>
    obtain ⟨k', v'⟩ := b
    rw [insertList] at h
    split_ifs at h <;> grind

theorem ascending_insertList (hl : Ascending l) : Ascending (insertList k v l) := by
  induction l with
  | nil => simp [insertList, Ascending]
  | cons b l ih =>
    obtain ⟨k', v'⟩ := b
    have hl' := pairwise_cons.1 hl
    rw [insertList]
    split_ifs with h1 h2
    · refine pairwise_cons.2 ⟨fun a ha => ?_, hl⟩
      rcases mem_cons.1 ha with rfl | ha
      · exact h1
      · exact h1.trans (hl'.1 _ ha)
    · refine pairwise_cons.2 ⟨fun a ha => ?_, ih hl'.2⟩
      rcases mem_insertList ha with rfl | ha
      · exact h2
      · exact hl'.1 _ ha
    · obtain rfl : k = k' := le_antisymm (not_lt.1 h2) (not_lt.1 h1)
      exact pairwise_cons.2 hl'

theorem lookupList_insertList (k k' : K) (v : V) (l : List (K × V)) :
    lookupList k' (insertList k v l) = if k' = k then some v else lookupList k' l := by
  induction l with
  | nil => rfl
  | cons b l ih =>
    obtain ⟨k₀, v₀⟩ := b
    rw [insertList]
    split_ifs with h1 h2 h3 h3 h3 <;> simp only [lookupList] <;> grind

theorem eraseList_sublist (k : K) (l : List (K × V)) : (eraseList k l).Sublist l := by
  induction l with
  | nil => exact List.Sublist.slnil
  | cons b l ih =>
    rw [eraseList]
    split_ifs
    · exact sublist_cons_self _ _
    · exact ih.cons_cons _

theorem ascending_eraseList (hl : Ascending l) : Ascending (eraseList k l) :=
  hl.sublist (eraseList_sublist k l)

theorem lookupList_eraseList (hl : Ascending l) (k' : K) :
    lookupList k' (eraseList k l) = if k' = k then none else lookupList k' l := by
  induction l with
  | nil => simp [eraseList, lookupList]
  | cons b l ih =>
    obtain ⟨k₀, v₀⟩ := b
    have htl := lookupList_tail hl
    rw [eraseList]
    by_cases h : k = k₀
    · subst h
      by_cases h' : k' = k
      · subst h'; simp [htl]
      · simp [lookupList, h']
    · rw [if_neg h, lookupList, ih (pairwise_cons.1 hl).2, lookupList]
      grind

/-- An ascending list is determined by its lookups. -/
theorem ext_lookupList {l' : List (K × V)} (hl : Ascending l) (hl' : Ascending l')
    (h : ∀ k, lookupList k l = lookupList k l') : l = l' := by
  have hmem : ∀ a, a ∈ l ↔ a ∈ l' := by
    rintro ⟨k, v⟩
    constructor
    · intro ha
      exact lookupList_eq_some_mem ((h k).symm.trans (lookupList_of_mem hl ha))
    · intro ha
      exact lookupList_eq_some_mem ((h k).trans (lookupList_of_mem hl' ha))
  have hasymm : ∀ a b, a ∈ l → b ∈ l' → a.1 < b.1 → b.1 < a.1 → a = b :=
    fun _ _ _ _ hab hba => absurd hab (lt_asymm hba)
  refine List.Perm.eq_of_pairwise hasymm hl hl' ?_
  · have hnd : ∀ {m : List (K × V)}, Ascending m → m.Nodup := fun hm =>
      hm.imp fun hab he => absurd (congrArg Prod.fst he) hab.ne
    exact (perm_ext_iff_of_nodup (hnd hl) (hnd hl')).2 hmem

theorem length_insertList (v : V) (h : lookupList k l = none) :
    (insertList k v l).length = l.length + 1 := by
  induction l with
  | nil => rfl
  | cons b l ih =>
    obtain ⟨k₀, v₀⟩ := b
    rw [insertList]
    rw [lookupList] at h
    split_ifs at h with hk
    split_ifs with h1 h2
    · simp
    · simp [ih h]
    · exact absurd (le_antisymm (not_lt.1 h2) (not_lt.1 h1)) hk

theorem length_insertList_of_some {v' : V} (v : V) (hl : Ascending l)
    (h : lookupList k l = some v') : (insertList k v l).length = l.length := by
  induction l with
  | nil => simp [lookupList] at h
  | cons b l ih =>
    obtain ⟨k₀, v₀⟩ := b
    have hl' := pairwise_cons.1 hl
    rw [lookupList] at h
    rw [insertList]
    split_ifs at h with hk
    · simp [hk]
    · have hlt : k₀ < k := hl'.1 _ (lookupList_eq_some_mem h)
      simp [hlt, hlt.not_gt, ih hl'.2 h]

theorem lookupList_map {W : Type*} (f : V → W) (k : K) (l : List (K × V)) :
    lookupList k (l.map fun a => (a.1, f a.2)) = (lookupList k l).map f := by
  induction l with
  | nil => rfl
  | cons a l ih =>
    simp only [map_cons, lookupList]
    split_ifs
    · rfl
    · exact ih

theorem length_eraseList (h : lookupList k l = some v) : (eraseList k l).length + 1 = l.length := by
  induction l with
  | nil => simp [lookupList] at h
  | cons b l ih =>
    obtain ⟨k₀, v₀⟩ := b
    rw [eraseList]
    rw [lookupList] at h
    split_ifs at h ⊢ with hk
    · simp
    · simp [ih h]

/-! Each operation acts at the place where the list splits at the key. -/

section Split

variable {k : K} {B A : List (K × V)}

theorem insertList_append (v : V) (hB : ∀ a ∈ B, a.1 < k) (hA : ∀ a ∈ A, k < a.1) :
    insertList k v (B ++ A) = B ++ (k, v) :: A := by
  induction B with
  | nil =>
    cases A with
    | nil => rfl
    | cons a A => simp [insertList, hA a mem_cons_self]
  | cons b B ih =>
    obtain ⟨hb, hB⟩ := forall_mem_cons.1 hB
    simp [insertList, hb, hb.not_gt, ih hB]

theorem insertList_replace (v v' : V) (hB : ∀ a ∈ B, a.1 < k) :
    insertList k v (B ++ (k, v') :: A) = B ++ (k, v) :: A := by
  induction B with
  | nil => simp [insertList]
  | cons b B ih =>
    obtain ⟨hb, hB⟩ := forall_mem_cons.1 hB
    simp [insertList, hb, hb.not_gt, ih hB]

theorem eraseList_append (v : V) (hB : ∀ a ∈ B, a.1 < k) :
    eraseList k (B ++ (k, v) :: A) = B ++ A := by
  induction B with
  | nil => simp [eraseList]
  | cons b B ih =>
    obtain ⟨hb, hB⟩ := forall_mem_cons.1 hB
    simp [eraseList, hb.ne', ih hB]

theorem lookupList_append_left (hA : ∀ a ∈ A, k < a.1) :
    lookupList k (B ++ A) = lookupList k B := by
  induction B with
  | nil =>
    refine lookupList_eq_none.2 fun v h => lt_irrefl k (hA _ h)
  | cons b B ih => simp [lookupList, ih]

theorem lookupList_append_right (hB : ∀ a ∈ B, a.1 < k) :
    lookupList k (B ++ A) = lookupList k A := by
  induction B with
  | nil => rfl
  | cons b B ih =>
    have hb := hB b mem_cons_self
    simp [lookupList, hb.ne', ih (forall_mem_cons.1 hB).2]

theorem eraseList_of_lookupList_none (h : lookupList k l = none) : eraseList k l = l := by
  induction l with
  | nil => rfl
  | cons b l ih =>
    rw [lookupList] at h
    split_ifs at h with hk
    rw [eraseList, if_neg hk, ih h]

end Split

end Lists

end OrdMap

/-! ## The structure -/

/-- A finite map: its entries in ascending key order. -/
structure OrdMap (K V : Type*) [LT K] where
  /-- The entries. -/
  toList : List (K × V)
  ascending : OrdMap.Ascending toList

namespace OrdMap

variable {K V : Type*} [LinearOrder K] {m' : OrdMap K V} {v : V}

instance [DecidableEq V] : DecidableEq (OrdMap K V) := fun a b =>
  decidable_of_iff (a.toList = b.toList) (by cases a; cases b; simp)

def empty : OrdMap K V := ⟨[], List.Pairwise.nil⟩

variable (m : OrdMap K V) (k : K)

def get? : Option V := lookupList k m.toList

def contains : Bool := (m.get? k).isSome

def insert (v : V) : OrdMap K V :=
  ⟨insertList k v m.toList, ascending_insertList m.ascending⟩

def erase : OrdMap K V :=
  ⟨eraseList k m.toList, ascending_eraseList m.ascending⟩

def size : Nat := m.toList.length

def keys : List K := m.toList.map Prod.fst

variable {m : OrdMap K V}

theorem ext_toList (h : m.toList = m'.toList) : m = m' := by
  cases m; cases m'; simpa using h

/-- **Extensionality.** A map is its lookup function. -/
theorem ext_get? (h : ∀ k, m.get? k = m'.get? k) : m = m' :=
  ext_toList (ext_lookupList m.ascending m'.ascending h)

@[simp] theorem get?_empty (k : K) : (empty : OrdMap K V).get? k = none := rfl

theorem get?_insert (m : OrdMap K V) (k k' : K) (v : V) :
    (m.insert k v).get? k' = if k' = k then some v else m.get? k' :=
  lookupList_insertList k k' v m.toList

theorem get?_erase (m : OrdMap K V) (k k' : K) :
    (m.erase k).get? k' = if k' = k then none else m.get? k' :=
  lookupList_eraseList m.ascending k'

@[simp] theorem get?_insert_self (m : OrdMap K V) (k : K) (v : V) :
    (m.insert k v).get? k = some v := by
  rw [get?_insert, if_pos rfl]

@[simp] theorem get?_erase_self (m : OrdMap K V) (k : K) : (m.erase k).get? k = none := by
  rw [get?_erase, if_pos rfl]

theorem mem_toList {k : K} : (k, v) ∈ m.toList ↔ m.get? k = some v :=
  ⟨lookupList_of_mem m.ascending, lookupList_eq_some_mem⟩

theorem contains_eq_true {k : K} : m.contains k = true ↔ ∃ v, m.get? k = some v := by
  simp [contains, Option.isSome_iff_exists]

theorem contains_eq_false {k : K} : m.contains k = false ↔ m.get? k = none := by
  simp [contains]

theorem size_insert {k : K} (v : V) (h : m.get? k = none) : (m.insert k v).size = m.size + 1 :=
  length_insertList v h

theorem size_erase {k : K} (h : m.get? k = some v) : (m.erase k).size + 1 = m.size :=
  length_eraseList h

theorem keys_nodup (m : OrdMap K V) : m.keys.Nodup := by
  have h : m.keys.Pairwise (· < ·) := List.pairwise_map.2 m.ascending
  exact h.imp fun hab => hab.ne

theorem mem_keys {k : K} : k ∈ m.keys ↔ ∃ v, m.get? k = some v := by
  simp [keys, ← mem_toList]

/-- Entries with distinct keys, inserted one after the other. -/
theorem get?_foldl_insert {l : List (K × V)} (hl : (l.map Prod.fst).Nodup) (m : OrdMap K V)
    (k : K) :
    (l.foldl (fun m a => m.insert a.1 a.2) m).get? k = (lookupList k l).or (m.get? k) := by
  induction l generalizing m with
  | nil => rfl
  | cons a l ih =>
    obtain ⟨hnot, hl⟩ := List.nodup_cons.1 hl
    rw [List.foldl_cons, ih hl, get?_insert, lookupList]
    split_ifs with hk
    · have hnone : lookupList k l = none := lookupList_eq_none.2 fun v hv =>
        hnot (hk ▸ List.mem_map_of_mem hv)
      rw [hnone]
      rfl
    · rfl

/-- Entries that are inserted one after the other: the last one for a key counts. -/
theorem get?_foldl_insert_last (l : List (K × V)) (m : OrdMap K V) (k : K) :
    (l.foldl (fun m a => m.insert a.1 a.2) m).get? k = (lookupList k l.reverse).or (m.get? k) := by
  induction l generalizing m with
  | nil => rfl
  | cons a l ih =>
    rw [List.foldl_cons, ih, get?_insert, List.reverse_cons, lookupList_append, Option.or_assoc]
    simp only [lookupList]
    split_ifs <;> rfl

theorem get?_foldl_erase (ks : List K) (m : OrdMap K V) (k : K) :
    (ks.foldl erase m).get? k = if k ∈ ks then none else m.get? k := by
  induction ks generalizing m with
  | nil => simp
  | cons k' ks ih =>
    rw [List.foldl_cons, ih, get?_erase]
    simp only [List.mem_cons]
    split_ifs <;> simp_all

theorem foldl_insert_toList (m : OrdMap K V) :
    m.toList.foldl (fun m a => m.insert a.1 a.2) empty = m := by
  apply ext_get?
  intro k
  rw [get?_foldl_insert m.keys_nodup, get?_empty, Option.or_none]
  rfl

/-- The map with keys and values renamed, if the renaming keeps the order of the keys. -/
def mapEntries {K' V' : Type*} [LinearOrder K'] (f : K → K') (g : V → V')
    (hf : ∀ a b, a < b → f a < f b) (m : OrdMap K V) : OrdMap K' V' where
  toList := m.toList.map fun a => (f a.1, g a.2)
  ascending := List.pairwise_map.2 (m.ascending.imp fun h => hf _ _ h)

section MapEntries

variable {K' V' : Type*} [LinearOrder K'] {f : K → K'} {g : V → V'} (hf : ∀ a b, a < b → f a < f b)

include hf in
theorem injective_of_increasing : Function.Injective f :=
  StrictMono.injective fun a b hab => hf a b hab

theorem get?_mapEntries (m : OrdMap K V) (k : K) :
    (m.mapEntries f g hf).get? (f k) = (m.get? k).map g := by
  cases hk : m.get? k with
  | some v =>
    exact mem_toList.1 (List.mem_map_of_mem (f := fun a => (f a.1, g a.2)) (mem_toList.2 hk))
  | none =>
    refine lookupList_eq_none.2 fun v hv => ?_
    obtain ⟨a, ha, he⟩ := List.mem_map.1 hv
    obtain rfl := injective_of_increasing hf (Prod.mk.inj he).1
    rw [mem_toList.1 ha] at hk
    cases hk

theorem get?_mapEntries_of_ne (m : OrdMap K V) {k' : K'} (h : ∀ k, k' ≠ f k) :
    (m.mapEntries f g hf).get? k' = none := by
  refine lookupList_eq_none.2 fun v hv => ?_
  obtain ⟨a, -, he⟩ := List.mem_map.1 hv
  exact h a.1 (Prod.mk.inj he).1.symm

theorem mapEntries_eq {m : OrdMap K V} {m' : OrdMap K' V'}
    (h : ∀ a, (m.get? a).map g = m'.get? (f a)) (hne : ∀ k', (∀ a, k' ≠ f a) → m'.get? k' = none) :
    m.mapEntries f g hf = m' := by
  apply ext_get?
  intro k'
  by_cases hk : ∃ a, k' = f a
  · obtain ⟨a, rfl⟩ := hk
    rw [get?_mapEntries, h]
  · have hk' : ∀ a, k' ≠ f a := fun a he => hk ⟨a, he⟩
    rw [get?_mapEntries_of_ne hf _ hk', hne k' hk']

theorem mapEntries_insert (m : OrdMap K V) (k : K) (v : V) :
    (m.insert k v).mapEntries f g hf = (m.mapEntries f g hf).insert (f k) (g v) := by
  refine mapEntries_eq hf (fun a => ?_) fun k' hk' => ?_
  · simp [get?_insert, get?_mapEntries, (injective_of_increasing hf).eq_iff,
      apply_ite (Option.map g)]
  · rw [get?_insert, if_neg (hk' k), get?_mapEntries_of_ne hf _ hk']

theorem mapEntries_erase (m : OrdMap K V) (k : K) :
    (m.erase k).mapEntries f g hf = (m.mapEntries f g hf).erase (f k) := by
  refine mapEntries_eq hf (fun a => ?_) fun k' hk' => ?_
  · simp [get?_erase, get?_mapEntries, (injective_of_increasing hf).eq_iff,
      apply_ite (Option.map g)]
  · rw [get?_erase, if_neg (hk' k), get?_mapEntries_of_ne hf _ hk']

end MapEntries

end OrdMap
