import Mathlib.Data.List.Forall2
import Mathlib.Data.List.NodupEquivFin

/-!
# Matchings that keep the order

`List.SublistForall₂ r xs ys` says that all of `xs` can be related to elements of `ys` in the order
in which they stand. The rules here are those of a greedy search: an element of `xs` may always be
given the first element of `ys` that it is related to.
-/

namespace Matching

open List

variable {α β : Type*} {r : α → β → Prop} {x : α} {y : β} {xs : List α} {ys : List β}

theorem length_le (h : SublistForall₂ r xs ys) : xs.length ≤ ys.length := by
  induction h with
  | nil => exact Nat.zero_le _
  | cons _ _ ih => exact Nat.succ_le_succ ih
  | cons_right _ ih => exact Nat.le_succ_of_le ih

theorem tail_left (h : SublistForall₂ r (x :: xs) ys) : SublistForall₂ r xs ys := by
  obtain ⟨zs, hzs, hsub⟩ := sublistForall₂_iff.1 h
  cases hzs with
  | cons _ hzs => exact sublistForall₂_iff.2 ⟨_, hzs, (sublist_cons_self _ _).trans hsub⟩

/-- The first element that fits may be taken. -/
theorem cons_iff_of_rel (h : r x y) :
    SublistForall₂ r (x :: xs) (y :: ys) ↔ SublistForall₂ r xs ys := by
  constructor
  · intro hm
    cases hm with
    | cons _ hm => exact hm
    | cons_right hm => exact tail_left hm
  · intro hm
    exact .cons h hm

theorem cons_iff_of_not_rel (h : ¬ r x y) :
    SublistForall₂ r (x :: xs) (y :: ys) ↔ SublistForall₂ r (x :: xs) ys := by
  constructor
  · intro hm
    cases hm with
    | cons hr _ => exact absurd hr h
    | cons_right hm => exact hm
  · intro hm
    exact .cons_right hm

theorem exists_rel_of_cons (h : SublistForall₂ r (x :: xs) ys) : ∃ y ∈ ys, r x y := by
  obtain ⟨zs, hzs, hsub⟩ := sublistForall₂_iff.1 h
  cases hzs with
  | cons hr _ => exact ⟨_, hsub.subset (mem_cons_self ..), hr⟩

theorem reverse_iff : SublistForall₂ r xs.reverse ys.reverse ↔ SublistForall₂ r xs ys := by
  have himp : ∀ {xs ys}, SublistForall₂ r xs ys → SublistForall₂ r xs.reverse ys.reverse := by
    intro xs ys h
    obtain ⟨zs, hzs, hsub⟩ := sublistForall₂_iff.1 h
    exact sublistForall₂_iff.2 ⟨zs.reverse, rel_reverse hzs, reverse_sublist.2 hsub⟩
  refine ⟨fun h => ?_, himp⟩
  have := himp h
  rwa [reverse_reverse, reverse_reverse] at this

/-- A matching is a strictly monotone assignment of positions. -/
theorem iff_exists_strictMono : SublistForall₂ r xs ys ↔
      ∃ f : Fin xs.length → Fin ys.length, StrictMono f ∧ ∀ i, r (xs.get i) (ys.get (f i)) := by
  rw [sublistForall₂_iff]
  constructor
  · rintro ⟨zs, hzs, hsub⟩
    obtain ⟨f, hf⟩ := sublist_iff_exists_fin_orderEmbedding_get_eq.1 hsub
    have hlen := hzs.length_eq
    refine ⟨fun i => f (i.cast hlen), fun i j hij => f.strictMono hij, fun i => ?_⟩
    rw [← hf]
    exact hzs.get i.2 (hlen ▸ i.2)
  · rintro ⟨f, hmono, hf⟩
    refine ⟨ofFn fun i => ys.get (f i), ?_, ?_⟩
    · rw [forall₂_iff_get]
      refine ⟨(length_ofFn).symm, fun i hi hi' => ?_⟩
      rw [get_ofFn]
      exact hf ⟨i, hi⟩
    · refine sublist_iff_exists_fin_orderEmbedding_get_eq.2
        ⟨OrderEmbedding.ofStrictMono (fun i => f (i.cast length_ofFn)) fun i j hij => hmono hij, ?_⟩
      intro i
      rw [get_ofFn]
      rfl

theorem forall₂_set {k : Nat} (h : Forall₂ r xs ys) (hx : xs[k]? = some x) (hxy : r x y) :
    Forall₂ r xs (ys.set k y) := by
  induction h generalizing k with
  | nil => cases hx
  | cons hr hrest ih =>
    cases k with
    | zero =>
      cases hx
      exact .cons hxy hrest
    | succ k => exact .cons hr (ih hx)

end Matching
