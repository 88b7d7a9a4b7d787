import Mathlib.Algebra.Order.Ring.Int
import Mathlib.Data.List.Induction
import Mathlib.Tactic.Common

/-!
# Programs that may not return

A program in `Option` returns a value or does not return. `Returns x P` says that `x` returns, and a
value with property `P`; `Ensures x P` says the second half only. The rules follow the program:
sequencing (`bind`), branching (`ite`) and loops (`foldlM`), where the invariant of a loop may
speak of the items that are done.
-/

universe u v

variable {α β σ : Type u} {ι : Type v} {P : α → Prop} {Q : β → Prop} {x : Option α}

/-- The program returns a value with the property. -/
def Returns (x : Option α) (P : α → Prop) : Prop := ∃ a, x = some a ∧ P a

/-- If the program returns, its value has the property. -/
def Ensures (x : Option α) (P : α → Prop) : Prop := ∀ a, x = some a → P a

theorem returns_some {a : α} (h : P a) : Returns (some a) P := ⟨a, rfl, h⟩

theorem ensures_some {a : α} (h : P a) : Ensures (some a) P := by
  rintro _ ⟨⟩
  exact h

theorem ensures_none : Ensures (none : Option α) P := nofun

namespace Returns

theorem ensures (h : Returns x P) : Ensures x P := by
  rintro a rfl
  obtain ⟨_, ⟨⟩, ha⟩ := h
  exact ha

theorem imp {P' : α → Prop} (h : Returns x P) (himp : ∀ a, P a → P' a) : Returns x P' := by
  obtain ⟨a, hx, ha⟩ := h
  exact ⟨a, hx, himp a ha⟩

theorem bind {f : α → Option β} (h : Returns x P)
    (hf : ∀ a, P a → Returns (f a) Q) : Returns (x >>= f) Q := by
  obtain ⟨a, rfl, ha⟩ := h
  exact hf a ha

theorem map {f : α → β} (h : Returns x P) (hf : ∀ a, P a → Q (f a)) : Returns (x.map f) Q := by
  obtain ⟨a, rfl, ha⟩ := h
  exact ⟨f a, rfl, hf a ha⟩

theorem ite {c : Prop} [Decidable c] {y : Option α} (hx : c → Returns x P)
    (hy : ¬c → Returns y P) : Returns (if c then x else y) P := by
  split_ifs with hc
  · exact hx hc
  · exact hy hc

/-- A loop with an invariant that speaks of the items that are done. -/
theorem foldlM {f : σ → ι → Option σ} {l : List ι} {s : σ} {I : List ι → σ → Prop} (h : I [] s)
    (hstep : ∀ done i s, i ∈ l → I done s → Returns (f s i) (I (done ++ [i]))) :
    Returns (l.foldlM f s) (I l) := by
  induction l using List.reverseRecOn with
  | nil => exact returns_some h
  | append_singleton l i ih =>
    rw [List.foldlM_append]
    refine (ih fun done j s hj => hstep done j s (List.mem_append_left _ hj)).bind fun s' hs' => ?_
    simpa using hstep l i s' (by simp) hs'

end Returns

namespace Ensures

variable {f : σ → ι → Option σ} {l : List ι} {s : σ}

theorem bind {f : α → Option β} (h : Ensures x P)
    (hf : ∀ a, P a → Ensures (f a) Q) : Ensures (x >>= f) Q := by
  cases x with
  | none => exact ensures_none
  | some a => exact hf a (h a rfl)

theorem map {f : α → β} (h : Ensures x P) (hf : ∀ a, P a → Q (f a)) : Ensures (x.map f) Q := by
  cases x with
  | none => exact ensures_none
  | some a => exact ensures_some (hf a (h a rfl))

/-- A loop with an invariant that speaks of the items that are done. -/
theorem foldlM_done {I : List ι → σ → Prop} (h : I [] s)
    (hstep : ∀ done i s, i ∈ l → I done s → Ensures (f s i) (I (done ++ [i]))) :
    Ensures (l.foldlM f s) (I l) := by
  induction l using List.reverseRecOn with
  | nil => exact ensures_some h
  | append_singleton l i ih =>
    rw [List.foldlM_append]
    refine (ih fun done j s hj => hstep done j s (List.mem_append_left _ hj)).bind fun s' hs' => ?_
    simpa using hstep l i s' (by simp) hs'

theorem foldlM {I : σ → Prop} (h : I s)
    (hstep : ∀ i s, i ∈ l → I s → Ensures (f s i) I) : Ensures (l.foldlM f s) I :=
  foldlM_done (I := fun _ => I) h fun _ i s hi hs => hstep i s hi hs

end Ensures
