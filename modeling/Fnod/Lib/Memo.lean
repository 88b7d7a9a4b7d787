import Mathlib.Tactic.Common

/-!
# Queries with memo tables

A query reads and fills tables that later queries use. It **answers** a value if it gives this value
from all sound tables, and leaves them sound. Then tables change how long a query takes and nothing
else. The rules follow the structure of a program: a query that answers a value may be replaced by
it.
-/

namespace Memo

variable {σ α β ε : Type} {look : σ → Option α} {keep : α → σ → σ}

/-- The query gives the value from all sound states, and leaves a sound state. -/
def Answers (Sound : σ → Prop) (q : σ → α × σ) (v : α) : Prop :=
  ∀ s, Sound s → (q s).1 = v ∧ Sound (q s).2

/-- Look up a value, or compute and keep it. -/
def memo (look : σ → Option α) (keep : α → σ → σ) (compute : σ → α × σ) (s : σ) : α × σ :=
  match look s with
  | some a => (a, s)
  | none => ((compute s).1, keep (compute s).1 (compute s).2)

/-- Look up a value, or compute it and keep it unless there is an error. -/
def memoOk (look : σ → Option α) (keep : α → σ → σ) (compute : σ → Except ε α × σ) (s : σ) :
    Except ε α × σ :=
  match look s with
  | some a => (.ok a, s)
  | none =>
    match compute s with
    | (.ok a, s') => (.ok a, keep a s')
    | (.error e, s') => (.error e, s')

/-- One query after another. -/
def andThen (q : σ → α × σ) (k : α → σ → β × σ) (s : σ) : β × σ := k (q s).1 (q s).2

variable {Sound : σ → Prop} {q : σ → α × σ} {v : α}

theorem Answers.pure (v : α) : Answers Sound (fun s => (v, s)) v := fun _ hs => ⟨rfl, hs⟩

theorem Answers.andThen {k : α → σ → β × σ} {w : β} (hq : Answers Sound q v)
    (hk : Answers Sound (k v) w) : Answers Sound (andThen q k) w := fun s hs => by
  obtain ⟨hv, hs'⟩ := hq s hs
  unfold Memo.andThen
  rw [hv]
  exact hk _ hs'

/-- **The rule for tables**: entries are right, and the right entry may be kept. -/
theorem Answers.memo {compute : σ → α × σ} (hlook : ∀ s, Sound s → ∀ a, look s = some a → a = v)
    (hkeep : ∀ s, Sound s → Sound (keep v s)) (hcompute : Answers Sound compute v) :
    Answers Sound (memo look keep compute) v := fun s hs => by
  unfold Memo.memo
  cases h : look s with
  | some a => exact ⟨hlook s hs a h, hs⟩
  | none =>
    obtain ⟨hv, hs'⟩ := hcompute s hs
    refine ⟨hv, ?_⟩
    rw [hv]
    exact hkeep _ hs'

theorem Answers.memoOk {compute : σ → Except ε α × σ}
    {v : Except ε α} (hlook : ∀ s, Sound s → ∀ a, look s = some a → .ok a = v)
    (hkeep : ∀ s, Sound s → ∀ a, v = .ok a → Sound (keep a s))
    (hcompute : Answers Sound compute v) :
    Answers Sound (memoOk look keep compute) v := fun s hs => by
  unfold Memo.memoOk
  cases h : look s with
  | some a => exact ⟨hlook s hs a h, hs⟩
  | none =>
    obtain ⟨hv, hs'⟩ := hcompute s hs
    rcases hc : compute s with ⟨e | a, s'⟩
    · rw [hc] at hv hs'
      exact ⟨hv, hs'⟩
    · rw [hc] at hv hs'
      exact ⟨hv, hkeep s' hs' a hv.symm⟩

/-- The states that queries lead to. -/
inductive Reached (start : σ) (Query : (σ → σ) → Prop) : σ → Prop
  | start : Reached start Query start
  | query {s : σ} {q : σ → σ} : Reached start Query s → Query q → Reached start Query (q s)

theorem Reached.sound {start : σ} {Query : (σ → σ) → Prop} {s : σ} (h : Reached start Query s)
    (hstart : Sound start) (hquery : ∀ q, Query q → ∀ s, Sound s → Sound (q s)) : Sound s := by
  induction h with
  | start => exact hstart
  | query _ hq ih => exact hquery _ hq _ ih

end Memo
