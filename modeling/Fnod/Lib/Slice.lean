import Fnod.Lib.Sim

/-!
# Slices with checked bounds

Programs that index slices stop in one of two ways: they return an error, or an index is out of
range and they panic. `Fault` tells the two apart; `Slice.get`, `Slice.slice` and `Slice.set` are
the accesses, `Safe` says of a program that it does not panic, and `Safely` that it does not panic
and returns only values with a property. The rules for `Safely` follow the program: sequencing
(`Safely.bind`), branching (`Safely.ite`) and loops (`Safely.forM`, `Safely.foldlM`).
-/

universe u v w

variable {ε : Type u} {α β : Type v} {xs : List α} {i : Nat}

/-- Why a program stopped. -/
inductive Fault (ε : Type u) where
  /-- An index is out of range, or a loop is cut off. -/
  | panic
  | err (e : ε)
deriving DecidableEq

namespace Slice

/-- `xs[i]`. -/
def get (xs : List α) (i : Nat) : Except (Fault ε) α :=
  match xs[i]? with
  | some a => .ok a
  | none => .error .panic

/-- `xs[a:b]`. -/
def slice (xs : List α) (a b : Nat) : Except (Fault ε) (List α) :=
  if a ≤ b ∧ b ≤ xs.length then .ok ((xs.take b).drop a) else .error .panic

/-- `xs[a:]`. -/
def sliceFrom (xs : List α) (a : Nat) : Except (Fault ε) (List α) :=
  if a ≤ xs.length then .ok (xs.drop a) else .error .panic

/-- `xs[i] = a`. -/
def set (xs : List α) (i : Nat) (a : α) : Except (Fault ε) (List α) :=
  if i < xs.length then .ok (xs.set i a) else .error .panic

theorem get_eq {a : α} (h : xs[i]? = some a) : (get xs i : Except (Fault ε) α) = .ok a := by
  rw [get, h]

theorem get_eq_ok {a : α} : (get xs i : Except (Fault ε) α) = .ok a ↔ xs[i]? = some a := by
  unfold get
  cases xs[i]? <;> simp

theorem get_eq_panic (h : xs.length ≤ i) : (get xs i : Except (Fault ε) α) = .error .panic := by
  rw [get, List.getElem?_eq_none h]

theorem slice_eq {xs : List α} {a b : Nat} (h : a ≤ b) (hb : b ≤ xs.length) :
    (slice xs a b : Except (Fault ε) (List α)) = .ok ((xs.take b).drop a) := if_pos ⟨h, hb⟩

theorem sliceFrom_eq {a : Nat} (h : a ≤ xs.length) :
    (sliceFrom xs a : Except (Fault ε) (List α)) = .ok (xs.drop a) := if_pos h

theorem set_eq (h : i < xs.length) (a : α) :
    (set xs i a : Except (Fault ε) (List α)) = .ok (xs.set i a) := if_pos h

end Slice

/-- Whether a check returns no error. -/
def passes {δ : Type w} (x : Except (Fault ε) PUnit) : Except (Fault δ) Bool :=
  match x with
  | .ok _ => .ok true
  | .error (.err _) => .ok false
  | .error .panic => .error .panic

/-- The program does not panic. -/
def Safe (x : Except (Fault ε) α) : Prop := x ≠ .error .panic

/-- The program does not panic, and a value that it returns has the property. -/
def Safely (P : α → Prop) : Except (Fault ε) α → Prop
  | .ok a => P a
  | .error .panic => False
  | .error (.err _) => True

namespace Safely

open Except

variable {P Q : α → Prop} {R : β → Prop} {a : α}

theorem ok (h : P a) : Safely P (.ok a : Except (Fault ε) α) := h

theorem err (e : ε) : Safely P (.error (.err e) : Except (Fault ε) α) := trivial

variable {x : Except (Fault ε) α}

theorem safe (h : Safely P x) : Safe x := by
  rintro rfl
  exact h

theorem of_eq_ok (h : Safely P x) (ha : x = .ok a) : P a := by
  subst ha
  exact h

theorem mono (h : Safely P x) (hPQ : ∀ a, P a → Q a) : Safely Q x := by
  match x, h with
  | .ok a, h => exact hPQ a h
  | .error (.err _), _ => trivial

theorem bind {f : α → Except (Fault ε) β} (hx : Safely P x)
    (hf : ∀ a, P a → Safely R (f a)) : Safely R (x >>= f) := by
  match x, hx with
  | .ok a, hx => exact hf a hx
  | .error (.err _), _ => trivial

theorem ite {c : Prop} [Decidable c] {y : Except (Fault ε) α} (hx : c → Safely P x)
    (hy : ¬ c → Safely P y) : Safely P (if c then x else y) := by
  split_ifs with h
  · exact hx h
  · exact hy h

theorem get (h : i < xs.length) :
    Safely (fun a => xs[i]? = some a) (Slice.get xs i : Except (Fault ε) α) := by
  rw [Slice.get_eq (List.getElem?_eq_getElem h)]
  exact List.getElem?_eq_getElem h

theorem slice {a b : Nat} (h : a ≤ b) (hb : b ≤ xs.length) :
    Safely (fun ys => ys.length = b - a) (Slice.slice xs a b : Except (Fault ε) (List α)) := by
  rw [Slice.slice_eq h hb]
  exact ok (by rw [List.length_drop, List.length_take, Nat.min_eq_left hb])

theorem sliceFrom {a : Nat} (h : a ≤ xs.length) : Safely (fun ys => ys.length = xs.length - a)
      (Slice.sliceFrom xs a : Except (Fault ε) (List α)) := by
  rw [Slice.sliceFrom_eq h]
  exact ok List.length_drop

theorem set (h : i < xs.length) (a : α) :
    Safely (fun ys => ys.length = xs.length) (Slice.set xs i a : Except (Fault ε) (List α)) := by
  rw [Slice.set_eq h]
  exact ok List.length_set

theorem foldlM {γ : Type w} {f : α → γ → Except (Fault ε) α} {l : List γ}
    (hstep : ∀ a c, c ∈ l → P a → Safely P (f a c)) (ha : P a) : Safely P (l.foldlM f a) := by
  induction l generalizing a with
  | nil => exact ok ha
  | cons c l ih =>
    exact (hstep a c List.mem_cons_self ha).bind fun a' ha' =>
      ih (fun a c hc => hstep a c (List.mem_cons_of_mem _ hc)) ha'

theorem passes {δ : Type w} {P : PUnit → Prop} {x : Except (Fault ε) PUnit} (h : Safely P x) :
    Safely (fun b => b = true → P ⟨⟩) (passes x : Except (Fault δ) Bool) := by
  match x, h with
  | .ok _, h => exact fun _ => h
  | .error (.err _), _ => exact nofun

end Safely

namespace Except

theorem passes_eq_ok_true {δ : Type w} {x : Except (Fault ε) PUnit} :
    (passes x : Except (Fault δ) Bool) = .ok true ↔ x = .ok ⟨⟩ := by
  unfold passes
  split <;> simp

theorem forM_cons {γ : Type w} (f : γ → Except ε PUnit) (c : γ) (l : List γ) :
    (c :: l).forM f = f c >>= fun _ => l.forM f := rfl

theorem forM_eq_ok {γ : Type w} {f : γ → Except ε PUnit} {l : List γ} :
    l.forM f = .ok ⟨⟩ ↔ ∀ c ∈ l, f c = .ok ⟨⟩ := by
  induction l with
  | nil => simp [List.forM]
  | cons c l ih =>
    rw [forM_cons, bind_eq_ok, List.forall_mem_cons, ← ih]
    exact ⟨fun ⟨_, h⟩ => h, fun h => ⟨_, h⟩⟩

end Except

/-- A loop of checks, each of which establishes something. -/
theorem Safely.forM {γ : Type w} {f : γ → Except (Fault ε) PUnit} {l : List γ} {P : γ → Prop}
    (h : ∀ c ∈ l, Safely (fun _ => P c) (f c)) : Safely (fun _ => ∀ c ∈ l, P c) (l.forM f) := by
  induction l with
  | nil => exact Safely.ok nofun
  | cons c l ih =>
    rw [Except.forM_cons]
    refine (h c List.mem_cons_self).bind fun _ hc => ?_
    refine (ih (List.forall_mem_cons.1 h).2).mono fun _ hl => ?_
    exact List.forall_mem_cons.2 ⟨hc, hl⟩
