import Mathlib.Algebra.Order.Ring.Int
import Mathlib.Data.List.Basic
import Mathlib.Data.List.Forall2
import Mathlib.Tactic.Common

/-!
# Fallible programs: inversion, invariants, simulation

Rules for programs in `Except ε`, the shape that error-returning code takes.

* `Except.bind_eq_ok`, `Except.foldlM_cons_eq_ok` — a run that succeeds, taken apart.
* `Except.Sim` — two programs that fail alike and succeed in related results, with the rules for
  sequencing (`Sim.bind`), loops (`Sim.foldlM`) and branching (`Sim.ite`).
-/

namespace List

variable {α β : Type*} {R : α → β → Prop} {l : List α} {l' : List β} {a : α}

theorem Forall₂.exists_left (h : Forall₂ R l l') {b : β} (hb : b ∈ l') : ∃ a ∈ l, R a b := by
  induction h with
  | nil => cases hb
  | cons hab _ ih =>
    rcases mem_cons.1 hb with rfl | hb
    · exact ⟨_, mem_cons_self, hab⟩
    · obtain ⟨a, ha, h⟩ := ih hb
      exact ⟨a, mem_cons_of_mem _ ha, h⟩

theorem Forall₂.exists_right (h : Forall₂ R l l') (ha : a ∈ l) : ∃ b ∈ l', R a b := by
  obtain ⟨b, hb, hab⟩ := h.flip.exists_left ha
  exact ⟨b, hb, hab⟩

theorem Forall₂.map_eq {f : β → α} (h : Forall₂ (fun a b => f b = a) l l') : l'.map f = l := by
  induction h with
  | nil => rfl
  | cons hab _ ih => rw [map_cons, hab, ih]

theorem ne_cons_of_suffix {s : List α} (h : s <:+ l) : s ≠ a :: l := by
  intro he
  have hle := h.length_le
  rw [he, length_cons] at hle
  omega

/-- A stronger predicate that fails somewhere counts less. -/
theorem countP_lt_countP_of_imp {p q : α → Bool} (himp : ∀ a ∈ l, p a = true → q a = true)
    (ha : a ∈ l) (hp : p a = false) (hq : q a = true) : l.countP p < l.countP q := by
  induction l with
  | nil => cases ha
  | cons b l ih =>
    have htail : ∀ c ∈ l, p c = true → q c = true := (forall_mem_cons.1 himp).2
    have hle := countP_mono_left htail
    rcases mem_cons.1 ha with rfl | ha
    · rw [countP_cons_of_neg (by simp [hp]), countP_cons_of_pos hq]
      omega
    · have hlt := ih htail ha
      by_cases hb : p b = true
      · rw [countP_cons_of_pos hb, countP_cons_of_pos (himp b mem_cons_self hb)]
        omega
      · rw [countP_cons_of_neg hb, countP_cons]
        omega

/-- Values at distinct positions of a list without duplicates are distinct. -/
theorem nodup_of_positions {xs : List β} (hxs : xs.Nodup) {is : List Nat} {ys : List β}
    (h : Forall₂ (fun i y => xs[i]? = some y) is ys) (his : is.Nodup) : ys.Nodup := by
  induction h with
  | nil => exact Pairwise.nil
  | @cons i y is ys hi hrest ih =>
    obtain ⟨hi', his⟩ := nodup_cons.1 his
    refine nodup_cons.2 ⟨fun hy => ?_, ih his⟩
    obtain ⟨j, hj, hjy⟩ := hrest.exists_left hy
    have hlt : i < xs.length := (getElem?_eq_some_iff.1 hi).1
    exact hi' ((getElem?_inj hlt hxs).1 (hi.trans hjy.symm) ▸ hj)

end List

namespace Except

universe u v

variable {ε : Type u} {α β γ δ : Type v} {b c : β} {l : List α} {x : Except ε α}
  {f : α → Except ε β} {a : α}

/-! ## Inversion -/

@[simp] theorem bind_eq_ok : (x >>= f) = .ok b ↔ ∃ a, x = .ok a ∧ f a = .ok b := by
  cases x with
  | error e => simp [Bind.bind, Except.bind]
  | ok a => simp [Bind.bind, Except.bind]

/-- A first step that has one result at most, and when it has it. -/
theorem of_bind_eq_ok {P : Prop} {r : α} (h : (x >>= f) = .ok b)
    (hx : ∀ {a}, x = .ok a → P ∧ a = r) : P ∧ f r = .ok b := by
  obtain ⟨a, ha, hb⟩ := bind_eq_ok.1 h
  exact ⟨(hx ha).1, (hx ha).2 ▸ hb⟩

theorem exists_of_isOk (h : x.isOk = true) : ∃ a, x = .ok a := by
  cases x with
  | error e => cases h
  | ok a => exact ⟨a, rfl⟩

@[simp] theorem ok_bind (a : α) (f : α → Except ε β) : ((.ok a : Except ε α) >>= f) = f a := rfl

@[simp] theorem error_bind (e : ε) (f : α → Except ε β) :
    ((.error e : Except ε α) >>= f) = .error e := rfl

@[simp] theorem pure_eq_ok (a : α) : (pure a : Except ε α) = .ok a := rfl

@[simp] theorem foldlM_nil (f : β → α → Except ε β) (b : β) : List.foldlM f b [] = .ok b := rfl

theorem foldlM_cons (f : β → α → Except ε β) (b : β) (a : α) (l : List α) :
    List.foldlM f b (a :: l) = f b a >>= fun b' => List.foldlM f b' l := rfl

theorem foldlM_cons_eq_ok {f : β → α → Except ε β} :
    List.foldlM f b (a :: l) = .ok c ↔ ∃ b', f b a = .ok b' ∧ List.foldlM f b' l = .ok c := by
  rw [foldlM_cons, bind_eq_ok]

/-- Every step of a loop that succeeds has succeeded. -/
theorem foldlM_each {f : β → α → Except ε β} (h : l.foldlM f b = .ok c) (ha : a ∈ l) :
    ∃ b₁ b₂, f b₁ a = .ok b₂ := by
  induction l generalizing b with
  | nil => cases ha
  | cons a' l ih =>
    obtain ⟨b', hb', h⟩ := foldlM_cons_eq_ok.1 h
    rcases List.mem_cons.1 ha with rfl | ha
    · exact ⟨b, b', hb'⟩
    · exact ih h ha

theorem mapM_eq_ok {l' : List β} :
    l.mapM f = .ok l' ↔ List.Forall₂ (fun a b => f a = .ok b) l l' := by
  induction l generalizing l' with
  | nil => simp [List.forall₂_nil_left_iff, eq_comm]
  | cons a l ih =>
    rw [List.mapM_cons, bind_eq_ok]
    constructor
    · rintro ⟨b, hb, h⟩
      obtain ⟨bs, hbs, h⟩ := bind_eq_ok.1 h
      cases h
      exact List.Forall₂.cons hb (ih.1 hbs)
    · intro h
      cases h with
      | cons hb hbs => exact ⟨_, hb, bind_eq_ok.2 ⟨_, ih.2 hbs, rfl⟩⟩

/-! ## Simulation -/

/-- The two programs fail with the same error, or both succeed with related results. -/
def Sim (R : α → β → Prop) : Except ε α → Except ε β → Prop
  | .ok a, .ok b => R a b
  | .error e, .error e' => e = e'
  | _, _ => False

namespace Sim

variable {R : α → β → Prop} {S : γ → δ → Prop} {x : Except ε α} {y : Except ε β} {a : α} {b : β}
  {f : α → Except ε γ} {g : β → Except ε δ}

theorem ok (h : R a b) : Sim R (.ok a : Except ε α) (.ok b) := h

theorem error (e : ε) : Sim R (.error e : Except ε α) (.error e) := rfl

/-- Sequencing, where what follows may depend on how the first parts ended. -/
theorem bind_of_ok
    (hxy : Sim R x y) (hfg : ∀ a b, x = .ok a → y = .ok b → R a b → Sim S (f a) (g b)) :
    Sim S (x >>= f) (y >>= g) := by
  cases x <;> cases y
  · exact hxy
  · exact hxy.elim
  · exact hxy.elim
  · exact hfg _ _ rfl rfl hxy

theorem bind
    (hxy : Sim R x y) (hfg : ∀ a b, R a b → Sim S (f a) (g b)) : Sim S (x >>= f) (y >>= g) :=
  hxy.bind_of_ok fun a b _ _ => hfg a b

/-- What follows on the left only. -/
theorem bind_left {T : γ → β → Prop}
    (hxy : Sim R x y) (hf : ∀ a b, x = .ok a → y = .ok b → R a b → Sim T (f a) (.ok b)) :
    Sim T (x >>= f) y := by
  cases x <;> cases y
  · exact hxy
  · exact hxy.elim
  · exact hxy.elim
  · exact hf _ _ rfl rfl hxy

theorem ite {c : Prop} [Decidable c] {x' : Except ε α} {y' : Except ε β}
    (ht : c → Sim R x y) (he : ¬ c → Sim R x' y') :
    Sim R (if c then x else x') (if c then y else y') := by
  split_ifs with h
  · exact ht h
  · exact he h

theorem foldlM {f : α → γ → Except ε α} {g : β → γ → Except ε β}
    (hstep : ∀ a b c, R a b → Sim R (f a c) (g b c)) (l : List γ) (h : R a b) :
    Sim R (List.foldlM f a l) (List.foldlM g b l) := by
  induction l generalizing a b with
  | nil => exact h
  | cons c l ih => exact Sim.bind (hstep a b c h) fun _ _ h' => ih h'

/-- Results that are equal on the nose. -/
theorem refl (x : Except ε α) : Sim Eq x x := by
  cases x
  · rfl
  · rfl

/-- Functions that agree on related results do not tell the programs apart. -/
theorem map_eq {ζ : Type v} (hxy : Sim R x y) {f : α → ζ}
    {g : β → ζ} (h : ∀ a b, R a b → f a = g b) : x.map f = y.map g := by
  cases x <;> cases y
  · exact congrArg _ hxy
  · exact hxy.elim
  · exact hxy.elim
  · exact congrArg _ (h _ _ hxy)

/-- A successful run of the left program is matched by one of the right. -/
theorem ok_left (h : Sim R x y) (hx : x = .ok a) : ∃ b, y = .ok b ∧ R a b := by
  subst hx
  cases y with
  | error e => exact h.elim
  | ok b => exact ⟨b, rfl, h⟩

/-- A successful run of the right program is matched by one of the left. -/
theorem ok_right (h : Sim R x y) (hy : y = .ok b) : ∃ a, x = .ok a ∧ R a b := by
  subst hy
  cases x with
  | error e => exact h.elim
  | ok a => exact ⟨a, rfl, h⟩

end Sim

end Except
