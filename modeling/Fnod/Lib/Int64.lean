import Fnod.Lib.Slice

/-!
# Signed 64-bit arithmetic

The sum or difference of two 64-bit numbers wraps around. A program over such numbers is written
with an argument of type `Int64.Arith`, which says what becomes of the exact result of an operation:
`Int64.wrapping` is the machine, and `Int64.checked` stops where the machine would wrap around. A
run with the first that is also a run with the second computes no result that wraps around.
-/

namespace Int64

/-- The representable numbers. -/
def InRange (x : Int) : Prop := -2 ^ 63 ≤ x ∧ x < 2 ^ 63

instance (x : Int) : Decidable (InRange x) := inferInstanceAs (Decidable (_ ∧ _))

/-- The representable number that the machine computes for an exact result. -/
def wrap (x : Int) : Int := Int.bmod x (2 ^ 64)

theorem wrap_of_inRange {x : Int} (h : InRange x) : wrap x = x := by
  obtain ⟨h1, h2⟩ := h
  exact Int.bmod_eq_of_le (by omega) (by omega)

/-- A result that wraps around once is negative. -/
theorem wrap_of_nonneg {x : Int} (h0 : 0 ≤ x) (hlt : x < 2 ^ 64) (hwrap : 0 ≤ wrap x) :
    wrap x = x := by
  unfold wrap at *
  rw [Int.bmod_def] at *
  split_ifs at hwrap ⊢ <;> omega

/-- What becomes of the exact result of an operation. -/
abbrev Arith (ε : Type) := Int → Except (Fault ε) Int

variable {ε : Type}

/-- The machine. -/
def wrapping : Arith ε := fun x => .ok (wrap x)

theorem wrapping_eq {x : Int} (h : InRange x) : (wrapping x : Except (Fault ε) Int) = .ok x := by
  rw [wrapping, wrap_of_inRange h]

end Int64
