import Fnod.Lib.Slice

/-!
# Buffers

Programs that know the size of their output make a buffer of this size and write into it. Programs
that write piece by piece are put together like the pieces, and fill the buffer if the size was
right (`Slice.Cursor.Writes.fills`). A buffer is reversed in place by swapping its elements from the
ends inwards (`Slice.swapInwards_eq`).
-/

namespace Slice

open List

universe u v

variable {ε : Type u} {α : Type v}

/-- A new slice of a fixed size, written from its start; the rest of it is zero. -/
def fill (zero : α) (size : Nat) (xs : List α) : Except (Fault ε) (List α) :=
  if xs.length ≤ size then .ok (xs ++ List.replicate (size - xs.length) zero) else .error .panic

/-! ## Piece by piece -/

/-- A new slice that is written from its start: what was written, and the room that is left. -/
structure Cursor (α : Type v) where
  written : List α
  room : Nat

namespace Cursor

/-- `make`. -/
def new (size : Nat) : Cursor α := ⟨[], size⟩

def slice (zero : α) (c : Cursor α) : List α := c.written ++ List.replicate c.room zero

/-- A write that needs the room. -/
def put (c : Cursor α) (xs : List α) : Except (Fault ε) (Cursor α) :=
  if xs.length ≤ c.room then .ok ⟨c.written ++ xs, c.room - xs.length⟩ else .error .panic

/-- `copy`: as much as there is room for. -/
def copy (c : Cursor α) (xs : List α) : Cursor α :=
  ⟨c.written ++ xs.take c.room, c.room - xs.length⟩

/-- A program writes `xs` if there is room for it. -/
def Writes (p : Cursor α → Except (Fault ε) (Cursor α)) (xs : List α) : Prop :=
  ∀ written room, p ⟨written, xs.length + room⟩ = .ok ⟨written ++ xs, room⟩

namespace Writes

variable {p q : Cursor α → Except (Fault ε) (Cursor α)} {xs ys : List α}

theorem put (xs : List α) : Writes (fun c => (c.put xs : Except (Fault ε) _)) xs := by
  intro written room
  simp [Cursor.put]

theorem copy (xs : List α) : Writes (fun c => (.ok (c.copy xs) : Except (Fault ε) _)) xs := by
  intro written room
  simp [Cursor.copy, take_of_length_le]

theorem bind (hp : Writes p xs) (hq : Writes q ys) : Writes (fun c => p c >>= q) (xs ++ ys) := by
  intro written room
  have hfirst := hp written (ys.length + room)
  rw [← add_assoc, ← length_append] at hfirst
  show p _ >>= q = _
  rw [hfirst, ← append_assoc]
  exact hq (written ++ xs) room

theorem foldlM {β : Type*} {f : Cursor α → β → Except (Fault ε) (Cursor α)} {g : β → List α}
    {l : List β} (h : ∀ a ∈ l, Writes (fun c => f c a) (g a)) :
    Writes (fun c => l.foldlM f c) (l.flatMap g) := by
  induction l with
  | nil =>
    intro written room
    rw [flatMap_nil, append_nil, length_nil, zero_add]
    rfl
  | cons a l ih =>
    obtain ⟨ha, hl⟩ := forall_mem_cons.1 h
    exact ha.bind (ih hl)

theorem fills {size : Nat} (h : Writes p xs) (hsize : size = xs.length) :
    p (new size) = .ok ⟨xs, 0⟩ := by
  subst hsize
  exact h [] 0

end Writes

end Cursor

/-! ## Reversal in place -/

/-- `xs[i], xs[j] = xs[j], xs[i]`. -/
def swap (xs : List α) (i j : Nat) : List α :=
  match xs[i]?, xs[j]? with
  | some a, some b => (xs.set i b).set j a
  | _, _ => xs

/-- The elements from `i` to `j` are swapped in pairs, from the ends inwards. -/
def swapInwards : (fuel i j : Nat) → List α → List α
  | 0, _, _, xs => xs
  | fuel + 1, i, j, xs => if i < j then swapInwards fuel (i + 1) (j - 1) (swap xs i j) else xs

theorem swap_ends (front mid back : List α) (a b : α) :
    swap (front ++ (a :: (mid ++ [b])) ++ back) front.length (front.length + mid.length + 1) =
      front ++ (b :: (mid ++ [a])) ++ back := by
  have ha : (front ++ (a :: (mid ++ [b])) ++ back)[front.length]? = some a := by simp
  have hb : (front ++ (a :: (mid ++ [b])) ++ back)[front.length + mid.length + 1]? = some b := by
    simp [add_assoc]
  rw [swap, ha, hb]
  simp [add_assoc]

/-- **Swapping from the ends inwards** reverses the part between them. -/
theorem swapInwards_eq {fuel : Nat} (front mid back : List α) (hfuel : mid.length ≤ fuel) :
    swapInwards fuel front.length (front.length + mid.length - 1) (front ++ mid ++ back) =
      front ++ mid.reverse ++ back := by
  induction fuel generalizing front mid back with
  | zero =>
    obtain rfl := length_eq_zero_iff.1 (Nat.le_zero.1 hfuel)
    rfl
  | succ fuel ih =>
    unfold swapInwards
    match mid with
    | [] => rw [if_neg (by simp), reverse_nil]
    | [a] => simp
    | a :: c :: mid =>
      obtain ⟨mid, b, hmid⟩ : ∃ mid' b, c :: mid = mid' ++ [b] :=
        ⟨_, _, (dropLast_append_getLast (cons_ne_nil c mid)).symm⟩
      rw [hmid] at hfuel ⊢
      have hlen : mid.length ≤ fuel := by
        simp only [length_append, length_cons, length_nil] at hfuel
        omega
      have hlast : front.length + (a :: (mid ++ [b])).length - 1 =
          front.length + mid.length + 1 := by
        simp only [length_append, length_cons, length_nil]
        omega
      -- The part between the ends is reversed in the same way.
      have hinner := ih (front ++ [b]) mid ([a] ++ back) hlen
      have hend : (front ++ [b]).length + mid.length - 1 = front.length + mid.length + 1 - 1 := by
        simp only [length_append, length_singleton]
        omega
      rw [hend, length_append, length_singleton] at hinner
      rw [hlast, if_pos (by omega), swap_ends]
      simpa using hinner

end Slice
