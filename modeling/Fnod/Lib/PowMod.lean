import Mathlib.FieldTheory.Finite.Basic
import Mathlib.NumberTheory.LucasPrimality
import Mathlib.Tactic.Ring

/-!
# Powers modulo a prime

`powMod` computes a power modulo `m` by repeated squaring, so that the kernel can evaluate it for
numbers of some hundred bits. Two uses follow: Lucas's test that a number is prime, from the primes
of its predecessor (`prime_of_powMod`), and square roots modulo a prime that is one less than a
multiple of four (`sq_root`), which are unique up to their parity (`eq_of_sq_eq`).
-/

namespace PowMod

/-- `a ^ n % m` for an exponent of at most `bits` bits. -/
def powMod (m : Nat) : (bits a n : Nat) → Nat
  | 0, _, _ => 1 % m
  | bits + 1, a, n =>
    let rest := powMod m bits (a * a % m) (n / 2)
    if n % 2 = 1 then a * rest % m else rest

theorem powMod_eq (m : Nat) {bits n : Nat} (a : Nat) (h : n < 2 ^ bits) :
    powMod m bits a n = a ^ n % m := by
  induction bits generalizing a n with
  | zero =>
    obtain rfl : n = 0 := by simpa using h
    rfl
  | succ bits ih =>
    have hhalf : n / 2 < 2 ^ bits := by
      rw [pow_succ] at h
      omega
    have hsquares : (a * a % m) ^ (n / 2) % m = a ^ (2 * (n / 2)) % m := by
      rw [← Nat.pow_mod, ← Nat.pow_two, ← Nat.pow_mul]
    unfold powMod
    dsimp only
    rw [ih _ hhalf, hsquares]
    split_ifs with hodd
    · have hn : a ^ n = a * a ^ (2 * (n / 2)) := by
        rw [← Nat.pow_succ']
        congr 1
        omega
      rw [hn, Nat.mul_mod_mod]
    · congr 2
      omega

/-! ## Primes -/

theorem cast_pow_eq_one {p a n : Nat} (hp : 2 ≤ p) : (a : ZMod p) ^ n = 1 ↔ a ^ n % p = 1 := by
  have hone : 1 % p = 1 := Nat.mod_eq_of_lt hp
  rw [← Nat.cast_pow, ← Nat.cast_one, ZMod.natCast_eq_natCast_iff', hone]

/-- **Lucas's test.** The order of `a` modulo `p` is `p - 1`, since it is no proper divisor. -/
theorem prime_of_powMod (p a bits : Nat) (factors : List Nat)
    (hprimes : factors.Forall Nat.Prime) (hp : 2 ≤ p) (hbits : p ≤ 2 ^ bits)
    (hprod : factors.prod = p - 1) (hone : powMod p bits a (p - 1) = 1)
    (hne : ∀ q ∈ factors, powMod p bits a ((p - 1) / q) ≠ 1) : p.Prime := by
  have hlt : ∀ n, n ≤ p - 1 → n < 2 ^ bits := fun n hn => by omega
  apply lucas_primality p (a : ZMod p)
  · rw [cast_pow_eq_one hp, ← powMod_eq p a (hlt _ le_rfl)]
    exact hone
  · intro q hq hdvd
    rw [← hprod] at hdvd
    have hmem : q ∈ factors := by
      obtain ⟨q', hq', hdvd⟩ := (Prime.dvd_prod_iff hq.prime).1 hdvd
      rwa [(Nat.prime_dvd_prime_iff_eq hq (List.forall_iff_forall_mem.1 hprimes q' hq')).1 hdvd]
    rw [Ne, cast_pow_eq_one hp, ← powMod_eq p a (hlt _ (Nat.div_le_self _ _))]
    exact hne q hmem

/-! ## Square roots -/

section Roots

variable {p y z : Nat} [Fact p.Prime]

/-- The power of a square is a root of it. -/
theorem sq_root {a : Nat} (hp : p % 4 = 3) (h : y * y % p = a % p) :
    a ^ ((p + 1) / 4) * a ^ ((p + 1) / 4) % p = a % p := by
  rw [← ZMod.natCast_eq_natCast_iff'] at h ⊢
  push_cast at h ⊢
  rw [← h]
  by_cases hy : (y : ZMod p) = 0
  · have hpos : (p + 1) / 4 ≠ 0 := by omega
    rw [hy, mul_zero, zero_pow hpos, mul_zero]
  · -- The exponents add up to that of Fermat's theorem and two more.
    have hexp : 2 * ((p + 1) / 4 + (p + 1) / 4) = p - 1 + 2 := by omega
    rw [← pow_add, ← pow_two, ← pow_mul, hexp, pow_add, ZMod.pow_card_sub_one_eq_one hy, one_mul]

theorem sq_sub (hz : z ≤ p) : (p - z) * (p - z) % p = z * z % p := by
  rw [← ZMod.natCast_eq_natCast_iff']
  push_cast [hz]
  rw [ZMod.natCast_self]
  ring

/-- Two roots of one number add up to `p` unless they are equal, and `p` is odd. -/
theorem eq_of_sq_eq (hodd : p % 2 = 1) (hy : y < p) (hz : z < p)
    (h : y * y % p = z * z % p) (hparity : y % 2 = z % 2) : y = z := by
  rw [← ZMod.natCast_eq_natCast_iff'] at h
  push_cast at h
  rcases mul_self_eq_mul_self_iff.1 h with heq | hneg
  · rw [ZMod.natCast_eq_natCast_iff', Nat.mod_eq_of_lt hy, Nat.mod_eq_of_lt hz] at heq
    exact heq
  · have hsum : ((y + z : Nat) : ZMod p) = 0 := by
      push_cast
      rw [hneg, neg_add_cancel]
    obtain ⟨k, hk⟩ := (ZMod.natCast_eq_zero_iff _ _).1 hsum
    have hk2 : k < 2 := by
      by_contra hge
      have hle : p * 2 ≤ p * k := Nat.mul_le_mul_left p (not_lt.1 hge)
      omega
    interval_cases k <;> omega

end Roots

end PowMod
