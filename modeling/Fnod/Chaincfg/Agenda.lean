import Fnod.Lib.Sim
import Mathlib.Algebra.Order.Ring.Nat
import Mathlib.Data.List.Count

/-!
# `init.go`: the choices of a vote

A vote uses some bits of the vote bits of a ticket, its mask, and each choice has one value of these
bits. `validateChoices` checks the choices when the program starts: the bits of a choice are in the
mask, and they are the index of the choice, shifted to the place of the mask.

**Theorem (`voteIndex_eq`).** If the choices are accepted, `VoteIndex`, which looks for a choice
with the bits of a vote, gives the same as shifting the bits and taking them as an index.
-/

namespace Fnod

open Except List

structure Choice where
  id : String
  bits : UInt16
  isAbstain : Bool
  isNo : Bool
deriving DecidableEq

/-- `Vote`: its mask and its choices. -/
structure Vote where
  mask : UInt16
  choices : List Choice
deriving DecidableEq

/-- The errors of `validateChoices`. For an empty mask the loop of `shift` does not end. -/
inductive AgendaError
  | invalidMask
  | notConsecutive
  | tooManyChoices
  | invalidAbstain
  | invalidBits
  | invalidIsAbstain
  | invalidIsNo
  | invalidBothFlags
  | duplicateChoiceId
  | noReturn
deriving DecidableEq

/-- The loop of `bitsSet`. A turn clears a bit, so there are at most sixteen. -/
def bitsSetLoop : (fuel : Nat) → (v : UInt16) → (c : Nat) → Nat
  | 0, _, c => c
  | fuel + 1, v, c => if v = 0 then c else bitsSetLoop fuel (v &&& (v - 1)) (c + 1)

def bitsSet (bits : UInt16) : Nat := bitsSetLoop 16 bits 0

/-- The loop of `consecOnes`. A turn shortens the runs of ones, so there are at most sixteen. -/
def consecOnesLoop : (fuel : Nat) → (v : UInt16) → (c : Nat) → Nat
  | 0, _, c => c
  | fuel + 1, v, c => if v = 0 then c else consecOnesLoop fuel (v &&& (v <<< 1)) (c + 1)

def consecOnes (bits : UInt16) : Nat := consecOnesLoop 16 bits 0

/-- The loop of `shift`. It goes on for ever if no bit is set. -/
def shiftLoop : (fuel : Nat) → (mask : UInt16) → Option Nat
  | 0, _ => none
  | fuel + 1, mask =>
    if mask &&& 0x0001 = 0x0001 then some 0 else (shiftLoop fuel (mask >>> 1)).map (· + 1)

def shift (mask : UInt16) : Except AgendaError Nat :=
  match shiftLoop 16 mask with
  | none => .error .noReturn
  | some s => .ok s

/-- The checks of a choice at an index. -/
def checkChoice (mask : UInt16) (s index : Nat) (choice : Choice) : Except AgendaError Unit :=
  if mask &&& choice.bits = 0 ∧ !choice.isAbstain then .error .invalidAbstain
  else if mask &&& choice.bits ≠ choice.bits then .error .invalidBits
  else if UInt16.ofNat index ≠ choice.bits >>> UInt16.ofNat s then .error .notConsecutive
  else if choice.isAbstain ∧ choice.isNo then .error .invalidBothFlags
  else .ok ()

/-- The loop of `validateChoices`: the numbers of the flags that are set. -/
def validateLoop (toLower : String → String) (mask : UInt16) (s : Nat) :
    (index : Nat) → (numAbstain numNo : Nat) → (dups : List String) → List Choice →
    Except AgendaError (Nat × Nat)
  | _, numAbstain, numNo, _, [] => .ok (numAbstain, numNo)
  | index, numAbstain, numNo, dups, choice :: choices => do
    checkChoice mask s index choice
    let numAbstain := if choice.isAbstain then numAbstain + 1 else numAbstain
    let numNo := if choice.isNo then numNo + 1 else numNo
    if toLower choice.id ∈ dups then .error .duplicateChoiceId
    else
      validateLoop toLower mask s (index + 1) numAbstain numNo (toLower choice.id :: dups) choices

/-- `validateChoices`. The function `strings.ToLower` is a parameter. -/
def validateChoices (toLower : String → String) (mask : UInt16) (choices : List Choice) :
    Except AgendaError Unit := do
  if consecOnes mask ≠ bitsSet mask then .error .invalidMask
  else if choices.length > 1 <<< bitsSet mask then .error .tooManyChoices
  else
    let s ← shift mask
    let (numAbstain, numNo) ← validateLoop toLower mask s 0 0 0 [] choices
    if numAbstain ≠ 1 then .error .invalidIsAbstain
    else if numNo ≠ 1 then .error .invalidIsNo
    else .ok ()

/-- `VoteIndex`; there is none for an invalid vote. -/
def Vote.voteIndex (v : Vote) (vote : UInt16) : Option Nat :=
  v.choices.findIdx? fun choice => vote &&& v.mask = choice.bits

/-! ## What is accepted -/

/-- What `validateChoices` checks, with the shift of the mask. -/
structure Accepted (v : Vote) (s : Nat) : Prop where
  shifted : shiftLoop 16 v.mask = some s
  few : v.choices.length ≤ 2 ^ 16
  bits : ∀ k choice, v.choices[k]? = some choice →
    v.mask &&& choice.bits = choice.bits ∧ UInt16.ofNat k = choice.bits >>> UInt16.ofNat s
  flags : ∀ choice ∈ v.choices, ¬ (choice.isAbstain = true ∧ choice.isNo = true)
  oneAbstain : v.choices.countP Choice.isAbstain = 1
  oneNo : v.choices.countP Choice.isNo = 1

section Accepted

variable {toLower : String → String} {v : Vote} {mask x : UInt16} {s index : Nat} {choice : Choice}

theorem bitsSetLoop_le (fuel : Nat) (v : UInt16) (c : Nat) : bitsSetLoop fuel v c ≤ c + fuel := by
  induction fuel generalizing v c with
  | zero => exact le_refl c
  | succ fuel ih =>
    unfold bitsSetLoop
    split_ifs
    · omega
    · have := ih (v &&& (v - 1)) (c + 1)
      omega

theorem checkChoice_ok (h : checkChoice mask s index choice = .ok ()) :
    mask &&& choice.bits = choice.bits ∧ UInt16.ofNat index = choice.bits >>> UInt16.ofNat s ∧
      ¬ (choice.isAbstain = true ∧ choice.isNo = true) := by
  unfold checkChoice at h
  split_ifs at h with h₁ h₂ h₃ h₄
  exact ⟨not_not.1 h₂, not_not.1 h₃, h₄⟩

theorem validateLoop_ok {numAbstain numNo a n : Nat} {dups : List String} {choices : List Choice}
    (h : validateLoop toLower mask s index numAbstain numNo dups choices = .ok (a, n)) :
    (∀ k choice, choices[k]? = some choice → mask &&& choice.bits = choice.bits ∧
      UInt16.ofNat (index + k) = choice.bits >>> UInt16.ofNat s ∧
      ¬ (choice.isAbstain = true ∧ choice.isNo = true)) ∧
    a = numAbstain + choices.countP Choice.isAbstain ∧ n = numNo + choices.countP Choice.isNo := by
  induction choices generalizing index numAbstain numNo dups with
  | nil =>
    cases h
    simp
  | cons c choices ih =>
    obtain ⟨_, hcheck, h⟩ := bind_eq_ok.1 h
    dsimp only at h
    by_cases hdup : toLower c.id ∈ dups
    · rw [if_pos hdup] at h
      cases h
    rw [if_neg hdup] at h
    obtain ⟨hrest, ha, hn⟩ := ih h
    refine ⟨fun k choice hk => ?_, ?_, ?_⟩
    · cases k with
      | zero =>
        obtain rfl : c = choice := Option.some.inj hk
        exact checkChoice_ok hcheck
      | succ k =>
        rw [← add_assoc, add_right_comm]
        exact hrest k choice hk
    · rw [ha, countP_cons]
      split_ifs <;> omega
    · rw [hn, countP_cons]
      split_ifs <;> omega

/-- **What is accepted** is what the checks say. -/
theorem accepted_of_validateChoices (h : validateChoices toLower v.mask v.choices = .ok ()) :
    ∃ s, Accepted v s := by
  unfold validateChoices at h
  by_cases hmask : consecOnes v.mask ≠ bitsSet v.mask
  · rw [if_pos hmask] at h
    cases h
  by_cases hmany : v.choices.length > 1 <<< bitsSet v.mask
  · rw [if_neg hmask, if_pos hmany] at h
    cases h
  rw [if_neg hmask, if_neg hmany] at h
  obtain ⟨s, hs, h⟩ := bind_eq_ok.1 h
  obtain ⟨⟨a, n⟩, hloop, h⟩ := bind_eq_ok.1 h
  obtain ⟨hall, ha, hn⟩ := validateLoop_ok hloop
  dsimp only at h
  split_ifs at h with habstain hno
  have hshift : shiftLoop 16 v.mask = some s := by
    unfold shift at hs
    cases hloop' : shiftLoop 16 v.mask with
    | none =>
      rw [hloop'] at hs
      cases hs
    | some s' =>
      rw [hloop'] at hs
      cases hs
      rfl
  refine ⟨s, hshift, ?_, fun k choice hk => ?_, fun choice hmem => ?_, by omega, by omega⟩
  · have hle : bitsSet v.mask ≤ 0 + 16 := bitsSetLoop_le 16 v.mask 0
    rw [Nat.shiftLeft_eq, one_mul] at hmany
    exact (not_lt.1 hmany).trans (Nat.pow_le_pow_right (by decide) (by omega))
  · obtain ⟨hbits, hindex, -⟩ := hall k choice hk
    exact ⟨hbits, zero_add k ▸ hindex⟩
  · obtain ⟨k, hk⟩ := mem_iff_getElem?.1 hmem
    exact (hall k choice hk).2.2

/-! ## The index of a vote -/

theorem shiftLoop_dvd {fuel : Nat} (h : shiftLoop fuel mask = some s) :
    s < fuel ∧ 2 ^ s ∣ mask.toNat := by
  induction fuel generalizing mask s with
  | zero => cases h
  | succ fuel ih =>
    unfold shiftLoop at h
    split_ifs at h with hodd
    · cases h
      exact ⟨Nat.succ_pos fuel, Nat.one_dvd _⟩
    · rw [Option.map_eq_some_iff] at h
      obtain ⟨s', hs', rfl⟩ := h
      obtain ⟨hlt, hdvd⟩ := ih hs'
      have hhalf : (mask >>> 1).toNat = mask.toNat / 2 := by
        rw [UInt16.toNat_shiftRight]
        exact Nat.shiftRight_eq_div_pow _ 1
      have heven : mask.toNat % 2 = 0 := by
        have hne : mask.toNat % 2 ≠ 1 := fun hone => hodd (UInt16.toNat_inj.1 (by
          rw [UInt16.toNat_and]
          exact (Nat.and_one_is_mod mask.toNat).trans hone))
        omega
      rw [hhalf] at hdvd
      refine ⟨by omega, ?_⟩
      rw [Nat.pow_succ']
      exact Nat.mul_dvd_of_dvd_div (Nat.dvd_of_mod_eq_zero heven) hdvd

theorem toNat_shift (hs : s < 16) : (x >>> UInt16.ofNat s).toNat = x.toNat / 2 ^ s := by
  have hsmall : (UInt16.ofNat s).toNat % 16 = s := by
    rw [UInt16.toNat_ofNat_of_lt' (hs.trans (by decide)), Nat.mod_eq_of_lt hs]
  rw [UInt16.toNat_shiftRight, hsmall, Nat.shiftRight_eq_div_pow]

theorem dvd_of_land (hs : 2 ^ s ∣ mask.toNat) (hx : mask &&& x = x) : 2 ^ s ∣ x.toNat := by
  have hland : mask.toNat &&& x.toNat = x.toNat := by rw [← UInt16.toNat_and, hx]
  refine Nat.dvd_of_mod_eq_zero ?_
  rw [← hland, Nat.and_mod_two_pow, Nat.mod_eq_zero_of_dvd hs, Nat.zero_and]

/-- Bits in the mask are told by their index. -/
theorem eq_iff_shift_eq {y : UInt16} (hs : shiftLoop 16 mask = some s) (hx : mask &&& x = x)
    (hy : mask &&& y = y) : x = y ↔ x >>> UInt16.ofNat s = y >>> UInt16.ofNat s := by
  obtain ⟨hlt, hdvd⟩ := shiftLoop_dvd hs
  refine ⟨fun h => by rw [h], fun h => UInt16.toNat_inj.1 ?_⟩
  have hdiv : x.toNat / 2 ^ s = y.toNat / 2 ^ s := by rw [← toNat_shift hlt, h, toNat_shift hlt]
  rw [← Nat.div_mul_cancel (dvd_of_land hdvd hx), hdiv, Nat.div_mul_cancel (dvd_of_land hdvd hy)]

/-- The index of a vote by shifting its bits. -/
def Vote.shiftedIndex (v : Vote) (s : Nat) (vote : UInt16) : Nat :=
  ((v.mask &&& vote) >>> UInt16.ofNat s).toNat

/-- A vote has the bits of the choice at its shifted index. -/
theorem Accepted.bits_eq_iff (h : Accepted v s) {k : Nat}
    (hk : v.choices[k]? = some choice) (vote : UInt16) :
    vote &&& v.mask = choice.bits ↔ k = v.shiftedIndex s vote := by
  obtain ⟨hbits, hindex⟩ := h.bits k choice hk
  have hlt : k < 2 ^ 16 := (List.getElem?_eq_some_iff.1 hk).1.trans_le h.few
  have hself : v.mask &&& (v.mask &&& vote) = v.mask &&& vote := by
    rw [← UInt16.and_assoc, UInt16.and_self]
  rw [UInt16.and_comm, eq_iff_shift_eq h.shifted hself hbits, ← hindex]
  unfold Vote.shiftedIndex
  rw [← UInt16.toNat_inj, UInt16.toNat_ofNat_of_lt' hlt]
  exact eq_comm

/-- **The two ways to the index of a vote agree.** -/
theorem voteIndex_eq (h : Accepted v s) (vote : UInt16) : v.voteIndex vote =
      if v.shiftedIndex s vote < v.choices.length then some (v.shiftedIndex s vote) else none := by
  unfold Vote.voteIndex
  split_ifs with hlt
  · rw [List.findIdx?_eq_some_iff_getElem]
    refine ⟨hlt, ?_, fun j hj => ?_⟩
    · exact decide_eq_true ((h.bits_eq_iff (List.getElem?_eq_getElem hlt) vote).2 rfl)
    · have hne := (h.bits_eq_iff (List.getElem?_eq_getElem (hj.trans hlt)) vote).not.2 (by omega)
      simpa using hne
  · rw [List.findIdx?_eq_none_iff]
    intro choice hmem
    obtain ⟨k, hk⟩ := mem_iff_getElem?.1 hmem
    have hklt := (List.getElem?_eq_some_iff.1 hk).1
    exact decide_eq_false ((h.bits_eq_iff hk vote).not.2 (by omega))

end Accepted

end Fnod
