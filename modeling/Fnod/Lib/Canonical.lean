import Fnod.Lib.Reader

/-!
# Formats with one form for each value

`Reads` says that what was written is read back. This is the converse: whatever a reader takes from
the front of a byte string is related to the value that it makes of it (`Accepts`). A format has
one form for each value if only the bytes that are written for a value are accepted as that value.
The rules follow the readers, so that a proof has the shape of the program.
-/

namespace Codec

open Bytes List

variable {α β : Type} {r r' : Reader α} {f : α → Reader β} {P P' : List UInt8 → α → Prop}
  {Q : List UInt8 → β → Prop} {a : α} {p : Prop}

/-- What is taken from the front and the value that it stands for are related. -/
def Accepts (r : Reader α) (P : List UInt8 → α → Prop) : Prop :=
  ∀ ⦃b : List UInt8⦄ ⦃a : α⦄ ⦃rest : List UInt8⦄, r b = some (a, rest) → ∃ x, b = x ++ rest ∧ P x a

namespace Accepts

theorem mono (h : Accepts r P) (hle : ∀ x a, P x a → P' x a) : Accepts r P' := by
  intro b a rest hr
  obtain ⟨x, hb, hx⟩ := h hr
  exact ⟨x, hb, hle x a hx⟩

theorem all {b : List UInt8} (h : Accepts r P) (hr : r b = some (a, [])) : P b a := by
  obtain ⟨x, rfl, hx⟩ := h hr
  rwa [append_nil]

theorem pure (h : P [] a) : Accepts (pure a) P := by
  intro b a' rest hr
  cases hr
  exact ⟨[], rfl, h⟩

theorem failure : Accepts (failure : Reader α) P := by
  intro b a rest hr
  cases hr

/-- The bytes of the second reader come after those of the first. -/
theorem bind (hr : Accepts r P) (hf : ∀ x a, P x a → Accepts (f a) fun y c => Q (x ++ y) c) :
    Accepts (r >>= f) Q := by
  intro b c rest h
  obtain ⟨⟨a, mid⟩, ha, hc⟩ := Option.bind_eq_some_iff.1 h
  obtain ⟨x, rfl, hx⟩ := hr ha
  obtain ⟨y, rfl, hy⟩ := hf x a hx hc
  exact ⟨x ++ y, (append_assoc x y rest).symm, hy⟩

theorem ite [Decidable p] (h : p → Accepts r P) (h' : ¬p → Accepts r' P) :
    Accepts (if p then r else r') P := by
  split_ifs with hp
  · exact h hp
  · exact h' hp

theorem check [Decidable p] : Accepts (guard p : Reader Unit) fun x _ => x = [] ∧ p := by
  unfold guard
  exact ite (fun hp => pure ⟨rfl, hp⟩) fun _ => failure

theorem map {g : α → β} (h : Accepts r fun x a => Q x (g a)) :
    Accepts (r >>= fun a => Pure.pure (g a)) Q := by
  refine h.bind fun x a hx => pure ?_
  rwa [append_nil]

theorem bytes (n : Nat) : Accepts (bytes n) fun x a => x = a ∧ a.length = n := by
  intro b a rest h
  unfold Codec.bytes at h
  split_ifs at h with hlt
  cases h
  exact ⟨b.take n, (take_append_drop n b).symm, rfl, length_take_of_le (Nat.le_of_not_lt hlt)⟩

theorem array (n : Nat) : Accepts (array n) fun x v => x = v.toList := by
  intro b v rest h
  unfold Codec.array at h
  split_ifs at h with hle
  cases h
  exact ⟨b.take n, (take_append_drop n b).symm, rfl⟩

theorem ofOption {o : Option α} : Accepts (ofOption o) fun x a => x = [] ∧ o = some a := by
  cases o with
  | none =>
    intro b a rest h
    cases h
  | some a => exact pure ⟨rfl, rfl⟩

theorem many {g : α → List UInt8} (h : Accepts r fun x a => x = g a ∧ P x a) (n : Nat) :
    Accepts (many r n) fun x l => x = l.flatMap g ∧ l.length = n ∧ ∀ a ∈ l, P (g a) a := by
  induction n with
  | zero => exact pure ⟨rfl, rfl, by simp⟩
  | succ n ih =>
    refine h.bind fun x a ⟨hx, ha⟩ => map (ih.mono fun y l ⟨hy, hlen, hl⟩ => ?_)
    subst hx hy
    exact ⟨rfl, congrArg (· + 1) hlen, forall_mem_cons.2 ⟨ha, hl⟩⟩

end Accepts

/-! ## Machine numbers -/

section Numbers

theorem putLE_getLE (b : List UInt8) : putLE b.length (getLE b) = b := by
  induction b with
  | nil => rfl
  | cons c b ih =>
    have hmod : (c.toNat + 256 * getLE b) % 256 = c.toNat := by
      have := c.toNat_lt
      omega
    have hdiv : (c.toNat + 256 * getLE b) / 256 = getLE b := by
      have := c.toNat_lt
      omega
    rw [length_cons, putLE, getLE, hmod, hdiv, ih, UInt8.ofNat_toNat]

theorem Accepts.number (n : Nat) : Accepts (number n) fun x k => x = putLE n k ∧ k < 256 ^ n := by
  refine (Accepts.bytes n).bind fun x b ⟨hx, hlen⟩ => .pure ?_
  subst hx hlen
  exact ⟨by rw [append_nil, putLE_getLE], getLE_lt x⟩

theorem Accepts.ofNat {n : Nat} {f : Nat → α} {g : α → Nat} (hf : ∀ k < 256 ^ n, g (f k) = k) :
    Accepts (Codec.number n >>= fun x => Pure.pure (f x)) fun x a => x = putLE n (g a) := by
  refine .map ((Accepts.number n).mono fun x k ⟨hx, hk⟩ => ?_)
  rw [hf k hk, hx]

theorem Accepts.uint8 : Accepts uint8 fun x a => x = putUint8 a := by
  refine (Accepts.ofNat (n := 1) (g := UInt8.toNat) fun k hk => ?_).mono fun x a hx => ?_
  · exact UInt8.toNat_ofNat_of_lt' hk
  · simp [hx, putUint8, putLE]

theorem Accepts.uint16 : Accepts uint16 fun x a => x = putUint16 a :=
  .ofNat fun _ hk => UInt16.toNat_ofNat_of_lt' hk

theorem Accepts.uint32 : Accepts uint32 fun x a => x = putUint32 a :=
  .ofNat fun _ hk => UInt32.toNat_ofNat_of_lt' hk

theorem Accepts.uint64 : Accepts uint64 fun x a => x = putUint64 a :=
  .ofNat fun _ hk => UInt64.toNat_ofNat_of_lt' hk

theorem Accepts.int32 : Accepts int32 fun x a => x = putInt32 a :=
  .map (Accepts.uint32.mono fun _ a hx => by rw [putInt32, UInt32.toUInt32_toInt32, hx])

theorem Accepts.int64 : Accepts int64 fun x a => x = putInt64 a :=
  .map (Accepts.uint64.mono fun _ a hx => by rw [putInt64, UInt64.toUInt64_toInt64, hx])

end Numbers

/-! ## Checks and images -/

/-- A reader whose values are the images of those of another one reads lists like it. -/
theorem map_many {r' : Reader β} {g : α → β} (h : g <$> r = r') (n : Nat) :
    List.map g <$> many r n = many r' n := by
  subst h
  induction n with
  | zero => rfl
  | succ n ih => simp only [many, map_bind, map_pure, ← ih, bind_map_left, map_cons]

variable {x : List UInt8}

theorem Reads.all (h : Reads r x a) : r x = some (a, []) := by
  have hall := h []
  rwa [append_nil] at hall

theorem Reads.check [Decidable p] (h : p) : Reads (guard p : Reader Unit) [] () := by
  unfold guard
  rw [if_pos h]
  exact .pure ()

/-- Of each item what the reader makes of its bytes is read. -/
theorem Reads.many_map {g : β → List UInt8} {m : β → α} {l : List β}
    (h : ∀ b ∈ l, Reads r (g b) (m b)) : Reads (Codec.many r l.length) (l.flatMap g) (l.map m) := by
  induction l with
  | nil => exact .pure []
  | cons b l ih =>
    obtain ⟨hb, hl⟩ := forall_mem_cons.1 h
    exact hb.bind ((ih hl).map (m b :: ·))

theorem Reads.ite_true [Decidable p] (hp : p)
    (h : Reads r x a) : Reads (if p then r else r') x a := by
  rwa [if_pos hp]

theorem Reads.ite_false [Decidable p] (hp : ¬p)
    (h : Reads r' x a) : Reads (if p then r else r') x a := by
  rwa [if_neg hp]

end Codec
