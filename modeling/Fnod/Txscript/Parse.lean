import Fnod.Txscript.Standard

/-!
# `script.go`: scripts and their opcodes

`unparseScript` is meant to undo `parseScript`. Both are compared with one format: an opcode is its
byte, the size of its data if the size is not in the opcode, and the data (`ParsedOpcode.encode`).

**Theorem (`parseScript_lossless`).** Whatever parses is given back by `unparseScript`; two scripts
that parse one after the other are parsed to the opcodes of the one and of the other; and no script
makes the parser read outside of it.

All three follow from `parseScript_eq_ok`: a script parses exactly to the opcodes that it is the
encoding of, if their data have sizes that can be written (`Sized`).
-/

namespace Fnod

open Bytes Except List ParsedOpcode Slice

/-! ## Unparsing -/

/-- The number of bytes of an opcode that hold the size of its data. -/
def sizeLength (op : UInt8) : Nat := (-opcodeLength op).toNat

namespace ParsedOpcode

variable (pop : ParsedOpcode)

/-- `bytes`. The sizes of one, two and four bytes are written alike. -/
def bytes : Except (Fault ScriptError) (List UInt8) :=
  let length := opcodeLength pop.opcode
  if length = 1 then
    if pop.data.length ≠ 0 then .error (.err .internal) else .ok [pop.opcode]
  else
    let size := putLE (sizeLength pop.opcode) pop.data.length
    let retbytes := if length < 0 then pop.opcode :: size else [pop.opcode]
    let nbytes := if length < 0 then getLE size + retbytes.length else length.toNat
    let retbytes := retbytes ++ pop.data
    if retbytes.length ≠ nbytes then .error (.err .internal) else .ok retbytes

def encode : List UInt8 :=
  pop.opcode :: (putLE (sizeLength pop.opcode) pop.data.length ++ pop.data)

/-- The size of the data can be written. -/
structure Sized : Prop extends pop.Formed where
  sized : opcodeLength pop.opcode < 0 → pop.data.length < 256 ^ sizeLength pop.opcode

end ParsedOpcode

def unparseScript (pops : List ParsedOpcode) : Except (Fault ScriptError) (List UInt8) :=
  pops.foldlM (fun script pop => do
    let b ← pop.bytes
    return script ++ b) []

/-! ## One opcode -/

variable {op : UInt8} {pop : ParsedOpcode} {pops pops' : List ParsedOpcode}
  {script rest : List UInt8} {i j n fuel : Nat}

/-- There are three kinds of opcodes. -/
theorem opcodeLength_cases (op : UInt8) : opcodeLength op = 1 ∨ 1 < opcodeLength op ∨
      opcodeLength op < 0 ∧ (sizeLength op = 1 ∨ sizeLength op = 2 ∨ sizeLength op = 4) := by
  unfold sizeLength opcodeLength
  split_ifs with h
  · have := UInt8.le_iff_toNat_le.1 h.1
    right
    left
    simp only [UInt8.toNat_ofNat] at this
    omega
  · simp
  · simp
  · simp
  · simp

theorem sizeLength_of_pos (h : 0 < opcodeLength op) : sizeLength op = 0 := by
  unfold sizeLength
  omega

theorem encode_length : pop.encode.length = 1 + sizeLength pop.opcode + pop.data.length := by
  simp only [encode, length_cons, length_append, length_putLE]
  omega

theorem bytes_eq (h : pop.Sized) : pop.bytes = .ok pop.encode := by
  unfold bytes
  dsimp only
  rcases opcodeLength_cases pop.opcode with hl | hl | ⟨hl, -⟩
  · rw [if_pos hl, h.bare hl, if_neg (by simp), encode,
      sizeLength_of_pos (hl ▸ Int.one_pos), h.bare hl]
    rfl
  · have hpos : 0 < opcodeLength pop.opcode := by omega
    have hneg : ¬ opcodeLength pop.opcode < 0 := by omega
    have hdata := h.push hl
    rw [if_neg (by omega), if_neg hneg, if_neg hneg, encode, sizeLength_of_pos hpos,
      if_neg]
    · rfl
    · simp only [length_append, length_singleton]
      omega
  · rw [if_neg (by omega), if_pos hl, if_pos hl, getLE_putLE_of_lt (h.sized hl), if_neg]
    · rfl
    · simp only [length_append, length_cons, length_putLE]
      omega

theorem pushLength_eq (hn : n = 1 ∨ n = 2 ∨ n = 4) {size : List UInt8} (hsize : size.length = n)
    (h : script.drop i = size ++ rest) : pushLength script i n = .ok (getLE size) := by
  have hget : ∀ k b, size[k]? = some b → script[i + k]? = some b := by
    intro k b hb
    rw [← List.getElem?_drop, h, List.getElem?_append_left (List.getElem?_eq_some_iff.1 hb).1, hb]
  rcases hn with rfl | rfl | rfl
  · obtain ⟨b0, rfl⟩ := length_eq_one_iff.1 hsize
    have h0 : script[i]? = some b0 := hget 0 b0 rfl
    rw [pushLength, get_eq h0, ok_bind, getLE, getLE]
    rfl
  · obtain ⟨b0, b1, rfl⟩ := length_eq_two.1 hsize
    have h0 : script[i]? = some b0 := hget 0 b0 rfl
    rw [pushLength, get_eq (hget 1 b1 rfl), ok_bind, get_eq h0, ok_bind]
    simp only [getLE]
    congr 1
    omega
  · obtain ⟨b0, size, rfl⟩ := exists_cons_of_length_eq_add_one hsize
    obtain ⟨b1, b2, b3, rfl⟩ := length_eq_three.1 (Nat.succ.inj hsize)
    have h0 : script[i]? = some b0 := hget 0 b0 rfl
    rw [pushLength, get_eq (hget 3 b3 rfl), ok_bind, get_eq (hget 2 b2 rfl), ok_bind,
      get_eq (hget 1 b1 rfl), ok_bind, get_eq h0, ok_bind]
    simp only [getLE]
    congr 1
    omega

/-- A slice at an offset into what is left. -/
theorem slice_of_drop {data : List UInt8} (h : script.drop i = data ++ rest)
    (hi : i ≤ script.length) :
    (slice script i (i + data.length) : Except (Fault ScriptError) (List UInt8)) =
      .ok data := by
  have hlen := congrArg List.length h
  rw [length_drop, length_append] at hlen
  rw [slice_eq (Nat.le_add_right ..) (by omega), drop_take, Nat.add_sub_cancel_left, h,
    take_left]

/-- An opcode is read where it stands. -/
theorem parseOpcode_encode (hpop : pop.Sized) (h : script.drop i = pop.encode ++ rest) :
    parseOpcode script i = .ok (pop, i + pop.encode.length) := by
  have hlen := congrArg List.length h
  rw [length_drop, length_append, encode_length] at hlen
  have hhead : script[i]? = some pop.opcode := by
    rw [← List.head?_drop, h]
    rfl
  have htail : script.drop (i + 1) =
      putLE (sizeLength pop.opcode) pop.data.length ++ (pop.data ++ rest) := by
    rw [← tail_drop, h, encode, cons_append, tail_cons, append_assoc]
  rw [parseOpcode, get_eq hhead, ok_bind, encode_length]
  dsimp only
  rcases opcodeLength_cases pop.opcode with hl | hl | ⟨hl, hn⟩
  · obtain ⟨op, data⟩ := pop
    obtain rfl : data = [] := hpop.bare hl
    rw [if_pos hl, sizeLength_of_pos (hl ▸ Int.one_pos)]
    rfl
  · have hpos : 0 < opcodeLength pop.opcode := by omega
    have hsize := sizeLength_of_pos hpos
    have hdata := hpop.push hl
    rw [hsize, putLE, nil_append] at htail
    rw [if_neg (by omega), if_pos hl, sliceFrom_eq (by omega), ok_bind,
      if_neg (by rw [length_drop]; omega), ← hdata, add_comm pop.data.length,
      ← add_assoc, slice_of_drop htail (by omega), ok_bind, hsize, add_zero, add_assoc]
  · have hdrop : script.drop (i + 1 + sizeLength pop.opcode) = pop.data ++ rest := by
      rw [← drop_drop, htail, drop_left' (length_putLE _ _)]
    rw [if_neg (by omega), if_neg (by omega), sliceFrom_eq (by omega), ok_bind]
    rw [if_neg (by rw [length_drop, ← sizeLength]; omega), ← sizeLength,
      pushLength_eq hn (length_putLE _ _) htail, ok_bind, getLE_putLE_of_lt (hpop.sized hl)]
    rw [sliceFrom_eq (by omega), ok_bind, if_neg (by rw [length_drop]; omega),
      slice_of_drop hdrop (by omega), ok_bind]

theorem slice_append_drop {a b : Nat} (h : a ≤ b) :
    (script.take b).drop a ++ script.drop b = script.drop a := by
  rw [drop_take, ← Nat.add_sub_of_le h, ← drop_drop, Nat.add_sub_cancel_left, take_append_drop]

/-- What is read is an opcode that stands there. -/
theorem encode_of_parseOpcode (hi : i < script.length) (h : parseOpcode script i = .ok (pop, j)) :
    pop.Sized ∧ script.drop i = pop.encode ++ script.drop j ∧ i < j := by
  have hhead : script.drop i = script[i] :: script.drop (i + 1) := drop_eq_getElem_cons hi
  rw [parseOpcode, get_eq (List.getElem?_eq_getElem hi), ok_bind] at h
  generalize script[i] = instr at hhead h
  dsimp only at h
  rcases opcodeLength_cases instr with hl | hl | ⟨hl, hn⟩
  · rw [if_pos hl] at h
    cases h
    refine ⟨⟨⟨fun _ => rfl, fun hpush => ?_⟩, fun hneg => ?_⟩, ?_, Nat.lt_succ_self i⟩
    · exact absurd hpush (by dsimp only; omega)
    · exact absurd hneg (by dsimp only; omega)
    · rw [hhead, encode, sizeLength_of_pos (hl ▸ Int.one_pos)]
      rfl
  · have hpos : 0 < opcodeLength instr := by omega
    rw [if_neg (by omega), if_pos hl, sliceFrom_eq (by omega), ok_bind] at h
    split_ifs at h with hlen
    rw [length_drop] at hlen
    rw [slice_eq (by omega) (by omega), ok_bind] at h
    cases h
    refine ⟨⟨⟨fun hbare => ?_, fun _ => ?_⟩, fun hneg => ?_⟩, ?_, by omega⟩
    · exact absurd hbare (by dsimp only; omega)
    · simp only [length_drop, length_take]
      omega
    · exact absurd hneg (by dsimp only; omega)
    · rw [hhead, encode, sizeLength_of_pos hpos, putLE, nil_append, cons_append,
        slice_append_drop (by omega)]
  · rw [if_neg (by omega), if_neg (by omega), sliceFrom_eq (by omega), ok_bind,
      ← sizeLength] at h
    split_ifs at h with hlen
    rw [length_drop] at hlen
    have hsize : ((script.drop (i + 1)).take (sizeLength instr)).length = sizeLength instr := by
      rw [length_take, length_drop]
      omega
    have hdrop : script.drop (i + 1) = (script.drop (i + 1)).take (sizeLength instr) ++
        script.drop (i + 1 + sizeLength instr) := by
      rw [← @List.drop_drop _ _ (i + 1), take_append_drop]
    rw [pushLength_eq hn hsize hdrop, ok_bind, sliceFrom_eq (by omega), ok_bind] at h
    have hput := putLE_getLE ((script.drop (i + 1)).take (sizeLength instr))
    have hlt := getLE_lt ((script.drop (i + 1)).take (sizeLength instr))
    rw [hsize] at hput hlt
    generalize getLE ((script.drop (i + 1)).take (sizeLength instr)) = l at h hput hlt
    split_ifs at h with hl'
    rw [length_drop] at hl'
    rw [slice_eq (by omega) (by omega), ok_bind] at h
    cases h
    have hdata : ((script.take (i + 1 + sizeLength instr + l)).drop
        (i + 1 + sizeLength instr)).length = l := by
      simp only [length_drop, length_take]
      omega
    refine ⟨⟨⟨fun hbare => ?_, fun hpush => ?_⟩, fun _ => ?_⟩, ?_, by omega⟩
    · exact absurd hbare (by dsimp only; omega)
    · exact absurd hpush (by dsimp only; omega)
    · rwa [hdata]
    · rw [hhead, hdrop, encode, hdata, hput, cons_append, append_assoc,
        show i + (1 + sizeLength instr + l) = i + 1 + sizeLength instr + l by omega,
        slice_append_drop (by omega)]

/-! ## Scripts -/

theorem parseLoop_encode (hpops : ∀ pop ∈ pops, pop.Sized)
    (h : script.drop i = pops.flatMap (·.encode)) (hfuel : pops.length ≤ fuel) :
    parseLoop script fuel i pops' = .ok (pops' ++ pops) := by
  induction pops generalizing i pops' fuel with
  | nil =>
    have hend : ¬ i < script.length := not_lt.2 (drop_eq_nil_iff.1 h)
    cases fuel <;> rw [parseLoop, if_neg hend, append_nil]
  | cons pop pops ih =>
    obtain ⟨hpop, hpops⟩ := forall_mem_cons.1 hpops
    cases fuel with
    | zero => cases hfuel
    | succ fuel =>
      rw [flatMap_cons] at h
      have hlt : i < script.length := by
        have hlen := congrArg List.length h
        rw [length_drop, length_append, encode_length] at hlen
        omega
      have hnext : script.drop (i + pop.encode.length) = pops.flatMap (·.encode) := by
        rw [← drop_drop, h, drop_left]
      rw [parseLoop, if_pos hlt, parseOpcode_encode hpop h, ok_bind]
      dsimp only
      rw [ih hpops hnext (Nat.le_of_succ_le_succ hfuel), append_assoc, singleton_append]

theorem encode_of_parseLoop (h : parseLoop script fuel i pops' = .ok pops) :
    ∃ new, pops = pops' ++ new ∧ (∀ pop ∈ new, pop.Sized) ∧
      script.drop i = new.flatMap (·.encode) := by
  have hdone : ∀ {k}, ¬ k < script.length → script.drop k = ([] : List ParsedOpcode).flatMap
      (·.encode) := fun hk => drop_eq_nil_of_le (not_lt.1 hk)
  induction fuel generalizing i pops' with
  | zero =>
    rw [parseLoop] at h
    split_ifs at h with hi
    cases h
    exact ⟨[], (append_nil _).symm, forall_mem_nil _, hdone hi⟩
  | succ fuel ih =>
    rw [parseLoop] at h
    split_ifs at h with hi
    · obtain ⟨⟨pop, j⟩, hpop, h⟩ := bind_eq_ok.1 h
      obtain ⟨hsized, hdrop, -⟩ := encode_of_parseOpcode hi hpop
      obtain ⟨new, rfl, hnew, hrest⟩ := ih h
      refine ⟨pop :: new, append_assoc .., forall_mem_cons.2 ⟨hsized, hnew⟩, ?_⟩
      rw [hdrop, hrest, flatMap_cons]
    · cases h
      exact ⟨[], (append_nil _).symm, forall_mem_nil _, hdone hi⟩

theorem length_le_flatMap_encode (pops : List ParsedOpcode) :
    pops.length ≤ (pops.flatMap (·.encode)).length := by
  induction pops with
  | nil => exact le_refl 0
  | cons pop pops ih =>
    rw [flatMap_cons, length_append, encode_length, length_cons]
    omega

/-- A script parses to the opcodes that it is the encoding of. -/
theorem parseScript_eq_ok : parseScript script = .ok pops ↔
      (∀ pop ∈ pops, pop.Sized) ∧ script = pops.flatMap (·.encode) := by
  constructor
  · intro h
    obtain ⟨new, rfl, hnew, hdrop⟩ := encode_of_parseLoop h
    exact ⟨hnew, hdrop⟩
  · rintro ⟨hpops, rfl⟩
    exact parseLoop_encode hpops rfl (length_le_flatMap_encode pops)

theorem unparseScript_eq (h : ∀ pop ∈ pops, pop.Sized) :
    unparseScript pops = .ok (pops.flatMap (·.encode)) := by
  have hfold : ∀ acc : List UInt8, (pops.foldlM (fun script pop => do
      let b ← pop.bytes
      return script ++ b) acc : Except (Fault ScriptError) _) =
        .ok (acc ++ pops.flatMap (·.encode)) := by
    induction pops with
    | nil => exact fun acc => congrArg Except.ok (append_nil acc).symm
    | cons pop pops ih =>
      intro acc
      obtain ⟨hpop, hpops⟩ := forall_mem_cons.1 h
      rw [foldlM_cons, bytes_eq hpop, flatMap_cons, ← append_assoc]
      exact ih hpops _
  exact hfold []

/-- **Parsing is lossless and compositional, and stays inside of the script.** -/
theorem parseScript_lossless :
    (∀ script pops, parseScript script = .ok pops → unparseScript pops = .ok script) ∧
      (∀ s t pops pops', parseScript s = .ok pops → parseScript t = .ok pops' →
        parseScript (s ++ t) = .ok (pops ++ pops')) ∧
      ∀ script, Safe (parseScript script) := by
  refine ⟨fun script pops h => ?_, fun s t pops pops' hs ht => ?_, fun script => ?_⟩
  · obtain ⟨hpops, rfl⟩ := parseScript_eq_ok.1 h
    exact unparseScript_eq hpops
  · obtain ⟨hpops, rfl⟩ := parseScript_eq_ok.1 hs
    obtain ⟨hpops', rfl⟩ := parseScript_eq_ok.1 ht
    rw [← flatMap_append]
    exact parseScript_eq_ok.2 ⟨forall_mem_append.2 ⟨hpops, hpops'⟩, rfl⟩
  · exact (parseScript_safely script).safe

theorem parseScript_lossless_pushes : unparseScript [⟨0x02, [0xaa, 0xbb]⟩, ⟨0x4c, [0x07]⟩] =
        .ok ([0x02, 0xaa, 0xbb] ++ [0x4c, 0x01, 0x07]) ∧
      Safe (parseScript [0x4e, 0xff, 0xff, 0xff, 0xff, 0x00]) :=
  ⟨parseScript_lossless.1 _ _ (parseScript_lossless.2.1 _ _ _ _
    (show parseScript _ = .ok [⟨0x02, [0xaa, 0xbb]⟩] by decide +kernel)
    (show parseScript _ = .ok [⟨0x4c, [0x07]⟩] by decide +kernel)), parseScript_lossless.2.2 _⟩

end Fnod
