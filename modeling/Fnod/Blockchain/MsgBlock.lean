import Fnod.Wire.BlockHeader

/-!
# `difficulty.go`: the work of a block

The difficulty bits of a header stand for a target, and the work of a block is the number of hashes
that are expected until one is below the target.
-/

namespace Fnod

def compactToBig (compact : UInt32) : Int :=
  let mantissa := (compact &&& 0x007fffff).toNat
  let isNegative := compact &&& 0x00800000 ≠ 0
  let exponent := (compact >>> 24).toNat
  let bn : Int :=
    if exponent ≤ 3 then (mantissa >>> (8 * (3 - exponent)) : Nat)
    else (mantissa <<< (8 * (exponent - 3)) : Nat)
  if isNegative then -bn else bn

def calcWork (bits : UInt32) : Nat :=
  let difficultyNum := compactToBig bits
  if difficultyNum ≤ 0 then 0 else 2 ^ 256 / (difficultyNum.toNat + 1)

end Fnod
