import Fnod.Txscript.Standard

/-!
# `script.go`: what can be told from a script without running it

Whether an output can be spent at all, and how many signature checks a script asks for. A script
that does not parse is read up to the place of the error (`parsedUpTo`).
-/

namespace Fnod

open Except

def OP_CHECKSIGVERIFY : UInt8 := 0xad
def OP_CHECKMULTISIGVERIFY : UInt8 := 0xaf
def OP_CHECKSIGALTVERIFY : UInt8 := 0xbf

def maxPubKeysPerMultiSig : Nat := 20

/-- The opcodes before the first error, which `parseScript` returns beside the error. -/
def parsedUpToLoop (script : List UInt8) : Nat → Nat → List ParsedOpcode → List ParsedOpcode
  | 0, _, retScript => retScript
  | fuel + 1, i, retScript =>
    if i < script.length then
      match parseOpcode script i with
      | .ok (pop, i) => parsedUpToLoop script fuel i (retScript ++ [pop])
      | .error _ => retScript
    else retScript

variable (script : List UInt8)

/-- The opcodes of a script up to the first error. -/
def parsedUpTo : List ParsedOpcode :=
  parsedUpToLoop script script.length 0 []

/-- `getSigOpCount`, from the opcode before. -/
def sigOpCountFrom (precise : Bool) : Option ParsedOpcode → List ParsedOpcode → Nat
  | _, [] => 0
  | before, pop :: pops =>
    let n :=
      if pop.opcode = OP_CHECKSIG ∨ pop.opcode = OP_CHECKSIGVERIFY ∨ pop.opcode = OP_CHECKSIGALT ∨
          pop.opcode = OP_CHECKSIGALTVERIFY then 1
      else if pop.opcode = OP_CHECKMULTISIG ∨ pop.opcode = OP_CHECKMULTISIGVERIFY then
        match before with
        | some count =>
          if precise ∧ OP_1 ≤ count.opcode ∧ count.opcode ≤ OP_16 then asSmallInt count.opcode
          else maxPubKeysPerMultiSig
        | none => maxPubKeysPerMultiSig
      else 0
    n + sigOpCountFrom precise (some pop) pops

/-- `getSigOpCount`. -/
def sigOpCount (pops : List ParsedOpcode) (precise : Bool) : Nat := sigOpCountFrom precise none pops

def getSigOpCount : Nat := sigOpCount (parsedUpTo script) false

def isPushOnly (pops : List ParsedOpcode) : Bool := pops.all fun pop => pop.opcode ≤ OP_16

/-- `GetPreciseSigOpCount`. A script that pays to a script hash is counted by the script that the
signature script pushes last. -/
def getPreciseSigOpCount (scriptSig scriptPubKey : List UInt8) (bip16 : Bool) : Nat :=
  let pops := parsedUpTo scriptPubKey
  if !(bip16 && isScriptHash pops) then sigOpCount pops true
  else
    match parseScript scriptSig with
    | .error _ => 0
    | .ok sigPops =>
      match sigPops.getLast? with
      | none => 0
      | some last =>
        if !isPushOnly sigPops || last.data.isEmpty then 0
        else sigOpCount (parsedUpTo last.data) true

def isPayToScriptHash : Bool :=
  match parseScript script with
  | .ok pops => isScriptHash pops
  | .error _ => false

/-- `IsUnspendable`. Outputs without value count as unspendable too. -/
def isUnspendable (amount : Int) (pkScript : List UInt8) : Bool :=
  if amount = 0 then true
  else
    match parseScript pkScript with
    | .error _ => true
    | .ok pops =>
      match pops with
      | [] => false
      | pop :: _ => pop.opcode = OP_RETURN

end Fnod
