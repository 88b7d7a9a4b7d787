import Fnod.Chaincfg.Chainhash

/-!
# Package `wire`: transactions

A transaction as it comes from the network, with the fields that the modelled code reads. The
counts, indexes and versions are unsigned and values are signed 64-bit numbers; they are numbers
here, and where a sum of values may wrap around the sum says so.
-/

namespace Fnod

def txTreeRegular : Int := 0

def txTreeStake : Int := 1

def nullBlockHeight : Nat := 0x00000000

def nullBlockIndex : Nat := 0xffffffff

def maxUint32 : Nat := 0xffffffff

/-- `OutPoint`: an output of an earlier transaction. -/
structure OutPoint where
  hash : Hash
  index : Nat
  tree : Int
deriving DecidableEq

/-- `TxIn`. The value, height and index are the fraud proof of the input. -/
structure TxIn where
  previousOutPoint : OutPoint
  valueIn : Int
  blockHeight : Nat
  blockIndex : Nat
  signatureScript : List UInt8
deriving DecidableEq

structure TxOut where
  value : Int
  version : Nat
  pkScript : List UInt8
deriving DecidableEq

structure MsgTx where
  version : Nat
  txIn : List TxIn
  txOut : List TxOut
  expiry : Nat
deriving DecidableEq

end Fnod
