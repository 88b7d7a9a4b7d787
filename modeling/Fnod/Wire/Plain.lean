import Fnod.Wire.MsgTx
import Fnod.Wire.TxCodec

/-!
# Transactions as the chain code reads them

A transaction as it is sent has words of fixed size and fields that the rules of the chain do not
read. The chain code reads numbers (`MsgTx.plain`).
-/

namespace Fnod

/-- The input as the chain code reads it. -/
def Wire.TxIn.plain (txIn : Wire.TxIn) : Fnod.TxIn where
  previousOutPoint := ⟨txIn.previousOutPoint.hash, txIn.previousOutPoint.index.toNat,
    txIn.previousOutPoint.tree.toInt⟩
  valueIn := txIn.valueIn.toInt
  blockHeight := txIn.blockHeight.toNat
  blockIndex := txIn.blockIndex.toNat
  signatureScript := txIn.signatureScript

/-- The output as the chain code reads it. -/
def Wire.TxOut.plain (txOut : Wire.TxOut) : Fnod.TxOut :=
  ⟨txOut.value.toInt, txOut.version.toNat, txOut.pkScript⟩

def Wire.MsgTx.plain (msgTx : Wire.MsgTx) : Fnod.MsgTx where
  version := msgTx.version.toNat
  txIn := msgTx.txIn.map Wire.TxIn.plain
  txOut := msgTx.txOut.map Wire.TxOut.plain
  expiry := msgTx.expiry.toNat

end Fnod
