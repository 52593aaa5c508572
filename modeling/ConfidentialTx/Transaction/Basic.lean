import ConfidentialTx.Hash.Content
import ConfidentialTx.Keychain.SwitchCommitHash
import ConfidentialTx.RangeProof.Basic
import ConfidentialTx.Signature

namespace ConfidentialTx

def kernelMessage (fee lockHeight : UInt64) : Message :=
  ⟨List.replicate 16 0 ++ Bytes.bigEndian 8 fee.toNat ++ Bytes.bigEndian 8 lockHeight.toNat, by simp⟩

inductive OutputFeatures
  | plain
  | coinbase
  deriving DecidableEq, Repr

namespace OutputFeatures

def code : OutputFeatures → UInt8
  | plain => 0
  | coinbase => 1

def name : OutputFeatures → String
  | plain => "Plain"
  | coinbase => "Coinbase"

instance : Canonical OutputFeatures := ⟨fun f ↦ [f.code]⟩

end OutputFeatures

structure Input where
  commit : Commitment
  deriving DecidableEq

instance : Canonical Input := ⟨fun i ↦ i.commit.bytes.toList⟩

structure Output where
  features : OutputFeatures
  commit : Commitment
  switchCommitHash : SwitchCommitHash
  proof : RangeProof

namespace Output

instance : BEq Output :=
  ⟨fun a b ↦ a.features = b.features && a.commit = b.commit &&
    a.switchCommitHash = b.switchCommitHash && a.proof == b.proof⟩

/-- The range proof, which may be pruned, is left out. -/
instance : Canonical Output :=
  ⟨fun o ↦ encode o.features ++ o.commit.bytes.toList ++ encode o.switchCommitHash⟩

end Output

/-- What proves that a transaction balanced once its inputs and outputs are gone. -/
structure Kernel where
  excess : Commitment
  excessSig : Bytes
  fee : UInt64
  lockHeight : UInt64
  deriving DecidableEq

namespace Kernel

def message (k : Kernel) : Message :=
  kernelMessage k.fee k.lockHeight

instance : Canonical Kernel :=
  ⟨fun k ↦ encode k.fee ++ encode k.lockHeight ++ k.excess.bytes.toList ++
    Canonical.sized k.excessSig⟩

def describe (k : Kernel) : String :=
  "TxKernel \x7b excess: " ++ k.excess.describe ++ ", excess_sig: " ++ Hex.encode k.excessSig ++
    ", fee: " ++ toString k.fee.toNat ++ ", lock_height: " ++ toString k.lockHeight.toNat ++ " \x7d"

end Kernel

structure Transaction where
  inputs : List Input
  outputs : List Output
  fee : UInt64
  lockHeight : UInt64
  /-- Empty until the transaction is finished. -/
  excessSig : Bytes

namespace Transaction

def empty : Transaction := ⟨[], [], 0, 0, []⟩

instance : BEq Transaction :=
  ⟨fun a b ↦ a.inputs == b.inputs && a.outputs == b.outputs && a.fee == b.fee &&
    a.lockHeight == b.lockHeight && a.excessSig == b.excessSig⟩

def addInput (tx : Transaction) (input : Input) : Transaction :=
  { tx with inputs := tx.inputs ++ [input] }

def addOutput (tx : Transaction) (output : Output) : Transaction :=
  { tx with outputs := tx.outputs ++ [output] }

def withExcessSig (tx : Transaction) (sig : Signature) : Transaction :=
  { tx with excessSig := sig.toCompact }

def message (tx : Transaction) : Message :=
  kernelMessage tx.fee tx.lockHeight

instance : Canonical Transaction :=
  ⟨fun tx ↦ encode tx.fee ++ encode tx.lockHeight ++ Canonical.sized tx.excessSig ++
    encode tx.inputs ++ encode tx.outputs⟩

end Transaction

end ConfidentialTx
