import ConfidentialTx.Bytes

namespace ConfidentialTx

/-- A buffer of which the first `size` bytes are the proof. Proofs are copied and compared with
their whole buffer. -/
structure RangeProof where
  buffer : FixedBytes 5134
  size : Nat

namespace RangeProof

def maxSize : Nat := 5134

def maxMessageSize : Nat := 2048

def bytes (proof : RangeProof) : Bytes :=
  proof.buffer.toList.take proof.size

/-- The size does not count. -/
instance : BEq RangeProof := ⟨fun a b ↦ a.buffer = b.buffer⟩

def empty : RangeProof := ⟨FixedBytes.zero, 0⟩

def ofBytes? (bs : Bytes) : Option RangeProof :=
  if bs.length ≤ maxSize then some ⟨FixedBytes.fit bs, bs.length⟩ else none

def flip (proof : RangeProof) (position : Nat) (mask : UInt8) : RangeProof :=
  { proof with
    buffer := ⟨proof.buffer.toList.modify position (· ^^^ mask), by
      rw [List.length_modify, proof.buffer.length_toList]⟩ }

end RangeProof

structure ProofRange where
  min : UInt64
  max : UInt64
  deriving DecidableEq

structure ProofInfo where
  success : Bool
  value : UInt64
  message : Bytes
  min : UInt64
  max : UInt64
  deriving DecidableEq

/-- The nonce does not belong to the proof, or the proof is not valid. -/
def ProofInfo.failed : ProofInfo := ⟨false, 0, [], 0, 0⟩

end ConfidentialTx
