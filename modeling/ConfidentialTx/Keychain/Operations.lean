import ConfidentialTx.Keychain.Program
import ConfidentialTx.Keychain.SwitchCommitHash
import ConfidentialTx.RangeProof.Rewind
import ConfidentialTx.Signature

namespace ConfidentialTx.Keychain

def deriveKeyId (index : UInt32) : Keyed KeychainError Identifier :=
  ExceptT.mk (.derive index .done)

def secretKey (id : Identifier) : Keyed KeychainError SecretKey :=
  ExceptT.mk (.resolve id .done)

def commit (value : UInt64) (id : Identifier) : Keyed KeychainError Commitment := do
  let key ← secretKey id
  .ofCurve (Commitment.commit .commit value key)

def commitWithKeyIndex (value : UInt64) (index : UInt32) : Keyed KeychainError Commitment := do
  commit value (← deriveKeyId index)

def switchCommit (id : Identifier) : Keyed KeychainError Commitment := do
  let key ← secretKey id
  .ofCurve (Commitment.commitSwitch .commit key)

def switchCommitHash (id : Identifier) : Keyed KeychainError SwitchCommitHash := do
  let key ← secretKey id
  let c ← Keyed.ofCurve (Commitment.commitSwitch .commit key)
  return .ofCommitment c key.toBytes

def rangeProof (value : UInt64) (id : Identifier) (c : Commitment) (message : Bytes) :
    Keyed KeychainError RangeProof := do
  let key ← secretKey id
  .ofCurve (RangeProof.prove .commit value key c message)

def verifyRangeProof (c : Commitment) (proof : RangeProof) : Keyed KeychainError ProofRange :=
  .ofCurve (RangeProof.verify .commit c proof)

/-- The nonce of a proof is the key that blinds its commitment. -/
def rewindRangeProof (id : Identifier) (c : Commitment) (proof : RangeProof) :
    Keyed KeychainError ProofInfo := do
  let key ← secretKey id
  .ofCurve (RangeProof.rewind .commit c proof key)

def sign (msg : Message) (id : Identifier) : Keyed KeychainError Signature := do
  let key ← secretKey id
  .ofCurve (Signature.sign .commit msg key)

def signWithBlinding (msg : Message) (blind : BlindingFactor) : Keyed KeychainError Signature := do
  let key ← Keyed.ofExcept blind.toSecretKey
  .ofCurve (Signature.sign .commit msg key)

def secretKeys : List Identifier → Keyed KeychainError (List SecretKey)
  | [] => return []
  | id :: ids => do
    let key ← secretKey id
    return key :: (← secretKeys ids)

/-- The positive contributions less the negative ones. Factors that are zero add nothing. -/
def blindSum (sum : BlindSum) : Keyed KeychainError BlindingFactor := do
  let positive ← secretKeys sum.positiveKeyIds
  let negative ← secretKeys sum.negativeKeyIds
  let factors (bs : List BlindingFactor) := bs.filterMap fun b ↦ SecretKey.ofScalar? b.scalar
  return ⟨SecretKey.blindSum (positive ++ factors sum.positiveFactors)
    (negative ++ factors sum.negativeFactors)⟩

end ConfidentialTx.Keychain
