namespace ConfidentialTx

inductive PrimitiveError
  | incapableContext
  | incorrectSignature
  | invalidMessage
  | invalidPublicKey
  | invalidCommit
  | invalidSignature
  | invalidSecretKey
  | invalidRecoveryId
  | incorrectCommitSum
  | invalidRangeProof
  | partialSigFailure
  | sigSubtractionFailure
  deriving DecidableEq, Repr

namespace PrimitiveError

def message : PrimitiveError → String
  | incapableContext => "secp: context does not have sufficient capabilities"
  | incorrectSignature => "secp: signature failed verification"
  | invalidMessage => "secp: message was not 32 bytes (do you need to hash?)"
  | invalidPublicKey => "secp: malformed public key"
  | invalidCommit => "secp: malformed commit"
  | invalidSignature => "secp: malformed signature"
  | invalidSecretKey => "secp: malformed or out-of-range secret key"
  | invalidRecoveryId => "secp: bad recovery id"
  | incorrectCommitSum => "secp: invalid pedersen commitment sum"
  | invalidRangeProof => "secp: invalid range proof"
  | partialSigFailure => "secp: partial sig (aggsig) failure"
  | sigSubtractionFailure => "secp: subtraction (aggsig) did not result in any valid signatures"

end PrimitiveError

inductive CurveError
  | invalidSecretKey
  | invalidPublicKey
  | invalidCommitment
  | commitmentMismatch
  | pointAtInfinity
  | invalidSignature
  | incorrectSignature
  | invalidRangeProof
  | invalidMessage
  | proofMessageTooLong (size : Nat)
  | incapableContext
  | lengthMismatch (found expected : Nat)
  deriving DecidableEq, Repr

namespace CurveError

def message : CurveError → String
  | invalidSecretKey => "Secret key is zero or not below the curve order"
  | invalidPublicKey => "Public key is not a valid curve point"
  | invalidCommitment => "Commitment does not encode a curve point"
  | commitmentMismatch => "Commitment does not open to the given value and blinding factor"
  | pointAtInfinity => "Result is the point at infinity"
  | invalidSignature => "Malformed signature"
  | incorrectSignature => "Signature does not verify"
  | invalidRangeProof => "Range proof is malformed or does not verify"
  | invalidMessage => "Message is not 32 bytes"
  | proofMessageTooLong size => s!"Proof message of `{size}` bytes exceeds the maximum"
  | incapableContext => "Context lacks the capability for this operation"
  | lengthMismatch found expected =>
    s!"Incorrect length for array copy, provided `{found}`, required `{expected}`."

def ofPrimitive : PrimitiveError → CurveError
  | .incapableContext => incapableContext
  | .incorrectSignature => incorrectSignature
  | .invalidMessage => invalidMessage
  | .invalidPublicKey => invalidPublicKey
  | .invalidCommit => invalidCommitment
  | .invalidSecretKey => invalidSecretKey
  | .incorrectCommitSum => pointAtInfinity
  | .invalidRangeProof => invalidRangeProof
  | .invalidSignature | .invalidRecoveryId | .partialSigFailure | .sigSubtractionFailure =>
    invalidSignature

/-- The place of an error in their order, by kind and then by its numbers. -/
def rank : CurveError → Nat × Nat × Nat
  | invalidSecretKey => (0, 0, 0)
  | invalidPublicKey => (1, 0, 0)
  | invalidCommitment => (2, 0, 0)
  | commitmentMismatch => (3, 0, 0)
  | pointAtInfinity => (4, 0, 0)
  | invalidSignature => (5, 0, 0)
  | incorrectSignature => (6, 0, 0)
  | invalidRangeProof => (7, 0, 0)
  | invalidMessage => (8, 0, 0)
  | proofMessageTooLong size => (9, size, 0)
  | incapableContext => (10, 0, 0)
  | lengthMismatch found expected => (11, found, expected)

def ble (a b : CurveError) : Bool :=
  let (i, j, k) := a.rank
  let (l, m, n) := b.rank
  i < l || (i = l && (j < m || (j = m && k ≤ n)))

end CurveError

end ConfidentialTx
