import ConfidentialTx.Keychain.Error

namespace ConfidentialTx

inductive TransactionError
  | invalidRangeProof
  | missingSignature
  | overageTooLarge (overage : Int)
  | curve (e : CurveError)
  | keychain (e : KeychainError)
  deriving DecidableEq

namespace TransactionError

def message : TransactionError → String
  | invalidRangeProof => "All range proofs in the transaction must be valid"
  | missingSignature => "The transaction has no excess signature"
  | overageTooLarge overage => s!"Overage {overage} does not fit in a value commitment"
  | curve e => "Secp256k1: " ++ e.message
  | keychain e => "Keychain: " ++ e.message

def ofCurve : CurveError → TransactionError
  | .invalidRangeProof => invalidRangeProof
  | e => curve e

end TransactionError

end ConfidentialTx
