import ConfidentialTx.Transaction.Error

namespace ConfidentialTx

inductive BuilderError
  | keychain (e : KeychainError)
  | transaction (e : TransactionError)
  | curve (e : CurveError)
  deriving DecidableEq

namespace BuilderError

def message : BuilderError → String
  | keychain e => "Keychain: " ++ e.message
  | transaction e => "Transaction: " ++ e.message
  | curve e => "Secp256k1: " ++ e.message

end BuilderError

end ConfidentialTx
