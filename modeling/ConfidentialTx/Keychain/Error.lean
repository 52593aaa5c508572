import ConfidentialTx.Curve.Error
import ConfidentialTx.Keychain.Identifier

namespace ConfidentialTx

inductive KeychainError
  | invalidSeedSize (size : Nat)
  | invalidSliceSize (found expected : Nat)
  | invalidSecretKey
  | invalidPublicKey
  | depthOverflow
  | unknownKeyId (id : Identifier)
  | invalidHex (e : HexError)
  | curve (e : CurveError)
  deriving DecidableEq

namespace KeychainError

def message : KeychainError → String
  | invalidSeedSize size => s!"Seed must be 16, 32 or 64 bytes, got `{size}`"
  | invalidSliceSize found expected =>
    s!"Incorrect slice length, provided `{found}`, required `{expected}`"
  | invalidSecretKey => "Secret key is zero or not below the curve order"
  | invalidPublicKey => "Invalid public key"
  | depthOverflow => "Key depth cannot go past 255"
  | unknownKeyId id => s!"Key id {id.toHex} is not known to this keychain"
  | invalidHex e => "Invalid hex: " ++ e.message
  | curve e => "Secp256k1: " ++ e.message

def ofCurve : CurveError → KeychainError
  | .invalidSecretKey => invalidSecretKey
  | .invalidPublicKey => invalidPublicKey
  | e => curve e

end KeychainError

end ConfidentialTx
