import ConfidentialTx.Json
import ConfidentialTx.Keychain.Error

namespace ConfidentialTx

structure KeychainConfig where
  /-- How many children are looked through for an identifier not met before. -/
  keySearchLimit : UInt32
  deriving DecidableEq

namespace KeychainConfig

def default : KeychainConfig := ⟨0⟩

def describe (config : KeychainConfig) : String :=
  "KeychainConfig \x7b key_search_limit: " ++ toString config.keySearchLimit.toNat ++ " \x7d"

def fieldName : String := "key_search_limit"

def limitOfJson : Json → Except JsonError UInt32
  | .natural n =>
    if n < UInt32.size then .ok (UInt32.ofNat n) else .error (.invalidValue (.natural n) "u32")
  | .negative n => .error (.invalidValue (.negative n) "u32")
  | found => .error (.invalidType found "u32")

/-- Reads an object, whose unknown fields do not matter, or a list of the fields. A field that is
missing has its default. -/
def ofJson : Json → Except JsonError KeychainConfig
  | .object fields =>
    match fields.lookup fieldName with
    | none => .ok default
    | some limit => (limitOfJson limit).map mk
  | .list [] => .ok default
  | .list (limit :: rest) => do
    let limit ← limitOfJson limit
    if rest = [] then return ⟨limit⟩ else throw (.tooManyItems (rest.length + 1))
  | found => .error (.invalidType found "struct KeychainConfig")

def toJson (config : KeychainConfig) : Json :=
  .object [(fieldName, .natural config.keySearchLimit.toNat)]

end KeychainConfig

namespace Identifier

def toJson (id : Identifier) : Json :=
  .text id.toHex

def ofJson : Json → Except JsonError Identifier
  | .text s => (ofHex s).mapError fun e ↦ .custom (KeychainError.invalidHex e).message
  | found => .error (.invalidType found "a hex-encoded key identifier")

end Identifier

end ConfidentialTx
