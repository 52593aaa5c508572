import ConfidentialTx.Curve.Keys
import ConfidentialTx.Keychain.Error

namespace ConfidentialTx

/-- A scalar; unlike a secret key it may be zero. -/
@[ext] structure BlindingFactor where
  scalar : Scalar
  deriving DecidableEq

namespace BlindingFactor

def zero : BlindingFactor := ⟨0⟩

def ofBytes (bs : Bytes) : Except KeychainError BlindingFactor :=
  match (FixedBytes.ofList? bs : Option (FixedBytes 32)) with
  | none => .error (.invalidSliceSize bs.length 32)
  | some b =>
    match Scalar.ofBytes? b with
    | none => .error .invalidSecretKey
    | some a => .ok ⟨a⟩

def ofSecretKey (key : SecretKey) : BlindingFactor := ⟨key.scalar⟩

def toBytes (b : BlindingFactor) : FixedBytes 32 :=
  b.scalar.toBytes

def toHex (b : BlindingFactor) : String :=
  b.toBytes.toHex

def isZero (b : BlindingFactor) : Bool :=
  b.scalar = 0

def toSecretKey (b : BlindingFactor) : Except KeychainError SecretKey :=
  match SecretKey.ofScalar? b.scalar with
  | some key => .ok key
  | none => .error .invalidSecretKey

/-- The text that stands for a blinding factor in messages, which must not show it. -/
def describe : String := "BlindingFactor(<redacted>)"

end BlindingFactor

structure BlindSum where
  positiveKeyIds : List Identifier
  negativeKeyIds : List Identifier
  positiveFactors : List BlindingFactor
  negativeFactors : List BlindingFactor
  deriving DecidableEq

namespace BlindSum

def empty : BlindSum := ⟨[], [], [], []⟩

def addKeyId (sum : BlindSum) (id : Identifier) : BlindSum :=
  { sum with positiveKeyIds := sum.positiveKeyIds ++ [id] }

def subKeyId (sum : BlindSum) (id : Identifier) : BlindSum :=
  { sum with negativeKeyIds := sum.negativeKeyIds ++ [id] }

def addFactor (sum : BlindSum) (b : BlindingFactor) : BlindSum :=
  { sum with positiveFactors := sum.positiveFactors ++ [b] }

def subFactor (sum : BlindSum) (b : BlindingFactor) : BlindSum :=
  { sum with negativeFactors := sum.negativeFactors ++ [b] }

def describe (sum : BlindSum) : String :=
  let listed (items : List String) := "[" ++ ", ".intercalate items ++ "]"
  "BlindSum \x7b positive_key_ids: " ++ listed (sum.positiveKeyIds.map Identifier.describe) ++
    ", negative_key_ids: " ++ listed (sum.negativeKeyIds.map Identifier.describe) ++
    ", positive_blinding_factors: " ++
    listed (sum.positiveFactors.map fun _ ↦ BlindingFactor.describe) ++
    ", negative_blinding_factors: " ++
    listed (sum.negativeFactors.map fun _ ↦ BlindingFactor.describe) ++ " \x7d"

end BlindSum

end ConfidentialTx
