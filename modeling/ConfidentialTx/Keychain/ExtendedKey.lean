import ConfidentialTx.Keychain.Blinding

namespace ConfidentialTx

@[ext] structure ExtendedKey where
  depth : UInt8
  childIndex : UInt32
  /-- The identifier of the parent, or of a root key itself. -/
  rootKeyId : Identifier
  chainCode : FixedBytes 32
  secretKey : SecretKey
  deriving DecidableEq

namespace ExtendedKey

def size : Nat := 79

def seedKey : Blake2b.Key :=
  ⟨"Mimble seed".toUTF8.data.toList, by decide⟩

def identifier (cap : Capability) (key : ExtendedKey) : Except KeychainError Identifier :=
  match key.secretKey.publicKey cap with
  | .ok publicKey => .ok (.ofPublicKey publicKey.compress)
  | .error e => .error (.ofCurve e)

/-- A key as it is before its identifier is known. -/
def seeded (secretKey : SecretKey) (chainCode : FixedBytes 32) : ExtendedKey :=
  ⟨0, 0, .zero, chainCode, secretKey⟩

def ofSeed (cap : Capability) (seed : Bytes) : Except KeychainError ExtendedKey := do
  unless seed.length ∈ [16, 32, 64] do throw (.invalidSeedSize seed.length)
  let material := Blake2b.keyedHash 64 seedKey [seed]
  match SecretKey.ofBytes (material.toList.take 32) with
  | .error _ => throw .invalidSecretKey
  | .ok secretKey =>
    let key := seeded secretKey (.fit (material.toList.drop 32))
    return { key with rootKeyId := ← key.identifier cap }

def childMaterial (key : ExtendedKey) (index : UInt32) : FixedBytes 64 :=
  Blake2b.keyedHash 64 (.ofFixed key.chainCode)
    [key.secretKey.toBytes.toList, Bytes.bigEndian 4 index.toNat]

def derive (cap : Capability) (key : ExtendedKey) (index : UInt32) :
    Except KeychainError ExtendedKey := do
  if key.depth = 255 then throw .depthOverflow
  let material := key.childMaterial index
  match key.secretKey.tweakAdd (.fit (material.toList.take 32)) with
  | .error _ => throw .invalidSecretKey
  | .ok secretKey =>
    return {
      depth := key.depth + 1
      childIndex := index
      rootKeyId := ← key.identifier cap
      chainCode := .fit (material.toList.drop 32)
      secretKey }

def toBytes (key : ExtendedKey) : Bytes :=
  key.depth :: key.rootKeyId.bytes.toList ++ Bytes.bigEndian 4 key.childIndex.toNat ++
    key.chainCode.toList ++ key.secretKey.toBytes.toList

def ofBytes (bs : Bytes) : Except KeychainError ExtendedKey :=
  if bs.length ≠ size then .error (.invalidSliceSize bs.length size)
  else
    match SecretKey.ofBytes (bs.drop 47) with
    | .error _ => .error .invalidSecretKey
    | .ok secretKey => .ok {
        depth := bs.headD 0
        childIndex := UInt32.ofNat (Bytes.toNat ((bs.drop 11).take 4))
        rootKeyId := .ofBytes ((bs.drop 1).take 10)
        chainCode := .fit ((bs.drop 15).take 32)
        secretKey }

def describe (key : ExtendedKey) : String :=
  "ExtendedKey \x7b depth: " ++ toString key.depth.toNat ++ ", child_index: " ++
    toString key.childIndex.toNat ++ ", root_key_id: " ++ key.rootKeyId.describe ++ ", .. \x7d"

end ExtendedKey

end ConfidentialTx
