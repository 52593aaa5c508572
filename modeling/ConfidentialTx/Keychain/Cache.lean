import ConfidentialTx.Keychain.Config
import ConfidentialTx.Keychain.ExtendedKey
import ConfidentialTx.Log

namespace ConfidentialTx

/-- The latest entry for a key hides those before it. -/
structure KeyCache where
  keys : List (Identifier × ExtendedKey)
  indices : List (UInt32 × Identifier)

namespace KeyCache

def empty : KeyCache := ⟨[], []⟩

def key? (cache : KeyCache) (id : Identifier) : Option ExtendedKey :=
  cache.keys.lookup id

def id? (cache : KeyCache) (index : UInt32) : Option Identifier :=
  cache.indices.lookup index

def insert (cache : KeyCache) (index : UInt32) (id : Identifier) (key : ExtendedKey) : KeyCache :=
  ⟨(id, key) :: cache.keys, (index, id) :: cache.indices⟩

end KeyCache

structure KeyRoot where
  key : ExtendedKey
  config : KeychainConfig

namespace KeyRoot

def id (root : KeyRoot) : Identifier :=
  root.key.rootKeyId

def ofSeed (config : KeychainConfig) (seed : Bytes) :
    ExceptT KeychainError Logged KeyRoot := do
  let key ← ExceptT.mk (pure (ExtendedKey.ofSeed .commit seed))
  let root : KeyRoot := ⟨key, config⟩
  Logged.log (.keychainCreated root.id config.keySearchLimit)
  return root

def describe (root : KeyRoot) : String :=
  "Keychain \x7b root_key_id: " ++ root.id.describe ++ ", config: " ++ root.config.describe ++
    ", .. \x7d"

def child (root : KeyRoot) (index : UInt32) : Except KeychainError (ExtendedKey × Identifier) := do
  let key ← root.key.derive .commit index
  return (key, ← key.identifier .commit)

def derive (root : KeyRoot) (index : UInt32) (cache : KeyCache) :
    Logged (Except KeychainError Identifier × KeyCache) :=
  match cache.id? index with
  | some id => pure (.ok id, cache)
  | none =>
    match root.child index with
    | .error e => pure (.error e, cache)
    | .ok (key, id) => do
      Logged.log (.keyDerived id index)
      return (.ok id, cache.insert index id key)

/-- Looks for an identifier among the children at `index` and the `count - 1` indices after it. -/
def search (root : KeyRoot) (id : Identifier) :
    Nat → UInt32 → KeyCache → Logged (Except KeychainError SecretKey × KeyCache)
  | 0, _, cache => do
    Logged.log (.keyNotFound id root.config.keySearchLimit)
    return (.error (.unknownKeyId id), cache)
  | count + 1, index, cache => do
    let (derived, cache) ← root.derive index cache
    match derived with
    | .error e => return (.error e, cache)
    | .ok found =>
      if found = id then
        Logged.log (.keyFound id index)
        match cache.key? id with
        | some key => return (.ok key.secretKey, cache)
        | none => return (.error (.unknownKeyId id), cache)
      else search root id count (index + 1) cache

/-- The secret key of an identifier: that of the root, of a child in the cache, or of one of the
first children. -/
def resolve (root : KeyRoot) (id : Identifier) (cache : KeyCache) :
    Logged (Except KeychainError SecretKey × KeyCache) :=
  if id = root.id then pure (.ok root.key.secretKey, cache)
  else
    match cache.key? id with
    | some key => pure (.ok key.secretKey, cache)
    | none => root.search id root.config.keySearchLimit.toNat 0 cache

end KeyRoot

end ConfidentialTx
