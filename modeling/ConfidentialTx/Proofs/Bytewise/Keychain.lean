import Mathlib
import ConfidentialTx.Proofs.Bytewise.Checks
import ConfidentialTx.Proofs.Keychain.Program

namespace ConfidentialTx

theorem SecretKey.tweakAdd_eq_error {key : SecretKey} {tweak : FixedBytes 32} {e : CurveError}
    (h : key.tweakAdd tweak = .error e) : e = .invalidSecretKey := by
  unfold tweakAdd at h
  split at h
  · exact (Except.error.inj h).symm
  · cases h

namespace Bytewise

/-- An extended key with any 32 bytes as its secret key. -/
structure Key where
  depth : UInt8
  childIndex : UInt32
  rootKeyId : Identifier
  chainCode : FixedBytes 32
  secret : FixedBytes 32

namespace Key

def of (key : ExtendedKey) : Key :=
  ⟨key.depth, key.childIndex, key.rootKeyId, key.chainCode, key.secretKey.toBytes⟩

def identifier (cap : Capability) (key : Key) : Trusting KeychainError Identifier := do
  let publicKey ← (Library.publicKey cap key.secret).mapError .ofCurve
  return .ofPublicKey publicKey.compress

def ofSeed (cap : Capability) (seed : Bytes) : Trusting KeychainError Key := do
  if seed.length ∈ [16, 32, 64] then
    let material ← Library.keyedHash 64 "Mimble seed".toUTF8.data.toList [seed]
    match secretKeyOfBytes (material.toList.take 32) with
    | .error _ => throw .invalidSecretKey
    | .ok secret =>
      let key : Key := ⟨0, 0, .zero, .fit (material.toList.drop 32), secret⟩
      return { key with rootKeyId := ← key.identifier cap }
  else throw (.invalidSeedSize seed.length)

/-- The tweak is looked at before it is added. -/
def derive (cap : Capability) (key : Key) (index : UInt32) : Trusting KeychainError Key := do
  if key.depth = 255 then throw .depthOverflow
  else
    let material ← Library.keyedHash 64 key.chainCode.toList
      [key.secret.toList, Bytes.bigEndian 4 index.toNat]
    if scalarInRange (.fit (material.toList.take 32)) then
      let secret ←
        (Library.tweakAdd key.secret (.fit (material.toList.take 32))).mapError .ofCurve
      return {
        depth := key.depth + 1
        childIndex := index
        rootKeyId := ← key.identifier cap
        chainCode := .fit (material.toList.drop 32)
        secret }
    else throw .invalidSecretKey

def ofBytes (bs : Bytes) : Except KeychainError Key :=
  if bs.length ≠ ExtendedKey.size then .error (.invalidSliceSize bs.length ExtendedKey.size)
  else
    match secretKeyOfBytes (bs.drop 47) with
    | .error _ => .error .invalidSecretKey
    | .ok secret => .ok {
        depth := bs.headD 0
        childIndex := UInt32.ofNat (Bytes.toNat ((bs.drop 11).take 4))
        rootKeyId := .ofBytes ((bs.drop 1).take 10)
        chainCode := .fit ((bs.drop 15).take 32)
        secret }

theorem identifier_of (cap : Capability) (key : ExtendedKey) :
    (of key).identifier cap = .ofExcept (key.identifier cap) := by
  unfold identifier ExtendedKey.identifier
  rw [of, Library.publicKey_toBytes, Trusting.mapError_ofExcept]
  cases key.secretKey.publicKey cap <;> rfl

theorem ofSeed_eq (cap : Capability) (seed : Bytes) :
    ofSeed cap seed = .ofExcept ((ExtendedKey.ofSeed cap seed).map of) := by
  unfold ofSeed ExtendedKey.ofSeed
  by_cases hlength : seed.length ∈ [16, 32, 64]
  · rw [if_pos hlength, if_pos hlength]
    have hhash := @Library.keyedHash_bytes KeychainError 64 ExtendedKey.seedKey [seed]
    rw [show "Mimble seed".toUTF8.data.toList = ExtendedKey.seedKey.bytes from rfl, hhash,
      pure_bind, secretKeyOfBytes_eq]
    generalize Blake2b.keyedHash 64 ExtendedKey.seedKey [seed] = material
    cases hsecret : SecretKey.ofBytes (material.toList.take 32) with
    | error e =>
      simp only [hsecret]
      rfl
    | ok secret =>
      simp only [hsecret]
      have hid := identifier_of cap (.seeded secret (.fit (material.toList.drop 32)))
      change (do
        let id ← (of (.seeded secret (.fit (material.toList.drop 32)))).identifier cap
        return ({ of (.seeded secret (.fit (material.toList.drop 32))) with rootKeyId := id } :
          Key)) = _
      rw [hid]
      cases (ExtendedKey.seeded secret (.fit (material.toList.drop 32))).identifier cap <;> rfl
  · rw [if_neg hlength, if_neg hlength]
    rfl

theorem derive_of (cap : Capability) (key : ExtendedKey) (index : UInt32) :
    (of key).derive cap index = .ofExcept ((key.derive cap index).map of) := by
  unfold derive ExtendedKey.derive
  by_cases hdepth : key.depth = 255
  · rw [if_pos hdepth, if_pos (show (of key).depth = 255 from hdepth)]
    rfl
  · have hhash : (Library.keyedHash 64 (of key).chainCode.toList
        [(of key).secret.toList, Bytes.bigEndian 4 index.toNat] : Trusting KeychainError _) =
        pure (key.childMaterial index) := Library.keyedHash_bytes 64 (.ofFixed key.chainCode) _
    rw [if_neg hdepth, if_neg (show ¬(of key).depth = 255 from hdepth), hhash, pure_bind,
      identifier_of]
    generalize key.childMaterial index = material
    by_cases hrange : scalarInRange (.fit (material.toList.take 32)) = true
    · rw [if_pos hrange, show (of key).secret = key.secretKey.toBytes from rfl,
        Library.tweakAdd_toBytes _ hrange]
      cases hsum : key.secretKey.tweakAdd (.fit (material.toList.take 32)) with
      | error e =>
        obtain rfl := SecretKey.tweakAdd_eq_error hsum
        simp only [hsum]
        rfl
      | ok sum =>
        simp only [hsum]
        cases key.identifier cap <;> rfl
    · have hnone : Scalar.ofBytes? (.fit (material.toList.take 32)) = none := by
        rwa [scalarInRange, Option.isSome_iff_ne_none, not_not] at hrange
      rw [if_neg hrange]
      simp only [SecretKey.tweakAdd, hnone]
      rfl

theorem ofBytes_eq (bs : Bytes) : ofBytes bs = (ExtendedKey.ofBytes bs).map of := by
  unfold ofBytes ExtendedKey.ofBytes
  by_cases hlength : bs.length ≠ ExtendedKey.size
  · rw [if_pos hlength, if_pos hlength]
    rfl
  · rw [if_neg hlength, if_neg hlength, secretKeyOfBytes_eq]
    cases SecretKey.ofBytes (bs.drop 47) <;> rfl

end Key

structure Cache where
  keys : List (Identifier × Key)
  indices : List (UInt32 × Identifier)

namespace Cache

def of (cache : KeyCache) : Cache :=
  ⟨cache.keys.map fun entry ↦ (entry.1, .of entry.2), cache.indices⟩

theorem lookup_of (cache : KeyCache) (id : Identifier) :
    (of cache).keys.lookup id = (cache.key? id).map .of := by
  unfold KeyCache.key?
  change (cache.keys.map _).lookup id = _
  induction cache.keys with
  | nil => rfl
  | cons entry keys ih =>
    obtain ⟨found, key⟩ := entry
    rw [List.map_cons, List.lookup_cons, List.lookup_cons]
    cases id == found with
    | true => rfl
    | false => exact ih

end Cache

/-- Computations over a keychain, which may fail or give up. -/
abbrev Stateful (ε α : Type) := ExceptT ε (StateT Cache (Except Abort)) α

namespace Stateful

variable {ε δ α β : Type}

def ofTrusting (x : Trusting ε α) : Stateful ε α :=
  ExceptT.mk fun cache ↦ x.run.map fun r ↦ (r, cache)

def mapError (f : ε → δ) (x : Stateful ε α) : Stateful δ α :=
  ExceptT.mk fun cache ↦ (x.run.run cache).map fun r ↦ (r.1.mapError f, r.2)

def after (x : Stateful ε α) (cache : Cache) : Except Abort (Except ε α × Cache) :=
  x.run.run cache

theorem after_bind (x : Stateful ε α) (f : α → Stateful ε β) (cache : Cache) :
    (x >>= f).after cache = x.after cache >>= fun r ↦
      match r.1 with
      | .ok a => (f a).after r.2
      | .error e => .ok (.error e, r.2) := by
  unfold after
  rw [ExceptT.run_bind, StateT.run_bind]
  cases x.run.run cache with
  | error abort => rfl
  | ok r =>
    obtain ⟨answer, next⟩ := r
    cases answer <;> rfl

@[simp] theorem after_pure (a : α) (cache : Cache) :
    (pure a : Stateful ε α).after cache = .ok (.ok a, cache) := rfl

@[simp] theorem after_throw (e : ε) (cache : Cache) :
    (throw e : Stateful ε α).after cache = .ok (.error e, cache) := rfl

@[simp] theorem after_get (cache : Cache) :
    (get : Stateful ε Cache).after cache = .ok (.ok cache, cache) := rfl

@[simp] theorem after_set (next cache : Cache) :
    (set next : Stateful ε PUnit).after cache = .ok (.ok ⟨⟩, next) := rfl

@[simp] theorem after_ofExcept (r : Except ε α) (cache : Cache) :
    (ofTrusting (.ofExcept r)).after cache = .ok (r, cache) := rfl

theorem after_mapError (f : ε → δ) (x : Stateful ε α) (cache : Cache) :
    (x.mapError f).after cache = (x.after cache).map fun r ↦ (r.1.mapError f, r.2) := rfl

end Stateful

structure Root where
  key : Key
  config : KeychainConfig

namespace Root

def of (root : KeyRoot) : Root := ⟨.of root.key, root.config⟩

def derive (root : Root) (index : UInt32) : Stateful KeychainError Identifier := do
  let cache ← get
  match cache.indices.lookup index with
  | some id => return id
  | none =>
    let key ← .ofTrusting (root.key.derive .commit index)
    let id ← .ofTrusting (key.identifier .commit)
    set (⟨(id, key) :: cache.keys, (index, id) :: cache.indices⟩ : Cache)
    return id

def search (root : Root) (id : Identifier) :
    Nat → UInt32 → Stateful KeychainError (FixedBytes 32)
  | 0, _ => throw (.unknownKeyId id)
  | count + 1, index => do
    if (← root.derive index) = id then
      match (← get).keys.lookup id with
      | some key => return key.secret
      | none => throw (.unknownKeyId id)
    else search root id count (index + 1)

def secretKey (root : Root) (id : Identifier) : Stateful KeychainError (FixedBytes 32) := do
  if id = root.key.rootKeyId then return root.key.secret
  match (← get).keys.lookup id with
  | some key => return key.secret
  | none => root.search id root.config.keySearchLimit.toNat 0

end Root

variable {ε δ α β γ : Type} {root : KeyRoot} {cache : KeyCache}

/-- What a computation on keys leaves behind, as one on bytes would. -/
def outcome (rep : α → β) (r : Except ε α × KeyCache) : Except ε β × Cache :=
  (r.1.map rep, .of r.2)

theorem after_derive (root : KeyRoot) (index : UInt32) (cache : KeyCache) :
    ((Root.of root).derive index).after (.of cache) =
      .ok (outcome id (root.derive index cache).value) := by
  unfold Root.derive KeyRoot.derive KeyCache.id?
  simp only [Stateful.after_bind, Stateful.after_get, ok_bind]
  change (match cache.indices.lookup index with | some id => _ | none => _ : Stateful _ _).after _ = _
  cases cache.indices.lookup index with
  | some id => rfl
  | none =>
    simp only [Stateful.after_bind]
    rw [show (Root.of root).key = .of root.key from rfl, Key.derive_of]
    unfold KeyRoot.child
    cases root.key.derive .commit index with
    | error e => rfl
    | ok key =>
      simp only [Except.map, Stateful.after_ofExcept, ok_bind, Key.identifier_of]
      cases key.identifier .commit <;> rfl

theorem after_search (root : KeyRoot) (id : Identifier) (count : Nat) (index : UInt32)
    (cache : KeyCache) :
    ((Root.of root).search id count index).after (.of cache) =
      .ok (outcome SecretKey.toBytes (root.search id count index cache).value) := by
  induction count generalizing index cache with
  | zero => rfl
  | succ count ih =>
    rw [Root.search, KeyRoot.search, Stateful.after_bind, after_derive, Logged.value_bind]
    generalize (root.derive index cache).value = derived
    obtain ⟨answer, next⟩ := derived
    cases answer with
    | error e => rfl
    | ok found =>
      simp only [outcome, Except.map, ok_bind, id_eq]
      by_cases hfound : found = id
      · rw [if_pos hfound, if_pos hfound]
        simp only [Stateful.after_bind, Stateful.after_get, ok_bind, Cache.lookup_of]
        cases hkey : next.key? id with
        | none => simp
        | some key => rfl
      · rw [if_neg hfound, if_neg hfound]
        exact ih (index + 1) next

theorem after_secretKey (root : KeyRoot) (id : Identifier) (cache : KeyCache) :
    ((Root.of root).secretKey id).after (.of cache) =
      .ok (outcome SecretKey.toBytes (root.resolve id cache).value) := by
  unfold Root.secretKey KeyRoot.resolve
  change (ite (id = root.id) _ _ : Stateful _ _).after _ = _
  by_cases hroot : id = root.id
  · rw [if_pos hroot, if_pos hroot]
    rfl
  · rw [if_neg hroot, if_neg hroot]
    simp only [Stateful.after_bind, Stateful.after_get, ok_bind, Cache.lookup_of]
    cases cache.key? id with
    | some key => rfl
    | none => exact after_search root id _ 0 cache

end Bytewise

namespace KeyRoot

variable {root : KeyRoot} {cache : KeyCache}

def Holds (root : KeyRoot) (key : SecretKey) : Prop :=
  key = root.key.secretKey ∨
    ∃ index child id, root.child index = .ok (child, id) ∧ key = child.secretKey

theorem lookup_holds {id : Identifier} {count : Nat} {index : UInt32} {key : SecretKey}
    (h : root.lookup id count index = .ok key) : root.Holds key := by
  induction count generalizing index with
  | zero => cases h
  | succ count ih =>
    rw [lookup] at h
    split at h
    · cases h
    · rename_i child found hchild
      split at h
      · exact .inr ⟨index, child, found, hchild, (Except.ok.inj h).symm⟩
      · exact ih h

theorem resolve_holds {id : Identifier} {key : SecretKey} (hsound : cache.Sound root)
    (h : (root.resolve id cache).value.1 = .ok key) : root.Holds key := by
  rw [(resolve_spec hsound id).1, find] at h
  split at h
  · exact .inl (Except.ok.inj h).symm
  · split at h
    · rename_i child hchild
      obtain ⟨index, -, hchild⟩ := hsound.key id child hchild
      exact .inr ⟨index, child, id, hchild, (Except.ok.inj h).symm⟩
    · exact lookup_holds h

end KeyRoot

end ConfidentialTx
