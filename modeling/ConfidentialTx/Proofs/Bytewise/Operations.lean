import Mathlib
import ConfidentialTx.Keychain.Operations
import ConfidentialTx.Proofs.Bytewise.Keychain

namespace ConfidentialTx.Bytewise

variable {ε δ α β α' β' : Type} {root : KeyRoot}

/-- The reason to give up is a commitment under a key of the keychain, with a value that cancels
the key out. -/
def Cancels (root : KeyRoot) (r : Except Abort α) : Prop :=
  ∃ value key, root.Holds key ∧ Point.pedersen value key.scalar = .infinity ∧
    r = .error (.identity value key.toBytes)

theorem Cancels.bind {r : Except Abort α} (h : Cancels root r) (f : α → Except Abort β) :
    Cancels root (r >>= f) := by
  obtain ⟨value, key, hkey, hinfinity, rfl⟩ := h
  exact ⟨value, key, hkey, hinfinity, rfl⟩

/-- On bytes the program gives the same answer and leaves the same cache, or a value cancels out. -/
def Follows (root : KeyRoot) (rep : α → β) (x : Keyed ε α) (y : Stateful ε β) : Prop :=
  ∀ cache : KeyCache, cache.Sound root →
    y.after (.of cache) = .ok (outcome rep (x.run.run root cache).value) ∨
    Cancels root (y.after (.of cache))

namespace Stateful

def ofCurve (x : Trusting CurveError α) : Stateful KeychainError α :=
  ofTrusting (x.mapError .ofCurve)

@[simp] theorem ofExcept_ok_bind (a : α) (f : α → Stateful ε β) :
    (ofTrusting (.ofExcept (.ok a)) >>= f) = f a := rfl

end Stateful

namespace Follows

variable {rep : α → β} {rep' : α' → β'}

theorem ofExcept {r : Except ε α} {t : Trusting ε β} (h : t = .ofExcept (r.map rep)) :
    Follows root rep (Keyed.ofExcept r) (.ofTrusting t) := by
  intro cache _
  rw [h]
  exact .inl rfl

theorem ofCurve {r : Except CurveError α} {t : Trusting CurveError β}
    (h : t = .ofExcept (r.map rep)) : Follows root rep (.ofCurve r) (.ofCurve t) := by
  apply ofExcept
  rw [h, Trusting.mapError_ofExcept]
  cases r <;> rfl

theorem pure {a : α} {b : β} (h : rep a = b) :
    Follows root rep (Pure.pure a : Keyed ε α) (Pure.pure b) := by
  intro cache _
  rw [← h]
  exact .inl rfl

theorem bind {x : Keyed ε α} {y : Stateful ε β} {f : α → Keyed ε α'} {g : β → Stateful ε β'}
    (hx : Follows root rep x y) (hf : ∀ a, Follows root rep' (f a) (g (rep a))) :
    Follows root rep' (x >>= f) (y >>= g) := by
  intro cache hsound
  have hrun : ((x >>= f).run.run root cache).value =
      ((ExceptT.bindCont f (x.run.run root cache).value.1).run root
        (x.run.run root cache).value.2).value := by
    change ((x.run.bind (ExceptT.bindCont f)).run root cache).value = _
    rw [KeyProgram.run_bind, Logged.value_bind]
  have hsound' := x.run.run_sound hsound
  rw [Stateful.after_bind, hrun]
  rcases hx cache hsound with hy | hcancels
  · rw [hy]
    generalize (x.run.run root cache).value = r at hsound'
    obtain ⟨answer, next⟩ := r
    cases answer with
    | error e => exact .inl rfl
    | ok a => exact hf a next hsound'
  · exact .inr (hcancels.bind _)

theorem mapError {x : Keyed ε α} {y : Stateful ε β} (f : ε → δ) (h : Follows root rep x y) :
    Follows root rep (x.mapError f) (y.mapError f) := by
  intro cache hsound
  have hrun : ((x.mapError f).run.run root cache).value =
      ((x.run.run root cache).value.1.mapError f, (x.run.run root cache).value.2) := by
    change ((x.run.bind _).run root cache).value = _
    rw [KeyProgram.run_bind]
    rfl
  rw [Stateful.after_mapError, hrun]
  rcases h cache hsound with hy | hcancels
  · rw [hy]
    generalize (x.run.run root cache).value = r
    obtain ⟨answer, next⟩ := r
    cases answer <;> exact .inl rfl
  · exact .inr (hcancels.bind _)

theorem log_bind {event : LogEvent} {f : Unit → Keyed ε α} {y : Stateful ε β}
    (h : Follows root rep (f ()) y) : Follows root rep (Keyed.log event >>= f) y :=
  h

theorem then_log {event : LogEvent} {x : Keyed ε α} {y : Stateful ε β} (h : Follows root rep x y) :
    Follows root rep (ExceptT.mk (x.run.bind fun r ↦ .log event (.done r))) y := by
  intro cache hsound
  have hrun : ((x.run.bind fun r ↦ .log event (.done r)).run root cache).value =
      (x.run.run root cache).value := by
    rw [KeyProgram.run_bind, Logged.value_bind]
    rfl
  rw [ExceptT.run_mk, hrun]
  exact h cache hsound

theorem deriveKeyId (root : KeyRoot) (index : UInt32) :
    Follows root id (Keychain.deriveKeyId index) ((Root.of root).derive index) := by
  intro cache _
  exact .inl (after_derive root index cache)

theorem secretKey (root : KeyRoot) (id : Identifier) :
    Follows root SecretKey.toBytes (Keychain.secretKey id) ((Root.of root).secretKey id) := by
  intro cache _
  exact .inl (after_secretKey root id cache)

/-- What follows a request for a key need only be right for keys that the keychain holds. -/
theorem secretKey_bind {id : Identifier} {f : SecretKey → Keyed KeychainError α}
    {g : FixedBytes 32 → Stateful KeychainError β}
    (h : ∀ key, root.Holds key → Follows root rep (f key) (g key.toBytes)) :
    Follows root rep (Keychain.secretKey id >>= f) ((Root.of root).secretKey id >>= g) := by
  intro cache hsound
  have hheld := @KeyRoot.resolve_holds root cache id
  have hsound' := (KeyRoot.resolve_spec hsound id).2.1
  rw [Stateful.after_bind, after_secretKey, ok_bind]
  change _ = Except.ok (outcome rep ((ExceptT.bindCont f (root.resolve id cache).value.1).run root
    (root.resolve id cache).value.2).value) ∨ _
  generalize (root.resolve id cache).value = r at hheld hsound'
  obtain ⟨answer, next⟩ := r
  cases answer with
  | error e => exact .inl rfl
  | ok key => exact h key (hheld hsound rfl) next hsound'

theorem ofCurve_or {r : Except CurveError α} {t : Trusting CurveError α} {value : UInt64}
    {key : SecretKey} (hkey : root.Holds key)
    (h : t = .ofExcept r ∨
      Point.pedersen value key.scalar = .infinity ∧ t = Trusting.abort (.identity value key.toBytes)) :
    Follows root id (.ofCurve r) (.ofCurve t) := by
  rcases h with h | ⟨hinfinity, h⟩
  · apply ofCurve
    rw [h]
    cases r <;> rfl
  · intro cache _
    refine .inr ⟨value, key, hkey, hinfinity, ?_⟩
    rw [h]
    rfl

end Follows

theorem factorOfBytes_toBytes (a : Scalar) : factorOfBytes a.toBytes.toList = .ok a.toBytes := by
  rw [factorOfBytes, FixedBytes.ofList?_toList]
  exact if_pos (scalarInRange_toBytes a)

def factorKeys (factors : List (FixedBytes 32)) : Except KeychainError (List (FixedBytes 32)) :=
  (factors.filter fun b ↦ b ≠ FixedBytes.zero).mapM factorSecretKey

theorem factorKeys_toBytes (factors : List BlindingFactor) :
    factorKeys (factors.map BlindingFactor.toBytes) =
      .ok ((factors.filterMap fun b ↦ SecretKey.ofScalar? b.scalar).map SecretKey.toBytes) := by
  unfold factorKeys
  induction factors with
  | nil => rfl
  | cons b factors ih =>
    rw [List.map_cons, List.filter_cons, List.filterMap_cons]
    by_cases hzero : b.scalar = 0
    · have hbytes : b.toBytes = FixedBytes.zero := toBytes_eq_zero_iff.mpr hzero
      simp only [hbytes, ne_eq, not_true_eq_false, decide_false, Bool.false_eq_true, if_false,
        SecretKey.ofScalar?, dif_pos hzero]
      exact ih
    · have hbytes : b.toBytes ≠ FixedBytes.zero := fun h ↦ hzero (toBytes_eq_zero_iff.mp h)
      simp only [ne_eq, hbytes, not_false_eq_true, decide_true, if_true, SecretKey.ofScalar?,
        dif_neg hzero, List.mapM_cons, List.map_cons]
      rw [factorSecretKey_toBytes, BlindingFactor.toSecretKey, SecretKey.ofScalar?, dif_neg hzero]
      change (do let keys ← List.mapM factorSecretKey _; _) = _
      rw [ih]
      rfl

structure Blinds (φ : Type) where
  positiveKeyIds : List Identifier
  negativeKeyIds : List Identifier
  positiveFactors : List φ
  negativeFactors : List φ

namespace Blinds

variable {φ ψ : Type}

def of (sum : BlindSum) : Blinds (FixedBytes 32) where
  positiveKeyIds := sum.positiveKeyIds
  negativeKeyIds := sum.negativeKeyIds
  positiveFactors := sum.positiveFactors.map BlindingFactor.toBytes
  negativeFactors := sum.negativeFactors.map BlindingFactor.toBytes

def ofBlindSum (sum : BlindSum) : Blinds BlindingFactor :=
  ⟨sum.positiveKeyIds, sum.negativeKeyIds, sum.positiveFactors, sum.negativeFactors⟩

def toBlindSum (value : φ → BlindingFactor) (sum : Blinds φ) : BlindSum where
  positiveKeyIds := sum.positiveKeyIds
  negativeKeyIds := sum.negativeKeyIds
  positiveFactors := sum.positiveFactors.map value
  negativeFactors := sum.negativeFactors.map value

def map (f : φ → ψ) (sum : Blinds φ) : Blinds ψ :=
  ⟨sum.positiveKeyIds, sum.negativeKeyIds, sum.positiveFactors.map f, sum.negativeFactors.map f⟩

def addKeyId (sum : Blinds φ) (id : Identifier) : Blinds φ :=
  { sum with positiveKeyIds := sum.positiveKeyIds ++ [id] }

def subKeyId (sum : Blinds φ) (id : Identifier) : Blinds φ :=
  { sum with negativeKeyIds := sum.negativeKeyIds ++ [id] }

def addFactor (sum : Blinds φ) (b : φ) : Blinds φ :=
  { sum with positiveFactors := sum.positiveFactors ++ [b] }

theorem of_toBlindSum (value : φ → BlindingFactor) (sum : Blinds φ) :
    of (sum.toBlindSum value) = sum.map fun b ↦ (value b).toBytes := by
  simp [of, toBlindSum, map]

theorem of_addFactor (sum : BlindSum) (b : BlindingFactor) :
    of (sum.addFactor b) = (of sum).addFactor b.toBytes := by
  simp [of, addFactor, BlindSum.addFactor]

end Blinds

def switchCommitHash (c : Commitment) (secret : FixedBytes 32) :
    Trusting KeychainError SwitchCommitHash := do
  let key ← Library.keyedHash 32 "mw_switch_commit_key".toUTF8.data.toList [secret.toList]
  return ⟨← Library.keyedHash 20 key.toList [c.bytes.toList]⟩

theorem switchCommitHash_eq (c : Commitment) (secret : FixedBytes 32) :
    switchCommitHash c secret = .ofExcept (.ok (.ofCommitment c secret)) := by
  have htag := @Library.keyedHash_bytes KeychainError 32 SwitchCommitHash.keyTag [secret.toList]
  rw [switchCommitHash, show "mw_switch_commit_key".toUTF8.data.toList =
    SwitchCommitHash.keyTag.bytes from rfl, htag, pure_bind]
  have hhash := @Library.keyedHash_bytes KeychainError 20
    (.ofFixed (Blake2b.keyedHash 32 SwitchCommitHash.keyTag [secret.toList])) [c.bytes.toList]
  rw [show (Blake2b.keyedHash 32 SwitchCommitHash.keyTag [secret.toList]).toList =
    (Blake2b.Key.ofFixed (Blake2b.keyedHash 32 SwitchCommitHash.keyTag [secret.toList])).bytes
    from rfl, hhash]
  rfl

namespace Root

def commit (root : Root) (value : UInt64) (id : Identifier) :
    Stateful KeychainError Commitment := do
  let secret ← root.secretKey id
  .ofCurve (Context.commit .commit value secret)

def commitWithKeyIndex (root : Root) (value : UInt64) (index : UInt32) :
    Stateful KeychainError Commitment := do
  root.commit value (← root.derive index)

def switchCommit (root : Root) (id : Identifier) : Stateful KeychainError Commitment := do
  let secret ← root.secretKey id
  .ofCurve (Context.commitSwitch .commit secret)

def switchCommitHash (root : Root) (id : Identifier) :
    Stateful KeychainError SwitchCommitHash := do
  let secret ← root.secretKey id
  let c ← .ofCurve (Context.commitSwitch .commit secret)
  .ofTrusting (Bytewise.switchCommitHash c secret)

def rangeProof (root : Root) (value : UInt64) (id : Identifier) (c : Commitment)
    (message : Bytes) : Stateful KeychainError RangeProof := do
  let secret ← root.secretKey id
  .ofCurve (Context.prove .commit value secret c message)

def rewindRangeProof (root : Root) (id : Identifier) (c : Commitment) (proof : RangeProof) :
    Stateful KeychainError ProofInfo := do
  let secret ← root.secretKey id
  .ofCurve (Context.rewind .commit c proof secret)

def sign (root : Root) (msg : Message) (id : Identifier) : Stateful KeychainError Bytes := do
  let secret ← root.secretKey id
  .ofCurve (Library.sign .commit msg secret)

def secretKeys (root : Root) : List Identifier → Stateful KeychainError (List (FixedBytes 32))
  | [] => return []
  | id :: ids => do
    let secret ← root.secretKey id
    return secret :: (← root.secretKeys ids)

def blindSum (root : Root) (sum : Blinds (FixedBytes 32)) :
    Stateful KeychainError (FixedBytes 32) := do
  let positive ← root.secretKeys sum.positiveKeyIds
  let negative ← root.secretKeys sum.negativeKeyIds
  let plus ← .ofTrusting (.ofExcept (factorKeys sum.positiveFactors))
  let minus ← .ofTrusting (.ofExcept (factorKeys sum.negativeFactors))
  let total ← .ofCurve (Context.blindSum (positive ++ plus) (negative ++ minus))
  .ofTrusting (.ofExcept (factorOfBytes total.toList))

end Root

def verifyRangeProof (c : Commitment) (proof : RangeProof) : Stateful KeychainError ProofRange :=
  .ofCurve (Context.verify .commit c proof)

def signWithBlinding (msg : Message) (blind : FixedBytes 32) : Stateful KeychainError Bytes := do
  let secret ← .ofTrusting (.ofExcept (factorSecretKey blind))
  .ofCurve (Library.sign .commit msg secret)

namespace Follows

theorem commit (root : KeyRoot) (value : UInt64) (keyId : Identifier) :
    Follows root id (Keychain.commit value keyId) ((Root.of root).commit value keyId) :=
  secretKey_bind fun key hkey ↦ ofCurve_or hkey (Context.commit_toBytes .commit value key)

theorem commitWithKeyIndex (root : KeyRoot) (value : UInt64) (index : UInt32) :
    Follows root id (Keychain.commitWithKeyIndex value index)
      ((Root.of root).commitWithKeyIndex value index) :=
  (deriveKeyId root index).bind fun found ↦ commit root value found

theorem switchCommit (root : KeyRoot) (keyId : Identifier) :
    Follows root id (Keychain.switchCommit keyId) ((Root.of root).switchCommit keyId) := by
  refine (secretKey root keyId).bind fun key ↦ ofCurve ?_
  rw [Context.commitSwitch_toBytes]
  cases Commitment.commitSwitch .commit key <;> rfl

theorem switchCommitHash (root : KeyRoot) (keyId : Identifier) :
    Follows root id (Keychain.switchCommitHash keyId) ((Root.of root).switchCommitHash keyId) := by
  refine (secretKey root keyId).bind fun key ↦ ?_
  have hswitch : Follows root id (.ofCurve (Commitment.commitSwitch .commit key))
      (.ofCurve (Context.commitSwitch .commit key.toBytes)) := by
    apply ofCurve
    rw [Context.commitSwitch_toBytes]
    cases Commitment.commitSwitch .commit key <;> rfl
  exact hswitch.bind fun c ↦ ofExcept (switchCommitHash_eq c key.toBytes)

theorem rangeProof (root : KeyRoot) (value : UInt64) (keyId : Identifier) (c : Commitment)
    (message : Bytes) : Follows root id (Keychain.rangeProof value keyId c message)
      ((Root.of root).rangeProof value keyId c message) :=
  secretKey_bind fun key hkey ↦
    ofCurve_or hkey (Context.prove_toBytes .commit value key c message)

theorem rewindRangeProof (root : KeyRoot) (keyId : Identifier) (c : Commitment)
    (proof : RangeProof) : Follows root id (Keychain.rewindRangeProof keyId c proof)
      ((Root.of root).rewindRangeProof keyId c proof) := by
  refine (secretKey root keyId).bind fun key ↦ ofCurve ?_
  rw [Context.rewind_toBytes]
  cases RangeProof.rewind .commit c proof key <;> rfl

theorem verifyRangeProof (root : KeyRoot) (c : Commitment) (proof : RangeProof) :
    Follows root id (Keychain.verifyRangeProof c proof) (Bytewise.verifyRangeProof c proof) := by
  apply ofCurve
  rw [Context.verify_eq]
  cases RangeProof.verify .commit c proof <;> rfl

theorem sign (root : KeyRoot) (msg : Message) (keyId : Identifier) :
    Follows root Signature.toCompact (Keychain.sign msg keyId) ((Root.of root).sign msg keyId) :=
  (secretKey root keyId).bind fun key ↦ ofCurve (Library.sign_toBytes .commit msg key)

theorem signWithBlinding (root : KeyRoot) (msg : Message) (blind : BlindingFactor) :
    Follows root Signature.toCompact (Keychain.signWithBlinding msg blind)
      (Bytewise.signWithBlinding msg blind.toBytes) := by
  have hkey : Follows root SecretKey.toBytes (.ofExcept blind.toSecretKey)
      (.ofTrusting (.ofExcept (factorSecretKey blind.toBytes))) := by
    apply ofExcept
    rw [factorSecretKey_toBytes]
  exact hkey.bind fun key ↦ ofCurve (Library.sign_toBytes .commit msg key)

theorem secretKeys (root : KeyRoot) (ids : List Identifier) :
    Follows root (List.map SecretKey.toBytes) (Keychain.secretKeys ids)
      ((Root.of root).secretKeys ids) := by
  induction ids with
  | nil => exact pure rfl
  | cons id ids ih =>
    exact (secretKey root id).bind fun key ↦ ih.bind fun keys ↦ pure rfl

theorem blindSum (root : KeyRoot) (sum : BlindSum) :
    Follows root BlindingFactor.toBytes (Keychain.blindSum sum)
      ((Root.of root).blindSum (.of sum)) := by
  refine (secretKeys root sum.positiveKeyIds).bind fun positive ↦ ?_
  refine (secretKeys root sum.negativeKeyIds).bind fun negative ↦ ?_
  change Follows root _ _ (do
    let plus ← .ofTrusting (.ofExcept (factorKeys (sum.positiveFactors.map _)))
    let minus ← .ofTrusting (.ofExcept (factorKeys (sum.negativeFactors.map _)))
    let total ← .ofCurve (Context.blindSum (positive.map _ ++ plus) (negative.map _ ++ minus))
    .ofTrusting (.ofExcept (factorOfBytes total.toList)))
  rw [factorKeys_toBytes, factorKeys_toBytes]
  simp only [Stateful.ofExcept_ok_bind]
  rw [← List.map_append, ← List.map_append, Context.blindSum_toBytes]
  change Follows root _ _
    (.ofTrusting (.ofExcept (factorOfBytes (SecretKey.blindSum _ _).toBytes.toList)))
  rw [factorOfBytes_toBytes]
  exact pure rfl

end Follows

end ConfidentialTx.Bytewise
