import Mathlib
import ConfidentialTx.Proofs.Bytewise.Build
import ConfidentialTx.Proofs.Bytewise.Transaction

namespace ConfidentialTx

namespace Bytewise

/-- Blinding factors and extended keys are referred to by their places among those that earlier
calls have returned. -/
inductive Call
  | deriveKeyId (index : UInt32)
  | commit (value : UInt64) (keyId : Identifier)
  | commitWithKeyIndex (value : UInt64) (index : UInt32)
  | switchCommit (keyId : Identifier)
  | switchCommitHash (keyId : Identifier)
  | rangeProof (value : UInt64) (keyId : Identifier) (c : Commitment) (message : Bytes)
  | verifyRangeProof (c : Commitment) (proof : RangeProof)
  | rewindRangeProof (keyId : Identifier) (c : Commitment) (proof : RangeProof)
  | sign (msg : Message) (keyId : Identifier)
  | signWithBlinding (msg : Message) (blind : Nat)
  | blindSum (sum : Blinds Nat)
  | readFactor (bs : Bytes)
  | factorOfKey (key : Nat)
  | hashSwitchCommit (c : Commitment) (secret : FixedBytes 32)
  | seedKey (cap : Capability) (seed : Bytes)
  | readKey (bs : Bytes)
  | deriveKey (cap : Capability) (key : Nat) (index : UInt32)
  | identifyKey (cap : Capability) (key : Nat)
  | append (tx : Transaction) (sum : Blinds Nat) (step : BuildStep Nat)
  | build (steps : List (BuildStep Nat))
  | verifyProof (cap : Capability) (o : Output)
  | recoverValue (keyId : Identifier) (o : Output)
  | verifyKernel (cap : Capability) (k : Kernel)
  | sumCommitments (cap : Capability) (s : Committed)
  | balance (cap : Capability) (positive negative : List Commitment)
  | verifySig (cap : Capability) (tx : Transaction)
  | validate (cap : Capability) (tx : Transaction)
  | hash (t : ContentType) (a : t.Object)
  | hashWith (t u : ContentType) (a : t.Object) (b : u.Object)

inductive Answer (κ φ : Type)
  | done
  | identifier (id : Identifier)
  | commitment (c : Commitment)
  | switchCommitHash (h : SwitchCommitHash)
  | proof (proof : RangeProof)
  | range (range : ProofRange)
  | info (info : ProofInfo)
  | signature (compact : Bytes)
  | factor (blind : φ)
  | key (key : κ)
  | draft (tx : Transaction) (sum : Blinds φ)
  | transaction (tx : Transaction) (blind : φ)
  | value (value : Option UInt64)
  | kernel (k : Kernel)
  | balanced (holds : Bool)
  | hash (h : ContentHash)

structure Returned (κ φ : Type) where
  keys : List κ
  factors : List φ

namespace Answer

def toBytes : Answer ExtendedKey BlindingFactor → Answer Key (FixedBytes 32)
  | done => done
  | identifier id => identifier id
  | commitment c => commitment c
  | switchCommitHash h => switchCommitHash h
  | proof p => proof p
  | range r => range r
  | info i => info i
  | signature compact => signature compact
  | factor blind => factor blind.toBytes
  | key k => key (.of k)
  | draft tx sum => draft tx (sum.map BlindingFactor.toBytes)
  | transaction tx blind => transaction tx blind.toBytes
  | value v => value v
  | kernel k => kernel k
  | balanced holds => balanced holds
  | hash h => hash h

end Answer

namespace Returned

variable {ε κ φ : Type}

def empty : Returned κ φ := ⟨[], []⟩

def keep (r : Returned κ φ) : Except ε (Answer κ φ) → Returned κ φ
  | .ok (.key key) => { r with keys := r.keys ++ [key] }
  | .ok (.factor blind) | .ok (.transaction _ blind) => { r with factors := r.factors ++ [blind] }
  | _ => r

def toBytes (r : Returned ExtendedKey BlindingFactor) : Returned Key (FixedBytes 32) :=
  ⟨r.keys.map Key.of, r.factors.map BlindingFactor.toBytes⟩

theorem toBytes_keep (r : Returned ExtendedKey BlindingFactor)
    (answer : Except ε (Answer ExtendedKey BlindingFactor)) :
    (r.keep answer).toBytes = r.toBytes.keep (answer.map Answer.toBytes) := by
  cases answer with
  | error e => rfl
  | ok answer => cases answer <;> simp [keep, toBytes, Except.map, Answer.toBytes]

/-- The factor at a place; it is zero where none has been returned yet. -/
def factor (r : Returned κ BlindingFactor) (place : Nat) : BlindingFactor :=
  r.factors.getD place .zero

def factorBytes (r : Returned κ (FixedBytes 32)) (place : Nat) : FixedBytes 32 :=
  r.factors.getD place .zero

theorem factorBytes_toBytes (r : Returned ExtendedKey BlindingFactor) (place : Nat) :
    r.toBytes.factorBytes place = (r.factor place).toBytes := by
  have hzero : BlindingFactor.zero.toBytes = FixedBytes.zero := toBytes_zero
  rw [factorBytes, ← hzero]
  exact List.getD_map ..

end Returned

variable {ε α β : Type} {root : KeyRoot}

abbrev KeyReply := Answer ExtendedKey BlindingFactor

def reply (f : ε → BuilderError) (wrap : α → KeyReply) (x : Keyed ε α) :
    Keyed BuilderError KeyReply := do
  return wrap (← x.mapError f)

def Call.program (r : Returned ExtendedKey BlindingFactor) : Call → Keyed BuilderError KeyReply
  | deriveKeyId index => reply .keychain .identifier (Keychain.deriveKeyId index)
  | commit value id => reply .keychain .commitment (Keychain.commit value id)
  | commitWithKeyIndex value index =>
    reply .keychain .commitment (Keychain.commitWithKeyIndex value index)
  | switchCommit id => reply .keychain .commitment (Keychain.switchCommit id)
  | switchCommitHash id => reply .keychain .switchCommitHash (Keychain.switchCommitHash id)
  | rangeProof value id c message =>
    reply .keychain .proof (Keychain.rangeProof value id c message)
  | verifyRangeProof c proof => reply .keychain .range (Keychain.verifyRangeProof c proof)
  | rewindRangeProof id c proof => reply .keychain .info (Keychain.rewindRangeProof id c proof)
  | sign msg id => reply .keychain (.signature ·.toCompact) (Keychain.sign msg id)
  | signWithBlinding msg blind =>
    reply .keychain (.signature ·.toCompact) (Keychain.signWithBlinding msg (r.factor blind))
  | blindSum sum => reply .keychain .factor (Keychain.blindSum (sum.toBlindSum r.factor))
  | readFactor bs => reply .keychain .factor (.ofExcept (BlindingFactor.ofBytes bs))
  | factorOfKey key =>
    match r.keys[key]? with
    | some key => return .factor (.ofSecretKey key.secretKey)
    | none => return .done
  | hashSwitchCommit c secret => return .switchCommitHash (.ofCommitment c secret)
  | seedKey cap seed => reply .keychain .key (.ofExcept (ExtendedKey.ofSeed cap seed))
  | readKey bs => reply .keychain .key (.ofExcept (ExtendedKey.ofBytes bs))
  | deriveKey cap key index =>
    match r.keys[key]? with
    | some key => reply .keychain .key (.ofExcept (key.derive cap index))
    | none => return .done
  | identifyKey cap key =>
    match r.keys[key]? with
    | some key => reply .keychain .identifier (.ofExcept (key.identifier cap))
    | none => return .done
  | append tx sum step =>
    reply .keychain (fun draft ↦ .draft draft.tx (.ofBlindSum draft.sum))
      ((step.toStep r.factor).append ⟨tx, sum.toBlindSum r.factor⟩)
  | build steps =>
    reply id (fun built ↦ .transaction built.1 built.2)
      (Transaction.build (steps.map (·.toStep r.factor)))
  | verifyProof cap o =>
    reply .transaction (fun _ ↦ .done) (.ofExcept (o.verifyProof cap))
  | recoverValue id o => reply .transaction .value (o.recoverValue id)
  | verifyKernel cap k => reply .transaction (fun _ ↦ .done) (.ofExcept (k.verify cap))
  | sumCommitments cap s => reply .transaction .commitment (.ofExcept (s.sum cap).result)
  | balance cap positive negative => return .balanced (Commitment.balance cap positive negative)
  | verifySig cap tx => reply .transaction .kernel (.ofExcept (tx.verifySig cap).result)
  | validate cap tx => reply .transaction .kernel (.ofExcept (tx.validate cap).result)
  | hash _ a => return .hash (Canonical.hash a)
  | hashWith _ _ a b => return .hash (Canonical.hashWith a b)

abbrev ByteReply := Answer Key (FixedBytes 32)

def Stateful.reply (f : ε → BuilderError) (wrap : α → ByteReply) (x : Stateful ε α) :
    Stateful BuilderError ByteReply := do
  return wrap (← x.mapError f)

def Trusting.reply (f : ε → BuilderError) (wrap : α → ByteReply) (x : Trusting ε α) :
    Stateful BuilderError ByteReply :=
  (Stateful.ofTrusting x).reply f wrap

def Root.perform (root : Root) (r : Returned Key (FixedBytes 32)) :
    Call → Stateful BuilderError ByteReply
  | .deriveKeyId index => (root.derive index).reply .keychain .identifier
  | .commit value id => (root.commit value id).reply .keychain .commitment
  | .commitWithKeyIndex value index =>
    (root.commitWithKeyIndex value index).reply .keychain .commitment
  | .switchCommit id => (root.switchCommit id).reply .keychain .commitment
  | .switchCommitHash id => (root.switchCommitHash id).reply .keychain .switchCommitHash
  | .rangeProof value id c message =>
    (root.rangeProof value id c message).reply .keychain .proof
  | .verifyRangeProof c proof => (Bytewise.verifyRangeProof c proof).reply .keychain .range
  | .rewindRangeProof id c proof => (root.rewindRangeProof id c proof).reply .keychain .info
  | .sign msg id => (root.sign msg id).reply .keychain .signature
  | .signWithBlinding msg blind =>
    (Bytewise.signWithBlinding msg (r.factorBytes blind)).reply .keychain .signature
  | .blindSum sum => (root.blindSum (sum.map r.factorBytes)).reply .keychain .factor
  | .readFactor bs => (Trusting.ofExcept (factorOfBytes bs)).reply .keychain .factor
  | .factorOfKey key =>
    match r.keys[key]? with
    | some key => return .factor key.secret
    | none => return .done
  | .hashSwitchCommit c secret =>
    (Bytewise.switchCommitHash c secret).reply .keychain .switchCommitHash
  | .seedKey cap seed => (Key.ofSeed cap seed).reply .keychain .key
  | .readKey bs => (Trusting.ofExcept (Key.ofBytes bs)).reply .keychain .key
  | .deriveKey cap key index =>
    match r.keys[key]? with
    | some key => (key.derive cap index).reply .keychain .key
    | none => return .done
  | .identifyKey cap key =>
    match r.keys[key]? with
    | some key => (key.identifier cap).reply .keychain .identifier
    | none => return .done
  | .append tx sum step =>
    (root.append ⟨tx, sum.map r.factorBytes⟩ (step.map r.factorBytes)).reply .keychain
      fun p ↦ .draft p.tx p.sum
  | .build steps =>
    (root.build (steps.map (·.map r.factorBytes))).reply id fun built ↦
      .transaction built.1 built.2
  | .verifyProof cap o => (Bytewise.verifyProof cap o).reply .transaction fun _ ↦ .done
  | .recoverValue id o => (root.recoverValue id o).reply .transaction .value
  | .verifyKernel cap k => (Bytewise.verifyKernel cap k).reply .transaction fun _ ↦ .done
  | .sumCommitments cap s => (Bytewise.sumCommitments cap s).reply .transaction .commitment
  | .balance cap positive negative => (Context.balance cap positive negative).reply id .balanced
  | .verifySig cap tx => (Bytewise.verifySig cap tx).reply .transaction .kernel
  | .validate cap tx => (Bytewise.validate cap tx).reply .transaction .kernel
  | .hash t a => (Bytewise.hash (t.writes a)).reply id .hash
  | .hashWith t u a b => (Bytewise.hash (t.writes a ++ u.writes b)).reply id .hash

namespace Follows

variable {rep : α → β}

theorem reply {x : Keyed ε α} {y : Stateful ε β} (f : ε → BuilderError) {wrap : α → KeyReply}
    {wrap' : β → ByteReply} (h : Follows root rep x y) (hwrap : ∀ a, (wrap a).toBytes = wrap' (rep a)) :
    Follows root Answer.toBytes (Bytewise.reply f wrap x) (y.reply f wrap') :=
  (h.mapError f).bind fun a ↦ pure (hwrap a)

theorem replyExcept {x : Except ε α} {t : Trusting ε β} (f : ε → BuilderError)
    {wrap : α → KeyReply} {wrap' : β → ByteReply} (h : t = .ofExcept (x.map rep))
    (hwrap : ∀ a, (wrap a).toBytes = wrap' (rep a)) :
    Follows root Answer.toBytes (Bytewise.reply f wrap (.ofExcept x)) (t.reply f wrap') :=
  (ofExcept h).reply f hwrap

theorem replySame {x : Except ε α} {t : Trusting ε α} (f : ε → BuilderError)
    {wrap : α → KeyReply} {wrap' : α → ByteReply} (h : t = .ofExcept x)
    (hwrap : ∀ a, (wrap a).toBytes = wrap' a) :
    Follows root Answer.toBytes (Bytewise.reply f wrap (.ofExcept x)) (t.reply f wrap') := by
  apply @replyExcept ε α α root id
  · rw [h]
    cases x <;> rfl
  · exact hwrap

theorem call (root : KeyRoot) (r : Returned ExtendedKey BlindingFactor) (call : Call) :
    Follows root Answer.toBytes (call.program r)
      ((Root.of root).perform r.toBytes call) := by
  have hfactor := r.factorBytes_toBytes
  have hkey (place : Nat) : r.toBytes.keys[place]? =
      (r.keys[place]?).map Key.of := List.getElem?_map
  cases call with
  | deriveKeyId index => exact (deriveKeyId root index).reply _ fun _ ↦ rfl
  | commit value keyId => exact (commit root value keyId).reply _ fun _ ↦ rfl
  | commitWithKeyIndex value index => exact (commitWithKeyIndex root value index).reply _ fun _ ↦ rfl
  | switchCommit keyId => exact (switchCommit root keyId).reply _ fun _ ↦ rfl
  | switchCommitHash keyId => exact (switchCommitHash root keyId).reply _ fun _ ↦ rfl
  | rangeProof value keyId c message =>
    exact (rangeProof root value keyId c message).reply _ fun _ ↦ rfl
  | verifyRangeProof c proof => exact (verifyRangeProof root c proof).reply _ fun _ ↦ rfl
  | rewindRangeProof keyId c proof =>
    exact (rewindRangeProof root keyId c proof).reply _ fun _ ↦ rfl
  | sign msg keyId => exact (sign root msg keyId).reply _ fun _ ↦ rfl
  | signWithBlinding msg blind =>
    rw [Root.perform, hfactor]
    exact (signWithBlinding root msg (r.factor blind)).reply _ fun _ ↦ rfl
  | blindSum sum =>
    have h := blindSum root (sum.toBlindSum r.factor)
    rw [Blinds.of_toBlindSum, ← funext hfactor] at h
    exact h.reply _ fun _ ↦ rfl
  | readFactor bs => exact replyExcept _ (congrArg _ (factorOfBytes_eq bs)) fun _ ↦ rfl
  | factorOfKey key =>
    rw [Root.perform, Call.program, hkey]
    cases r.keys[key]? <;> exact pure rfl
  | hashSwitchCommit c secret =>
    rw [Root.perform, switchCommitHash_eq]
    exact pure rfl
  | seedKey cap seed => exact replyExcept _ (Key.ofSeed_eq cap seed) fun _ ↦ rfl
  | readKey bs => exact replyExcept _ (congrArg _ (Key.ofBytes_eq bs)) fun _ ↦ rfl
  | deriveKey cap key index =>
    rw [Root.perform, Call.program, hkey]
    cases r.keys[key]? with
    | none => exact pure rfl
    | some key => exact replyExcept _ (Key.derive_of cap key index) fun _ ↦ rfl
  | identifyKey cap key =>
    rw [Root.perform, Call.program, hkey]
    cases r.keys[key]? with
    | none => exact pure rfl
    | some key => exact replySame _ (Key.identifier_of cap key) fun _ ↦ rfl
  | append tx sum step =>
    have h := append root ⟨tx, sum.toBlindSum r.factor⟩ (step.toStep r.factor)
    rw [Progress.of, Blinds.of_toBlindSum, BuildStep.of_toStep, ← funext hfactor] at h
    exact h.reply _ fun _ ↦ rfl
  | build steps =>
    have h := build root (steps.map (·.toStep r.factor))
    have hsteps : (steps.map (·.toStep r.factor)).map BuildStep.of =
        steps.map (·.map r.toBytes.factorBytes) := by
      rw [List.map_map, funext hfactor]
      exact List.map_congr_left fun step _ ↦ step.of_toStep r.factor
    rw [hsteps] at h
    exact h.reply _ fun _ ↦ rfl
  | verifyProof cap o => exact replySame _ (verifyProof_eq cap o) fun _ ↦ rfl
  | recoverValue keyId o => exact (recoverValue root keyId o).reply _ fun _ ↦ rfl
  | verifyKernel cap k => exact replySame _ (verifyKernel_eq cap k) fun _ ↦ rfl
  | sumCommitments cap s => exact replySame _ (sumCommitments_eq cap s) fun _ ↦ rfl
  | balance cap positive negative =>
    rw [Root.perform, Context.balance_eq]
    exact pure rfl
  | verifySig cap tx => exact replySame _ (verifySig_eq cap tx) fun _ ↦ rfl
  | validate cap tx => exact replySame _ (validate_eq cap tx) fun _ ↦ rfl
  | hash t a =>
    rw [Root.perform, hash_of_written (.object t a)]
    exact pure rfl
  | hashWith t u a b =>
    rw [Root.perform, hash_of_written ((Written.object t a).append (.object u b))]
    apply pure
    rw [Canonical.hashWith, HashWriter.raw, HashWriter.raw, ← Blake2b.Hasher.update_append]
    rfl

end Follows

def replies (root : KeyRoot) : Returned ExtendedKey BlindingFactor → KeyCache → List Call →
    List (Except BuilderError KeyReply)
  | _, _, [] => []
  | r, cache, call :: calls =>
    let (answer, next) := ((call.program r).run.run root cache).value
    answer :: replies root (r.keep answer) next calls

def Root.replies (root : Root) : Returned Key (FixedBytes 32) → Cache → List Call →
    Except Abort (List (Except BuilderError ByteReply))
  | _, _, [] => .ok []
  | r, cache, call :: calls => do
    let (answer, next) ← (root.perform r call).after cache
    return answer :: (← root.replies (r.keep answer) next calls)

theorem replies_follow (r : Returned ExtendedKey BlindingFactor) {cache : KeyCache}
    (hsound : cache.Sound root) (calls : List Call) :
    (Root.of root).replies r.toBytes (.of cache) calls =
      .ok ((replies root r cache calls).map (Except.map Answer.toBytes)) ∨
    Cancels root ((Root.of root).replies r.toBytes (.of cache) calls) := by
  induction calls generalizing r cache with
  | nil => exact .inl rfl
  | cons call calls ih =>
    have hcall := Follows.call root r call cache hsound
    have hsound' := (call.program r).run.run_sound hsound
    rw [Root.replies, replies]
    rcases hcall with hcall | hcancels
    · rw [hcall]
      generalize ((call.program r).run.run root cache).value = result at hsound'
      obtain ⟨answer, next⟩ := result
      rcases ih (r.keep answer) hsound' with hrest | hrest
      · refine .inl ?_
        rw [Returned.toBytes_keep] at hrest
        change ((Root.of root).replies _ (.of next) calls >>= fun rest ↦ .ok (_ :: rest)) = _
        rw [hrest]
        rfl
      · refine .inr ?_
        rw [Returned.toBytes_keep] at hrest
        exact hrest.bind _
    · exact .inr (hcancels.bind _)

def onKeys (config : KeychainConfig) (seed : Bytes) (calls : List Call) :
    Except KeychainError (List (Except BuilderError KeyReply)) :=
  (KeyRoot.ofSeed config seed).run.value.map fun root ↦ replies root .empty .empty calls

def onBytes (config : KeychainConfig) (seed : Bytes) (calls : List Call) :
    Except Abort (Except KeychainError (List (Except BuilderError ByteReply))) := do
  match ← (Key.ofSeed .commit seed).run with
  | .error e => return .error e
  | .ok key => return .ok (← (Root.mk key config).replies .empty ⟨[], []⟩ calls)

/-- Whatever the seed, the configuration and the calls are, the operations on bytes are handed
nothing that they would give up on, and answer as those on keys do. The one exception is a value
that cancels out a key of the keychain. -/
theorem onBytes_eq_or_cancels (config : KeychainConfig) (seed : Bytes) (calls : List Call) :
    onBytes config seed calls =
      .ok ((onKeys config seed calls).map (List.map (Except.map Answer.toBytes))) ∨
    ∃ root, (KeyRoot.ofSeed config seed).run.value = .ok root ∧
      Cancels root (onBytes config seed calls) := by
  unfold onBytes onKeys
  rw [Key.ofSeed_eq, KeyRoot.value_ofSeed]
  cases ExtendedKey.ofSeed .commit seed with
  | error e => exact .inl rfl
  | ok key =>
    rcases @replies_follow ⟨key, config⟩ .empty _ KeyCache.sound_empty calls with h | h
    · refine .inl ?_
      change ((Root.of ⟨key, config⟩).replies (Returned.toBytes .empty) (.of .empty) calls >>=
        fun answers ↦ Except.ok (Except.ok answers)) = _
      rw [h]
      rfl
    · exact .inr ⟨⟨key, config⟩, rfl, h.bind _⟩

end Bytewise

end ConfidentialTx
