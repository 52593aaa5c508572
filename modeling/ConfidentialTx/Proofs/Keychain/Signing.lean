import Mathlib
import ConfidentialTx.Proofs.Builder.Balance
import ConfidentialTx.Proofs.Builder.Restore
import ConfidentialTx.Proofs.Signature.Completeness

namespace ConfidentialTx

variable {root : KeyRoot} {cache : KeyCache} {id : Identifier} {key : SecretKey}

/-- An identifier that has named a key still names it, and needs no search again. -/
theorem KeyRoot.names_resolve (h : root.names cache id = .ok key) :
    root.names (root.resolve id cache).value.2 id = .ok key := by
  by_cases hroot : id = root.id
  · have hsame : (root.resolve id cache).value.2 = cache := by
      rw [resolve, if_pos hroot]
      rfl
    rw [hsame, h]
  · obtain ⟨found, hfound, rfl⟩ := resolve_eq_ok hroot h
    rw [names, resolve, if_neg hroot, hfound]
    rfl

namespace KeyProgram

variable {α β : Type}

/-- All requests are for the key of the identifier. -/
def AsksOnly (id : Identifier) : KeyProgram α → Prop
  | done _ => True
  | derive .. => False
  | resolve asked next => asked = id ∧ ∀ answer, (next answer).AsksOnly id
  | log _ next => next.AsksOnly id

theorem AsksOnly.bind {p : KeyProgram α} {f : α → KeyProgram β} (hp : p.AsksOnly id)
    (hf : ∀ a, (f a).AsksOnly id) : (p.bind f).AsksOnly id := by
  induction p with
  | done a => exact hf a
  | derive index next ih => exact hp.elim
  | resolve asked next ih =>
    obtain ⟨hasked, hnext⟩ := hp
    exact ⟨hasked, fun answer ↦ ih answer (hnext answer)⟩
  | log event next ih => exact ih hp

theorem run_eq_of_asksOnly {p : KeyProgram α} (hp : p.AsksOnly id)
    (h : root.names cache id = .ok key) :
    (p.run root cache).value.1 = p.answer root fun _ ↦ .ok key := by
  induction p generalizing cache with
  | done a => rfl
  | derive index next ih => exact hp.elim
  | resolve asked next ih =>
    obtain ⟨rfl, hnext⟩ := hp
    simp only [run, Logged.value_bind, answer]
    rw [show (root.resolve asked cache).value.1 = .ok key from h]
    exact ih _ (hnext _) (KeyRoot.names_resolve h)
  | log event next ih =>
    simp only [run, Logged.value_bind, answer]
    exact ih hp h

end KeyProgram

namespace Keyed

variable {ε α β : Type}

def AsksOnly (id : Identifier) (x : Keyed ε α) : Prop := x.run.AsksOnly id

theorem asksOnly_pure (a : α) : (pure a : Keyed ε α).AsksOnly id := trivial

theorem asksOnly_ofExcept (r : Except ε α) : (ofExcept r).AsksOnly id := trivial

theorem asksOnly_secretKey (id : Identifier) : (Keychain.secretKey id).AsksOnly id :=
  ⟨rfl, fun _ ↦ trivial⟩

theorem AsksOnly.bind {x : Keyed ε α} {f : α → Keyed ε β} (hx : x.AsksOnly id)
    (hf : ∀ a, (f a).AsksOnly id) : (x >>= f).AsksOnly id := by
  apply KeyProgram.AsksOnly.bind hx
  intro r
  cases r with
  | ok a => exact hf a
  | error e => exact trivial

theorem result_eq_of_asksOnly {x : Keyed ε α} (hx : x.AsksOnly id)
    (h : root.names cache id = .ok key) :
    x.result root cache = x.answer root fun _ ↦ .ok key :=
  KeyProgram.run_eq_of_asksOnly hx h

end Keyed

namespace Keychain

def signSum (msg : Message) (id : Identifier) : Keyed KeychainError Signature := do
  signWithBlinding msg (← blindSum (BlindSum.empty.addKeyId id))

/-- A signature made both ways, then the commitment to zero. -/
def signBoth (msg : Message) (id : Identifier) :
    Keyed KeychainError (Signature × Signature × Commitment) := do
  let sig ← sign msg id
  let sig' ← signSum msg id
  return (sig, sig', ← commit 0 id)

theorem asksOnly_sign (msg : Message) (id : Identifier) : (sign msg id).AsksOnly id :=
  .bind (Keyed.asksOnly_secretKey id) fun _ ↦ Keyed.asksOnly_ofExcept _

theorem asksOnly_commit (value : UInt64) (id : Identifier) : (commit value id).AsksOnly id :=
  .bind (Keyed.asksOnly_secretKey id) fun _ ↦ Keyed.asksOnly_ofExcept _

theorem asksOnly_secretKeys {ids : List Identifier} (h : ∀ asked ∈ ids, asked = id) :
    (secretKeys ids).AsksOnly id := by
  induction ids with
  | nil => exact Keyed.asksOnly_pure []
  | cons asked ids ih =>
    obtain ⟨rfl, hids⟩ := List.forall_mem_cons.mp h
    exact .bind (Keyed.asksOnly_secretKey asked) fun _ ↦
      .bind (ih hids) fun _ ↦ Keyed.asksOnly_pure _

theorem asksOnly_signSum (msg : Message) (id : Identifier) : (signSum msg id).AsksOnly id := by
  apply Keyed.AsksOnly.bind
  · apply Keyed.AsksOnly.bind (asksOnly_secretKeys (by simp [BlindSum.empty, BlindSum.addKeyId]))
    intro positive
    apply Keyed.AsksOnly.bind (asksOnly_secretKeys (by simp [BlindSum.empty, BlindSum.addKeyId]))
    intro negative
    exact Keyed.asksOnly_pure _
  · intro blind
    exact .bind (Keyed.asksOnly_ofExcept _) fun _ ↦ Keyed.asksOnly_ofExcept _

theorem asksOnly_signBoth (msg : Message) (id : Identifier) : (signBoth msg id).AsksOnly id :=
  .bind (asksOnly_sign msg id) fun _ ↦ .bind (asksOnly_signSum msg id) fun _ ↦
    .bind (asksOnly_commit 0 id) fun _ ↦ Keyed.asksOnly_pure _

theorem answer_sign {names : Identifier → Except KeychainError SecretKey} (msg : Message)
    (h : names id = .ok key) :
    (sign msg id).answer root names = (Signature.sign .commit msg key).mapError .ofCurve := by
  rw [sign, Keyed.answer_bind, Keyed.answer_secretKey, h, ok_bind, Keyed.answer_ofCurve]

theorem answer_signSum {names : Identifier → Except KeychainError SecretKey} (msg : Message)
    (h : names id = .ok key) :
    (signSum msg id).answer root names = (Signature.sign .commit msg key).mapError .ofCurve := by
  have hresolved : (BlindSum.empty.addKeyId id).Resolved names := by
    intro asked hasked
    have hid : asked = id := by simpa [BlindSum.empty, BlindSum.addKeyId] using hasked
    exact ⟨key, hid ▸ h⟩
  have htotal : (BlindSum.empty.addKeyId id).total names = key.scalar.toZMod := by
    simp [BlindSum.total, BlindSum.empty, BlindSum.addKeyId, share_of_names h]
  rw [signSum, Keyed.answer_bind, answer_blindSum hresolved, htotal, Residue.ofZMod_toZMod,
    ok_bind, signWithBlinding, Keyed.answer_bind, Keyed.answer_ofExcept,
    BlindingFactor.toSecretKey_of_scalar, ok_bind, Keyed.answer_ofCurve]

end Keychain

theorem Commitment.exists_commit_zero (key : SecretKey) : ∃ c pub,
    commit .commit 0 key = .ok c ∧ c.toPublicKey = .ok pub ∧
      Point.ofGroup key.element = pub.toPoint := by
  obtain ⟨c, hc⟩ := exists_encodes key.element_ne_zero
  obtain ⟨pub, hpub, hpoint⟩ := exists_toPublicKey hc
  refine ⟨c, pub, ?_, hpub, hpoint⟩
  rw [commit_eq_ok_iff, UInt64.toNat_zero, Nat.cast_zero, key.opening_zero_eq]
  exact hc

/-- As long as a draw gives a signature, it is canonical, survives being written and read, and is
accepted under the public key. A keychain makes the same one by name and from the sum of the name,
and the commitment to zero stands for its public key. -/
theorem Signature.sign_accepted :
    (∀ (cap : Capability) (msg : Message) (key : SecretKey),
      cap.canSign = true → cap.canVerify = true → Ends msg key →
      ∃ sig pub, sign cap msg key = .ok sig ∧
        (1 ≤ sig.r.val ∧ sig.r.val ≤ groupOrder - 1) ∧
        (1 ≤ sig.s.val ∧ sig.s.val ≤ (groupOrder - 1) / 2) ∧
        ofCompact sig.toCompact = .ok sig ∧
        key.publicKey cap = .ok pub ∧ verify cap msg sig pub = .ok ()) ∧
    ∀ (root : KeyRoot) (cache : KeyCache) (id : Identifier) (msg : Message) (key : SecretKey),
      root.names cache id = .ok key →
      (Keychain.sign msg id).result root cache = (Keychain.signSum msg id).result root cache ∧
      (Ends msg key → ∃ sig c pub,
        (Keychain.sign msg id).result root cache = .ok sig ∧
        (Keychain.commit 0 id).result root cache = .ok c ∧
        (Keychain.signBoth msg id).result root cache = .ok (sig, sig, c) ∧
        c.toPublicKey = .ok pub ∧
        ∀ cap : Capability, cap.canVerify = true → verify cap msg sig pub = .ok ()) := by
  refine ⟨?_, ?_⟩
  · intro cap msg key hsign hverify hends
    obtain ⟨sig, hsig⟩ := exists_sign hsign hends
    obtain ⟨pub, hpub, hpoint⟩ := key.exists_publicKey hsign
    have haccepts := accepts_of_sign hsig
    obtain ⟨hr₁, hr₂, hs₁, hs₂⟩ := halves_of_accepts haccepts
    exact ⟨sig, pub, hsig, ⟨hr₁, hr₂⟩, ⟨hs₁, hs₂⟩, ofCompact_toCompact sig, hpub,
      (verify_eq_ok_iff_accepts hpoint).mpr ⟨hverify, haccepts⟩⟩
  · intro root cache id msg key hname
    have hsign := Keyed.result_eq_of_asksOnly (Keychain.asksOnly_sign msg id) hname
    have hsum := Keyed.result_eq_of_asksOnly (Keychain.asksOnly_signSum msg id) hname
    have hcommit := Keyed.result_eq_of_asksOnly (Keychain.asksOnly_commit 0 id) hname
    have hboth := Keyed.result_eq_of_asksOnly (Keychain.asksOnly_signBoth msg id) hname
    have hanswer := @Keychain.answer_sign root id key (fun _ ↦ .ok key) msg rfl
    have hanswerSum := @Keychain.answer_signSum root id key (fun _ ↦ .ok key) msg rfl
    rw [hanswer] at hsign
    refine ⟨by rw [hsign, hsum, hanswerSum], ?_⟩
    intro hends
    obtain ⟨sig, hsig⟩ := @exists_sign .commit msg key rfl hends
    obtain ⟨c, pub, hc, hpub, hpoint⟩ := Commitment.exists_commit_zero key
    have hanswerCommit : (Keychain.commit 0 id).answer root (fun _ ↦ .ok key) = .ok c := by
      rw [Keychain.commit, Keyed.answer_bind, Keyed.answer_secretKey, ok_bind,
        Keyed.answer_ofCurve, hc]
      rfl
    rw [hsig] at hsign hanswer hanswerSum
    refine ⟨sig, c, pub, hsign, hcommit.trans hanswerCommit, ?_, hpub, ?_⟩
    · rw [hboth, Keychain.signBoth, Keyed.answer_bind, hanswer]
      simp only [Except.mapError, ok_bind]
      rw [Keyed.answer_bind, hanswerSum]
      simp only [Except.mapError, ok_bind]
      rw [Keyed.answer_bind, hanswerCommit]
      rfl
    · intro cap hcap
      exact (verify_eq_ok_iff_accepts hpoint).mpr ⟨hcap, accepts_of_sign hsig⟩

namespace Signature

open Transaction

theorem sign_accepted_ones :
    (∃ sig pub, sign .full (kernelMessage 3 0) onesChild.secretKey = .ok sig ∧
      onesChild.secretKey.publicKey .full = .ok pub ∧
      verify .full (kernelMessage 3 0) sig pub = .ok ()) ∧
    ∃ sig c pub, (Keychain.signBoth (kernelMessage 3 0) onesId).result onesRoot onesCache =
        .ok (sig, sig, c) ∧
      c.toPublicKey = .ok pub ∧
      verify .verifyOnly (kernelMessage 3 0) sig pub = .ok () := by
  obtain ⟨hkey, hname⟩ := sign_accepted
  obtain ⟨sig, pub, hsig, -, -, -, hpub, hverify⟩ :=
    hkey .full (kernelMessage 3 0) onesChild.secretKey rfl rfl ends_ones
  obtain ⟨-, hnamed⟩ :=
    hname onesRoot onesCache onesId (kernelMessage 3 0) onesChild.secretKey names_onesCache
  obtain ⟨sig', c, pub', -, -, hboth, hpub', hverify'⟩ := hnamed ends_ones
  exact ⟨⟨sig, pub, hsig, hpub, hverify⟩, sig', c, pub', hboth, hpub', hverify' .verifyOnly rfl⟩

end Signature

end ConfidentialTx
