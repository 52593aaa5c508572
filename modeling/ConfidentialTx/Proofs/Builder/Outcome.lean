import Mathlib
import ConfidentialTx.Proofs.Builder.Balance
import ConfidentialTx.Proofs.Builder.Restore

namespace ConfidentialTx

variable {root : KeyRoot} {names : Identifier → Except KeychainError SecretKey} {cache : KeyCache}
  {step : Step} {steps : List Step}

namespace Step

/-- The identifier is that of the first step whose key is not found. -/
def FirstMissing (names : Identifier → Except KeychainError SecretKey) (steps : List Step)
    (id : Identifier) : Prop :=
  ∃ front step back, steps = front ++ step :: back ∧ (∀ s ∈ front, s.Found names) ∧
    step.keyId? = some id ∧ ∀ key, names id ≠ .ok key

/-- Value and key do not cancel out in the step's commitment, if it makes one. -/
def Committable (names : Identifier → Except KeychainError SecretKey) : Step → Prop
  | input value id | output value id => ∀ key, names id = .ok key →
    CurveGroup.opening value.toNat key.scalar.toZMod ≠ 0
  | withFee _ | withLockHeight _ | initialTx _ | withExcess _ => True

theorem change_outcome (hcommittable : step.Committable names) :
    (∃ g, step.change root names = .ok g) ∨
      ∃ id e, step.keyId? = some id ∧ names id = .error e ∧ step.change root names = .error e := by
  cases step with
  | input value id =>
    cases hkey : names id with
    | error e =>
      refine .inr ⟨id, e, rfl, hkey, ?_⟩
      rw [change, answer_commit, hkey]
      rfl
    | ok key =>
      obtain ⟨c, hc⟩ := Commitment.exists_encodes (hcommittable key hkey)
      have hcommit := Commitment.commit_eq_ok_iff.mpr hc
      refine .inl ⟨fun tx ↦ tx.addInput ⟨c⟩, ?_⟩
      rw [change, answer_commit, hkey, ok_bind, hcommit]
      rfl
  | output value id =>
    cases hkey : names id with
    | error e =>
      refine .inr ⟨id, e, rfl, hkey, ?_⟩
      rw [change, makeOutput, Keyed.answer_bind, answer_commit, hkey]
      rfl
    | ok key =>
      obtain ⟨c, hc⟩ := Commitment.exists_encodes (hcommittable key hkey)
      obtain ⟨out, hout⟩ := @exists_makeOutput root _ _ _ _ _ hkey
        (Commitment.commit_eq_ok_iff.mpr hc)
      refine .inl ⟨fun tx ↦ tx.addOutput out, ?_⟩
      rw [change, hout]
      rfl
  | withFee fee => exact .inl ⟨_, rfl⟩
  | withLockHeight lockHeight => exact .inl ⟨_, rfl⟩
  | initialTx tx => exact .inl ⟨_, rfl⟩
  | withExcess blind => exact .inl ⟨_, rfl⟩

theorem changes_outcome (hcommittable : ∀ step ∈ steps, step.Committable names) :
    (∃ g, changes root names steps = .ok g) ∨
      ∃ id e, FirstMissing names steps id ∧ names id = .error e ∧
        changes root names steps = .error e := by
  induction steps with
  | nil => exact .inl ⟨id, rfl⟩
  | cons step steps ih =>
    obtain ⟨hfirst, hrest⟩ := List.forall_mem_cons.mp hcommittable
    rcases @change_outcome root names step hfirst with ⟨g, hchange⟩ | ⟨id, e, hid, hname, hchange⟩
    · rcases ih hrest with
        ⟨h, hchanges⟩ | ⟨id, e, ⟨front, missing, back, rfl, hfront, hmissing⟩, hname, hchanges⟩
      · refine .inl ⟨h ∘ g, ?_⟩
        rw [changes, hchange, hchanges]
        rfl
      · refine .inr ⟨id, e, ⟨step :: front, missing, back, rfl,
          List.forall_mem_cons.mpr ⟨found_of_change hchange, hfront⟩, hmissing⟩, hname, ?_⟩
        rw [changes, hchange, hchanges]
        rfl
    · have hunknown : ∀ key, names id ≠ .ok key := by
        intro key hkey
        rw [hname] at hkey
        cases hkey
      refine .inr ⟨id, e, ⟨[], step, steps, rfl, List.forall_mem_nil _, hid, hunknown⟩, hname, ?_⟩
      rw [changes, hchange]
      rfl

theorem FirstMissing.not_found {id : Identifier} (h : FirstMissing names steps id) :
    ∃ step ∈ steps, ¬step.Found names := by
  obtain ⟨front, step, back, rfl, -, hid, hunknown⟩ := h
  refine ⟨step, List.mem_append_right _ List.mem_cons_self, fun hfound ↦ ?_⟩
  obtain ⟨key, hkey⟩ := hfound id hid
  exact hunknown key hkey

end Step

namespace Transaction

theorem signed_zero (tx : Transaction) : tx.signed 0 = .error .invalidSecretKey := by
  have hzero : (Residue.ofZMod 0 : Scalar) = 0 := by
    rw [← Residue.toZMod_eq_zero, Residue.toZMod_ofZMod]
  rw [signed, BlindingFactor.toSecretKey, hzero, SecretKey.ofScalar?, dif_pos rfl]
  rfl

theorem exists_signed {tx : Transaction} {b : ZMod groupOrder} (hb : b ≠ 0)
    (hends : ∀ key : SecretKey, key.scalar.toZMod = b → Signature.Ends tx.message key) :
    ∃ built, tx.signed b = .ok built := by
  have hne : (Residue.ofZMod b : Scalar) ≠ 0 := by
    rw [ne_eq, ← Residue.toZMod_eq_zero, Residue.toZMod_ofZMod]
    exact hb
  let key : SecretKey := ⟨.ofZMod b, hne⟩
  have hkey : (BlindingFactor.mk (.ofZMod b)).toSecretKey = .ok key :=
    BlindingFactor.toSecretKey_of_scalar key
  obtain ⟨sig, hsig⟩ := @Signature.exists_sign .commit tx.message key rfl
    (hends key (Residue.toZMod_ofZMod b))
  exact ⟨(tx.withExcessSig sig, ⟨.ofZMod b⟩), by rw [signed, hkey, ok_bind, hsig]; rfl⟩

/-- The nonces for the net blinding factor's signature do not run out. -/
def SigningEnds (names : Identifier → Except KeychainError SecretKey) (steps : List Step) : Prop :=
  ∀ key : SecretKey, key.scalar.toZMod = (steps.map (Step.contribution names)).sum →
    Signature.Ends
      (kernelMessage (steps.foldl Step.feeAfter 0) (steps.foldl Step.lockHeightAfter 0)) key

theorem exists_build (hcommittable : ∀ step ∈ steps, step.Committable names)
    (hfound : ∀ step ∈ steps, step.Found names)
    (hnet : (steps.map (Step.contribution names)).sum ≠ 0) (hends : SigningEnds names steps) :
    ∃ built, (build steps).answer root names = .ok built := by
  rcases @Step.changes_outcome root names steps hcommittable with
    ⟨g, hg⟩ | ⟨id, e, hmissing, -⟩
  · obtain ⟨hfee, hlockHeight⟩ := Step.kernel_changes hg .empty
    obtain ⟨built, hbuilt⟩ := @exists_signed (g .empty) _ hnet fun key hkey ↦ by
      rw [message, hfee, hlockHeight]
      exact hends key hkey
    exact ⟨built, by rw [answer_build, hg, ok_bind, hbuilt]; rfl⟩
  · obtain ⟨step, hstep, hnot⟩ := hmissing.not_found
    exact absurd (hfound step hstep) hnot

theorem names_zero_onesCache : onesRoot.names onesCache .zero = .error (.unknownKeyId .zero) := by
  have hroot : (.zero : Identifier) ≠ onesRoot.id := by decide +kernel
  have hother : (.zero : Identifier) ≠ onesId := by decide +kernel
  rw [KeyRoot.names, (KeyRoot.resolve_spec reaches_onesCache.sound .zero).1, KeyRoot.find,
    if_neg hroot, onesCache, KeyCache.key?_insert_of_ne _ _ _ hother]
  rfl

theorem committable_ones : (Step.output 5 onesId).Committable (onesRoot.names onesCache) := by
  have hcommit : (Commitment.commit .commit 5 onesChild.secretKey).isOk := by decide +kernel
  obtain ⟨c, hc⟩ := exists_of_isOk hcommit
  intro key hkey hzero
  rw [names_onesCache] at hkey
  cases hkey
  rw [Commitment.commit_eq_ok_iff, hzero] at hc
  exact Commitment.not_encodes_zero c hc

theorem signingEnds_ones
    (hnet : (steps.map (Step.contribution (onesRoot.names onesCache))).sum =
      onesChild.secretKey.scalar.toZMod)
    (hfee : steps.foldl Step.feeAfter 0 = 3) (hlockHeight : steps.foldl Step.lockHeightAfter 0 = 0) :
    SigningEnds (onesRoot.names onesCache) steps := by
  intro key hkey
  rw [hnet] at hkey
  have hsame : key = onesChild.secretKey := SecretKey.ext (Residue.toZMod_injective hkey)
  rw [hsame, hfee, hlockHeight]
  exact ends_ones

/-- A build succeeds if and only if the keys of all steps are found and their sum is not zero. Else the
error names the first key that is not found, or the sum has no secret key. -/
theorem build_outcome (hreach : root.Reaches cache) (hdistinct : root.DistinctChildren cache)
    (hderived : ∀ i < root.config.keySearchLimit, ∃ child, root.child i = .ok child)
    (hcommittable : ∀ step ∈ steps, step.Committable (root.names cache))
    (hends : SigningEnds (root.names cache) steps) :
    ((∃ built, (build steps).result root cache = .ok built) ↔
      (∀ step ∈ steps, step.Found (root.names cache)) ∧
        (steps.map (Step.contribution (root.names cache))).sum ≠ 0) ∧
    ∀ e, (build steps).result root cache = .error e →
      (∃ id, Step.FirstMissing (root.names cache) steps id ∧ e = .keychain (.unknownKeyId id)) ∨
      (∀ step ∈ steps, step.Found (root.names cache)) ∧
        (steps.map (Step.contribution (root.names cache))).sum = 0 ∧
        e = .keychain .invalidSecretKey := by
  rw [(KeyRoot.Later.refl root cache).result_eq (resolving_build steps) hreach hdistinct]
  rcases @Step.changes_outcome root _ steps hcommittable with
    ⟨g, hg⟩ | ⟨id, e, hmissing, hname, hchanges⟩
  · have hfound := Step.found_of_changes hg
    by_cases hnet : (steps.map (Step.contribution (root.names cache))).sum = 0
    · have hbuild : (build steps).answer root (root.names cache) =
          .error (.keychain .invalidSecretKey) := by
        rw [answer_build, hg, ok_bind, hnet, signed_zero]
        rfl
      rw [hbuild]
      refine ⟨⟨?_, fun h ↦ absurd hnet h.2⟩, ?_⟩
      · rintro ⟨built, hbuilt⟩
        cases hbuilt
      · rintro e ⟨⟩
        exact .inr ⟨hfound, hnet, rfl⟩
    · obtain ⟨built, hbuilt⟩ := @exists_build root _ _ hcommittable hfound hnet hends
      rw [hbuilt]
      refine ⟨⟨fun _ ↦ ⟨hfound, hnet⟩, fun _ ↦ ⟨built, rfl⟩⟩, ?_⟩
      rintro e ⟨⟩
  · obtain rfl := KeyRoot.names_eq_error hreach.sound hderived hname
    have hbuild : (build steps).answer root (root.names cache) =
        .error (.keychain (.unknownKeyId id)) := by
      rw [answer_build, hchanges]
      rfl
    rw [hbuild]
    refine ⟨⟨?_, fun h ↦ ?_⟩, ?_⟩
    · rintro ⟨built, hbuilt⟩
      cases hbuilt
    · obtain ⟨step, hstep, hnot⟩ := hmissing.not_found
      exact absurd (h.1 step hstep) hnot
    · rintro e ⟨⟩
      exact .inl ⟨id, hmissing, rfl⟩

/-- An output that is dropped still has its share, and an input that would be dropped its key looked
for. -/
theorem build_outcome_ones :
    (∃ built, (build [.output 5 onesId, .initialTx .empty, .withFee 3]).result onesRoot onesCache =
      .ok built) ∧
    ¬∃ built, (build [.output 5 onesId, .input 2 .zero, .initialTx .empty, .withFee 3]).result
      onesRoot onesCache = .ok built := by
  have hderived : ∀ i < onesRoot.config.keySearchLimit, ∃ child, onesRoot.child i = .ok child :=
    fun i hi ↦ absurd hi UInt32.not_lt_zero
  have hinput : (Step.input 2 .zero).Committable (onesRoot.names onesCache) := by
    intro key hkey
    rw [names_zero_onesCache] at hkey
    cases hkey
  have hshare : share (onesRoot.names onesCache) .zero = 0 := by
    rw [share, names_zero_onesCache]
  have hnet : ([.output 5 onesId, .initialTx .empty, .withFee 3].map
      (Step.contribution (onesRoot.names onesCache))).sum =
        onesChild.secretKey.scalar.toZMod := by
    simp [Step.contribution, share_of_names names_onesCache]
  have hnet' : ([.output 5 onesId, .input 2 .zero, .initialTx .empty, .withFee 3].map
      (Step.contribution (onesRoot.names onesCache))).sum =
        onesChild.secretKey.scalar.toZMod := by
    simp [Step.contribution, share_of_names names_onesCache, hshare]
  obtain ⟨hok, -⟩ := build_outcome reaches_onesCache distinctChildren_onesCache hderived (by
    simp only [List.forall_mem_cons]
    exact ⟨committable_ones, trivial, trivial, List.forall_mem_nil _⟩)
    (signingEnds_ones hnet rfl rfl)
  obtain ⟨hok', -⟩ := build_outcome reaches_onesCache distinctChildren_onesCache hderived (by
    simp only [List.forall_mem_cons]
    exact ⟨committable_ones, hinput, trivial, trivial, List.forall_mem_nil _⟩)
    (signingEnds_ones hnet' rfl rfl)
  refine ⟨hok.mpr ⟨?_, ?_⟩, fun h ↦ ?_⟩
  · simp [Step.Found, Step.keyId?, names_onesCache]
  · rw [hnet, ne_eq, Residue.toZMod_eq_zero]
    exact onesChild.secretKey.ne_zero
  · obtain ⟨key, hkey⟩ := (hok'.mp h).1 (.input 2 .zero) (by simp) .zero rfl
    rw [names_zero_onesCache] at hkey
    cases hkey

end Transaction

end ConfidentialTx
