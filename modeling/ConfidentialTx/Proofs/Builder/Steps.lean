import Mathlib
import ConfidentialTx.Builder.Steps
import ConfidentialTx.Proofs.Keychain.Blinding

namespace ConfidentialTx

variable {root : KeyRoot} {names : Identifier → Except KeychainError SecretKey}

/-- The output commits to the value under the key, with a proof that carries no message. -/
structure Output.MadeOf (out : Output) (value : UInt64) (key : SecretKey) : Prop where
  features : out.features = .plain
  commit : Commitment.commit .commit value key = .ok out.commit
  switchCommitHash : ∃ c, Commitment.commitSwitch .commit key = .ok c ∧
    out.switchCommitHash = .ofCommitment c key.toBytes
  proof : RangeProof.prove .commit value key out.commit [] = .ok out.proof

namespace Step

/-- What a step makes of a transaction. -/
def change (root : KeyRoot) (names : Identifier → Except KeychainError SecretKey) :
    Step → Except KeychainError (Transaction → Transaction)
  | input value id =>
    (fun commit tx ↦ tx.addInput ⟨commit⟩) <$> (Keychain.commit value id).answer root names
  | output value id => (fun o tx ↦ tx.addOutput o) <$> (makeOutput value id).answer root names
  | withFee fee => .ok fun tx ↦ { tx with fee }
  | withLockHeight lockHeight => .ok fun tx ↦ { tx with lockHeight }
  | initialTx tx => .ok fun _ ↦ tx
  | withExcess _ => .ok id

/-- What a step makes of a sum. -/
def collect : Step → BlindSum → BlindSum
  | input _ id => fun sum ↦ sum.subKeyId id
  | output _ id => fun sum ↦ sum.addKeyId id
  | withExcess blind => fun sum ↦ sum.addFactor blind
  | withFee _ | withLockHeight _ | initialTx _ => id

def contribution (names : Identifier → Except KeychainError SecretKey) : Step → ZMod groupOrder
  | input _ id => -share names id
  | output _ id => share names id
  | withExcess blind => blind.scalar.toZMod
  | withFee _ | withLockHeight _ | initialTx _ => 0

theorem answer_append (draft : Draft) (step : Step) :
    (step.append draft).answer root names =
      (fun g ↦ ⟨g draft.tx, step.collect draft.sum⟩) <$> step.change root names := by
  cases step with
  | input value id =>
    simp only [append, change, Keyed.answer_bind, Keyed.answer_pure]
    cases (Keychain.commit value id).answer root names <;> rfl
  | output value id =>
    simp only [append, change, Keyed.answer_bind, Keyed.answer_pure]
    cases (makeOutput value id).answer root names <;> rfl
  | withFee fee => rfl
  | withLockHeight lockHeight => rfl
  | initialTx tx => rfl
  | withExcess blind => rfl

def changes (root : KeyRoot) (names : Identifier → Except KeychainError SecretKey) :
    List Step → Except KeychainError (Transaction → Transaction)
  | [] => .ok id
  | step :: steps => do
    let g ← step.change root names
    let h ← changes root names steps
    return h ∘ g

theorem changes_append (steps rest : List Step) :
    changes root names (steps ++ rest) = do
      let g ← changes root names steps
      let h ← changes root names rest
      return h ∘ g := by
  induction steps with
  | nil =>
    rw [List.nil_append]
    cases changes root names rest <;> rfl
  | cons step steps ih =>
    rw [List.cons_append, changes, ih, changes]
    cases hstep : step.change root names with
    | error e => rfl
    | ok g =>
      cases hsteps : changes root names steps with
      | error e => rfl
      | ok h =>
        cases hrest : changes root names rest <;> rfl

theorem answer_appendAll (draft : Draft) (steps : List Step) :
    (appendAll draft steps).answer root names =
      (fun g ↦ ⟨g draft.tx, steps.foldl (fun sum step ↦ step.collect sum) draft.sum⟩) <$>
        changes root names steps := by
  induction steps generalizing draft with
  | nil => rfl
  | cons step steps ih =>
    simp only [appendAll, Keyed.answer_bind, Keyed.answer_log, answer_append, ih, changes,
      List.foldl_cons]
    cases hstep : step.change root names with
    | error e => rfl
    | ok g =>
      cases hsteps : changes root names steps with
      | error e => rfl
      | ok h => rfl

theorem answer_commit (value : UInt64) (id : Identifier) :
    (Keychain.commit value id).answer root names =
      names id >>= fun key ↦ (Commitment.commit .commit value key).mapError .ofCurve := by
  simp only [Keychain.commit, Keyed.answer_bind, Keyed.answer_secretKey, Keyed.answer_ofCurve]

theorem answer_commit_eq_ok {value : UInt64} {id : Identifier} {c : Commitment}
    (h : (Keychain.commit value id).answer root names = .ok c) :
    ∃ key, names id = .ok key ∧ Commitment.commit .commit value key = .ok c := by
  rw [answer_commit] at h
  obtain ⟨key, hkey, h⟩ := bind_eq_ok_iff.mp h
  exact ⟨key, hkey, mapError_eq_ok_iff.mp h⟩

theorem answer_makeOutput_eq_ok {value : UInt64} {id : Identifier} {out : Output}
    (h : (makeOutput value id).answer root names = .ok out) :
    ∃ key, names id = .ok key ∧ out.MadeOf value key := by
  rw [makeOutput, Keyed.answer_bind] at h
  obtain ⟨c, hc, h⟩ := bind_eq_ok_iff.mp h
  rw [Keyed.answer_bind] at h
  obtain ⟨hash, hhash, h⟩ := bind_eq_ok_iff.mp h
  rw [Keyed.answer_bind] at h
  obtain ⟨proof, hproof, h⟩ := bind_eq_ok_iff.mp h
  cases h
  obtain ⟨key, hkey, hcommit⟩ := answer_commit_eq_ok hc
  rw [Keychain.switchCommitHash, Keyed.answer_bind, Keyed.answer_secretKey, hkey, ok_bind,
    Keyed.answer_bind, Keyed.answer_ofCurve] at hhash
  obtain ⟨s, hs, hhash⟩ := bind_eq_ok_iff.mp hhash
  cases hhash
  rw [Keychain.rangeProof, Keyed.answer_bind, Keyed.answer_secretKey, hkey, ok_bind,
    Keyed.answer_ofCurve, mapError_eq_ok_iff] at hproof
  exact ⟨key, hkey, rfl, hcommit, ⟨s, mapError_eq_ok_iff.mp hs, rfl⟩, hproof⟩

def keyId? : Step → Option Identifier
  | input _ id | output _ id => some id
  | withFee _ | withLockHeight _ | initialTx _ | withExcess _ => none

def Found (names : Identifier → Except KeychainError SecretKey) (step : Step) : Prop :=
  ∀ id, step.keyId? = some id → ∃ key, names id = .ok key

theorem found_of_change {step : Step} {g : Transaction → Transaction}
    (hstep : step.change root names = .ok g) : step.Found names := by
  cases step with
  | input value id =>
    obtain ⟨c, hc, -⟩ := map_eq_ok_iff.mp hstep
    obtain ⟨key, hkey, -⟩ := answer_commit_eq_ok hc
    rintro _ ⟨⟩
    exact ⟨key, hkey⟩
  | output value id =>
    obtain ⟨out, hout, -⟩ := map_eq_ok_iff.mp hstep
    obtain ⟨key, hkey, -⟩ := answer_makeOutput_eq_ok hout
    rintro _ ⟨⟩
    exact ⟨key, hkey⟩
  | withFee fee => rintro _ ⟨⟩
  | withLockHeight lockHeight => rintro _ ⟨⟩
  | initialTx tx => rintro _ ⟨⟩
  | withExcess blind => rintro _ ⟨⟩

theorem found_of_changes {steps : List Step} {g : Transaction → Transaction}
    (hsteps : changes root names steps = .ok g) : ∀ step ∈ steps, step.Found names := by
  induction steps generalizing g with
  | nil => exact List.forall_mem_nil _
  | cons step steps ih =>
    obtain ⟨g₁, hstep, h⟩ := bind_eq_ok_iff.mp hsteps
    obtain ⟨g₂, hrest, -⟩ := bind_eq_ok_iff.mp h
    exact List.forall_mem_cons.mpr ⟨found_of_change hstep, ih hrest⟩

theorem resolved_collect {step : Step} {sum : BlindSum} (hfound : step.Found names)
    (hsum : sum.Resolved names) : (step.collect sum).Resolved names := by
  obtain ⟨hpos, hneg⟩ := List.forall_mem_append.mp hsum
  cases step with
  | input value id =>
    refine List.forall_mem_append.mpr ⟨hpos, List.forall_mem_append.mpr ⟨hneg, ?_⟩⟩
    exact List.forall_mem_singleton.mpr (hfound id rfl)
  | output value id =>
    refine List.forall_mem_append.mpr ⟨List.forall_mem_append.mpr ⟨hpos, ?_⟩, hneg⟩
    exact List.forall_mem_singleton.mpr (hfound id rfl)
  | withFee fee => exact hsum
  | withLockHeight lockHeight => exact hsum
  | initialTx tx => exact hsum
  | withExcess blind => exact hsum

theorem total_collect (step : Step) (sum : BlindSum) :
    (step.collect sum).total names = sum.total names + step.contribution names := by
  cases step with
  | input value id =>
    simp only [collect, BlindSum.subKeyId, BlindSum.total, contribution, List.map_append,
      List.sum_append, List.map_singleton, List.sum_singleton]
    ring
  | output value id =>
    simp only [collect, BlindSum.addKeyId, BlindSum.total, contribution, List.map_append,
      List.sum_append, List.map_singleton, List.sum_singleton]
    ring
  | withFee fee => exact (add_zero _).symm
  | withLockHeight lockHeight => exact (add_zero _).symm
  | initialTx tx => exact (add_zero _).symm
  | withExcess blind =>
    simp only [collect, BlindSum.addFactor, BlindSum.total, contribution, List.map_append,
      List.sum_append, List.map_singleton, List.sum_singleton]
    ring

theorem collect_of_changes {steps : List Step} {g : Transaction → Transaction} {sum : BlindSum}
    (hsteps : changes root names steps = .ok g) (hsum : sum.Resolved names) :
    (steps.foldl (fun sum step ↦ step.collect sum) sum).Resolved names ∧
    (steps.foldl (fun sum step ↦ step.collect sum) sum).total names =
      sum.total names + (steps.map (contribution names)).sum := by
  induction steps generalizing sum g with
  | nil => exact ⟨hsum, by simp⟩
  | cons step steps ih =>
    obtain ⟨g₁, hstep, h⟩ := bind_eq_ok_iff.mp hsteps
    obtain ⟨g₂, hrest, -⟩ := bind_eq_ok_iff.mp h
    obtain ⟨hresolved, htotal⟩ := ih hrest (resolved_collect (found_of_change hstep) hsum)
    refine ⟨hresolved, ?_⟩
    rw [List.foldl_cons, htotal, total_collect, List.map_cons, List.sum_cons, add_assoc]

end Step

namespace Transaction

/-- The transaction as a blinding factor signs it. -/
def signed (tx : Transaction) (blind : ZMod groupOrder) :
    Except KeychainError (Transaction × BlindingFactor) := do
  let key ← (BlindingFactor.mk (.ofZMod blind)).toSecretKey
  let sig ← (Signature.sign .commit tx.message key).mapError .ofCurve
  return (tx.withExcessSig sig, ⟨.ofZMod blind⟩)

theorem signed_eq_ok {tx tx' : Transaction} {b : ZMod groupOrder} {blind : BlindingFactor}
    (h : tx.signed b = .ok (tx', blind)) :
    (∃ key sig, blind.toSecretKey = .ok key ∧ Signature.sign .commit tx.message key = .ok sig ∧
      tx' = tx.withExcessSig sig) ∧ blind.scalar.toZMod = b := by
  obtain ⟨key, hkey, h⟩ := bind_eq_ok_iff.mp h
  obtain ⟨sig, hsig, h⟩ := bind_eq_ok_iff.mp h
  cases h
  exact ⟨⟨key, sig, hkey, mapError_eq_ok_iff.mp hsig, rfl⟩, Residue.toZMod_ofZMod b⟩

theorem answer_finish {draft : Draft} (h : draft.sum.Resolved names) :
    draft.finish.answer root names = draft.tx.signed (draft.sum.total names) := by
  simp only [Draft.finish, Keyed.answer_bind, Keychain.answer_blindSum h,
    Keychain.signWithBlinding, Keyed.answer_ofExcept, Keyed.answer_ofCurve, Keyed.answer_log,
    Keyed.answer_pure, signed, ok_bind]
  generalize (BlindingFactor.mk (.ofZMod (draft.sum.total names))).toSecretKey = key?
  cases key? with
  | error e => rfl
  | ok key =>
    rw [ok_bind, ok_bind]
    rfl

/-- A build in two halves: what the steps make of the empty transaction, and its signature. -/
theorem answer_build (steps : List Step) :
    (build steps).answer root names =
      (Step.changes root names steps >>= fun g ↦
        (g .empty).signed (steps.map (Step.contribution names)).sum).mapError .keychain := by
  have hbuild : (build steps).answer root names =
      ((Step.appendAll .empty steps >>= Draft.finish).answer root names).mapError .keychain := by
    rw [← Keyed.answer_mapError]
    simp only [build, Keyed.answer, ExceptT.run_mk, KeyProgram.answer_bind, KeyProgram.answer]
  rw [hbuild, Keyed.answer_bind, Step.answer_appendAll]
  cases hsteps : Step.changes root names steps with
  | error e => rfl
  | ok g =>
    have hempty : BlindSum.empty.Resolved names := by simp [BlindSum.Resolved, BlindSum.empty]
    obtain ⟨hresolved, htotal⟩ := Step.collect_of_changes hsteps hempty
    have hzero : BlindSum.empty.total names = 0 := by simp [BlindSum.total, BlindSum.empty]
    rw [hzero, zero_add] at htotal
    rw [ok_bind, ← htotal]
    exact congrArg _ (answer_finish hresolved)

theorem answer_build_eq_ok {steps : List Step} {tx : Transaction} {blind : BlindingFactor}
    (h : (build steps).answer root names = .ok (tx, blind)) :
    ∃ g, Step.changes root names steps = .ok g ∧
      (g .empty).signed (steps.map (Step.contribution names)).sum = .ok (tx, blind) := by
  rw [answer_build, mapError_eq_ok_iff] at h
  exact bind_eq_ok_iff.mp h

end Transaction

namespace Step

theorem resolving_makeOutput (value : UInt64) (id : Identifier) :
    (makeOutput value id).Resolving :=
  .bind (Keychain.resolving_commit value id) fun c ↦
    .bind (Keychain.resolving_switchCommitHash id) fun _ ↦
      .bind (Keychain.resolving_rangeProof value id c []) fun _ ↦ Keyed.resolving_pure _

theorem resolving_append (draft : Draft) (step : Step) : (step.append draft).Resolving := by
  cases step with
  | input value id =>
    exact .bind (Keychain.resolving_commit value id) fun _ ↦ Keyed.resolving_pure _
  | output value id => exact .bind (resolving_makeOutput value id) fun _ ↦ Keyed.resolving_pure _
  | withFee fee => exact Keyed.resolving_pure _
  | withLockHeight lockHeight => exact Keyed.resolving_pure _
  | initialTx tx => exact Keyed.resolving_pure _
  | withExcess blind => exact Keyed.resolving_pure _

theorem resolving_appendAll (draft : Draft) (steps : List Step) :
    (appendAll draft steps).Resolving := by
  induction steps generalizing draft with
  | nil => exact Keyed.resolving_pure draft
  | cons step steps ih =>
    exact .bind (Keyed.resolving_log _) fun _ ↦ .bind (resolving_append draft step) fun _ ↦ ih _

end Step

theorem Draft.resolving_finish (draft : Draft) : draft.finish.Resolving :=
  .bind (Keychain.resolving_blindSum draft.sum) fun blind ↦
    .bind (Keychain.resolving_signWithBlinding draft.tx.message blind) fun _ ↦
      .bind (Keyed.resolving_log _) fun _ ↦ Keyed.resolving_pure _

theorem Transaction.resolving_build (steps : List Step) : (build steps).Resolving := by
  refine KeyProgram.Resolving.bind (Keyed.Resolving.mapError _ ?_) fun _ ↦ trivial
  exact .bind (Step.resolving_appendAll .empty steps) fun draft ↦ draft.resolving_finish

end ConfidentialTx
