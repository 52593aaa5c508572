import Mathlib
import ConfidentialTx.Proofs.Builder.Steps
import ConfidentialTx.Proofs.Commitment.Opening
import ConfidentialTx.Proofs.RangeProof.Rewind
import ConfidentialTx.Proofs.RangeProof.Exact

namespace ConfidentialTx

open RangeProof

variable {root : KeyRoot} {names : Identifier → Except KeychainError SecretKey}

theorem Commitment.Encodes.commit_iff {c : Commitment} {v : UInt64} {r : Scalar} {key : SecretKey}
    (h : c.Encodes (.opening v.toNat r.toZMod)) :
    Commitment.commit .commit v key = .ok c ↔ key.scalar = r := by
  rw [commit_eq_ok_iff]
  constructor
  · intro hkey
    exact Residue.toZMod_injective (CurveGroup.opening_blind_inj.mp (hkey.injective h))
  · rintro rfl
    exact h

theorem RangeProof.encodes_of_rewind {c : Commitment} {proof : RangeProof} {nonce : SecretKey}
    {info : ProofInfo} (h : rewind .commit c proof nonce = .ok info)
    (hsuccess : info.success = true) :
    ∃ parts opening, Uncovers nonce (.ofGroup c.element) proof.bytes parts opening ∧
      c.Encodes (.opening info.value.toNat opening.blind.toZMod) := by
  obtain ⟨hc, -, hinfo⟩ := rewind_eq_ok h
  cases hrewind : rewindPoint (.ofGroup c.element) nonce proof.bytes with
  | none =>
    rw [hrewind, Option.getD_none] at hinfo
    subst hinfo
    cases hsuccess
  | some found =>
    rw [hrewind, Option.getD_some] at hinfo
    subst hinfo
    obtain ⟨parts, opening, huncovers, hpoint, rfl⟩ := uncovers_of_rewindPoint hrewind
    exact ⟨parts, opening, huncovers, encodes_of_pedersen hc hpoint⟩

theorem Output.recoverValue_of_rewind {out : Output} {id : Identifier} {key : SecretKey}
    {info : ProofInfo} (hkey : names id = .ok key)
    (h : rewind .commit out.commit out.proof key = .ok info) :
    (out.recoverValue id).answer root names =
      .ok (if info.success then some info.value else none) := by
  rw [Output.recoverValue, Keyed.answer_bind, Keyed.answer_mapError, Keychain.rewindRangeProof,
    Keyed.answer_bind, Keyed.answer_secretKey, hkey, ok_bind, Keyed.answer_ofCurve, h]
  rfl

theorem Output.recoverValue_eq_some {out : Output} {id : Identifier} {key : SecretKey} {v : UInt64}
    (hkey : names id = .ok key) (h : (out.recoverValue id).answer root names = .ok (some v)) :
    ∃ info, rewind .commit out.commit out.proof key = .ok info ∧ info.success = true ∧
      info.value = v := by
  rw [Output.recoverValue, Keyed.answer_bind] at h
  obtain ⟨info, hinfo, h⟩ := bind_eq_ok_iff.mp h
  rw [Keyed.answer_mapError, mapError_eq_ok_iff, Keychain.rewindRangeProof, Keyed.answer_bind,
    Keyed.answer_secretKey, hkey, ok_bind, Keyed.answer_ofCurve, mapError_eq_ok_iff] at hinfo
  refine ⟨info, hinfo, ?_⟩
  rw [Keyed.answer_pure, Except.ok.injEq] at h
  split at h
  · rename_i hsuccess
    exact ⟨hsuccess, Option.some.inj h⟩
  · cases h

theorem Step.append_input_iff {draft : Draft} {id : Identifier} {key : SecretKey} {v : UInt64}
    {c : Commitment} (hkey : names id = .ok key) :
    (Step.append draft (.input v id)).answer root names =
        .ok ⟨draft.tx.addInput ⟨c⟩, draft.sum.subKeyId id⟩ ↔
      Commitment.commit .commit v key = .ok c := by
  rw [Step.append, Keyed.answer_bind, answer_commit, hkey, ok_bind]
  cases hcommit : Commitment.commit .commit v key with
  | error e =>
    constructor
    · intro h
      cases h
    · intro h
      cases h
  | ok c' =>
    simp only [Except.mapError, ok_bind, Keyed.answer_pure, Except.ok.injEq, Draft.mk.injEq,
      Transaction.addInput, Transaction.mk.injEq, List.append_cancel_left_eq, List.cons.injEq,
      Input.mk.injEq, and_true]

/-- The input step spends a recovered output if and only if the key is the blinding factor. -/
theorem recovered_spendable_iff {out : Output} {id : Identifier} {key : SecretKey} {v : UInt64}
    (hkey : names id = .ok key) (h : (out.recoverValue id).answer root names = .ok (some v))
    (draft : Draft) :
    ∃ parts opening,
      Uncovers key (.ofGroup out.commit.element) out.proof.bytes parts opening ∧
      out.commit.Encodes (.opening v.toNat opening.blind.toZMod) ∧
      (Commitment.commit .commit v key = .ok out.commit ↔ key.scalar = opening.blind) ∧
      ((Step.append draft (.input v id)).answer root names =
          .ok ⟨draft.tx.addInput ⟨out.commit⟩, draft.sum.subKeyId id⟩ ↔
        key.scalar = opening.blind) := by
  obtain ⟨info, hinfo, hsuccess, rfl⟩ := Output.recoverValue_eq_some hkey h
  obtain ⟨parts, opening, huncovers, hencodes⟩ := encodes_of_rewind hinfo hsuccess
  refine ⟨parts, opening, huncovers, hencodes, hencodes.commit_iff, ?_⟩
  rw [Step.append_input_iff hkey, hencodes.commit_iff]

/-- An output with a proof that was not made with the blinding factor. -/
def exactOutput : Output := ⟨.plain, exactCommit, .zero, exactProof⟩

theorem commit_exactNonce : Commitment.commit .commit 5 exactNonce ≠ .ok exactCommit := by
  decide +kernel

theorem recoverValue_exactOutput (id : Identifier) :
    (exactOutput.recoverValue id).answer KeyRoot.lone (fun _ ↦ .ok exactNonce) =
      .ok (some 5) :=
  exactOutput.recoverValue_of_rewind rfl rewind_exactProof

theorem recovered_exactOutput :
    ∃ parts opening,
      Uncovers exactNonce (.ofGroup exactCommit.element) exactProof.bytes parts opening ∧
      exactCommit.Encodes (.opening (5 : UInt64).toNat opening.blind.toZMod) ∧
      exactNonce.scalar ≠ opening.blind ∧
      (Step.append .empty (.input 5 .zero)).answer KeyRoot.lone (fun _ ↦ .ok exactNonce) ≠
        .ok ⟨Draft.empty.tx.addInput ⟨exactCommit⟩, Draft.empty.sum.subKeyId .zero⟩ := by
  obtain ⟨parts, opening, huncovers, hencodes, hcommit, hstep⟩ :=
    @recovered_spendable_iff KeyRoot.lone (fun _ ↦ .ok exactNonce) exactOutput .zero exactNonce 5
      rfl (recoverValue_exactOutput .zero) .empty
  have hne : exactNonce.scalar ≠ opening.blind := hcommit.not.mp commit_exactNonce
  exact ⟨parts, opening, huncovers, hencodes, hne, hstep.not.mpr hne⟩

/-- A proof of a single value gives the value to the nonce that it was made with, which opens the
commitment only if it is the blinding factor. -/
theorem RangeProof.rewind_exact_spendable_iff {v : UInt64} {c : Commitment}
    {blind nonce : SecretKey} {bs : Bytes} (hcommit : Commitment.commit .commit v blind = .ok c)
    (hsign : sign (.exact v) 0 (.pedersen v blind.scalar) blind nonce [] = .ok bs) :
    rewind .commit c ⟨.fit bs, bs.length⟩ nonce = .ok ⟨true, v, [], v, v⟩ ∧
    (Commitment.commit .commit v nonce = .ok c ↔ nonce.scalar = blind.scalar) :=
  ⟨rewind_of_sign_exact hcommit hsign, (Commitment.commit_eq_ok_iff.mp hcommit).commit_iff⟩

theorem not_forall_rewind_spendable :
    ¬∀ (c : Commitment) (proof : RangeProof) (key : SecretKey) (info : ProofInfo),
      rewind .commit c proof key = .ok info → info.success = true →
        Commitment.commit .commit info.value key = .ok c := by
  intro h
  obtain ⟨bs, hsign⟩ := exists_sign_exact
  obtain ⟨hrewind, hspendable⟩ := rewind_exact_spendable_iff commit_exactBlind hsign
  have hcommit := h exactCommit ⟨.fit bs, bs.length⟩ exactNonce ⟨true, 5, [], 5, 5⟩ hrewind rfl
  have hscalar := hspendable.mp hcommit
  exact absurd hscalar (by decide)

end ConfidentialTx
