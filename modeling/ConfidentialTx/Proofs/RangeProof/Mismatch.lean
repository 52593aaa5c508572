import Mathlib
import ConfidentialTx.Proofs.Commitment.Homomorphic
import ConfidentialTx.Proofs.RangeProof.Complete
import ConfidentialTx.Proofs.RangeProof.Rewind

namespace ConfidentialTx.RangeProof

variable {v w : UInt64} {key other : SecretKey} {c : Commitment} {message : Bytes}

theorem prove_of_long (v : UInt64) (key : SecretKey) (c : Commitment)
    (h : maxMessageSize < message.length) :
    prove .commit v key c message = .error (.proofMessageTooLong message.length) := by
  unfold prove
  rw [Capability.requireCommit_commit, ok_bind, if_pos h]
  rfl

theorem prove_of_commit_ne {d : Commitment} (hmessage : message.length ≤ maxMessageSize)
    (hcommit : Commitment.commit .commit v key = .ok d) (hne : d ≠ c) :
    prove .commit v key c message = .error .commitmentMismatch := by
  unfold prove
  -- The signer is not asked, and `simp` must not run it.
  generalize sign .full v.toNat (.pedersen v key.scalar) key key message = result
  rw [Capability.requireCommit_commit, ok_bind, if_neg hmessage.not_gt, hcommit]
  simp only [ok_bind, if_pos hne]
  rfl

theorem exists_prove (hmessage : message.length ≤ maxMessageSize)
    (hcommit : Commitment.commit .commit v key = .ok c) :
    ∃ proof, prove .commit v key c message = .ok proof := by
  obtain ⟨result, hresult⟩ : ∃ result,
      sign .full v.toNat (.pedersen v key.scalar) key key message = result := ⟨_, rfl⟩
  exact ⟨_, prove_eq hmessage hcommit hresult⟩

/-- The check compares encodings, which is to compare elements. -/
theorem prove_eq_mismatch_iff (hmessage : message.length ≤ maxMessageSize)
    (hpoint : Point.pedersen w other.scalar ≠ 0) (hc : c.Opens ⟨v, key.scalar⟩) :
    prove .commit w other c message = .error .commitmentMismatch ↔
      CurveGroup.opening w.toNat other.scalar.toZMod ≠ .opening v.toNat key.scalar.toZMod := by
  obtain ⟨d, hcommit, hd⟩ := Commitment.exists_commit hpoint
  constructor
  · intro h helement
    have hsame : d = c := Option.some.inj (hd.symm.trans (helement ▸ hc))
    obtain ⟨proof, hproof⟩ := exists_prove hmessage (hsame ▸ hcommit)
    rw [hproof] at h
    cases h
  · intro helement
    refine prove_of_commit_ne hmessage hcommit fun hsame ↦ helement ?_
    exact Commitment.Encodes.injective hd (hsame ▸ hc)

theorem natCast_value_inj : (v.toNat : ZMod groupOrder) = w.toNat ↔ v = w := by
  have horder : 2 ^ 64 < groupOrder := by decide
  rw [ZMod.natCast_eq_natCast_iff', Nat.mod_eq_of_lt (v.toNat_lt.trans horder),
    Nat.mod_eq_of_lt (w.toNat_lt.trans horder), UInt64.toNat_inj]

theorem prove_of_value_ne (hmessage : message.length ≤ maxMessageSize)
    (hpoint : Point.pedersen w key.scalar ≠ 0) (hc : c.Opens ⟨v, key.scalar⟩) (hne : w ≠ v) :
    prove .commit w key c message = .error .commitmentMismatch := by
  rw [prove_eq_mismatch_iff hmessage hpoint hc, ne_eq, CurveGroup.opening_value_inj,
    natCast_value_inj]
  exact hne

theorem prove_of_key_ne (hmessage : message.length ≤ maxMessageSize)
    (hpoint : Point.pedersen v other.scalar ≠ 0) (hc : c.Opens ⟨v, key.scalar⟩)
    (hne : other ≠ key) :
    prove .commit v other c message = .error .commitmentMismatch := by
  rw [prove_eq_mismatch_iff hmessage hpoint hc, ne_eq, CurveGroup.opening_blind_inj,
    Residue.toZMod_inj]
  exact fun hscalar ↦ hne (SecretKey.ext hscalar)

/-- A message that fits leaves the opening to decide, and one that is too long comes before it. -/
theorem prove_mismatch_exact :
    (∀ (v : UInt64) (key : SecretKey), Point.pedersen v key.scalar ≠ 0 →
      ∃ c, Commitment.commit .commit v key = .ok c ∧
        ∀ message : Bytes, message.length ≤ maxMessageSize →
          (∃ proof, prove .commit v key c message = .ok proof) ∧
          (∀ w, w ≠ v → Point.pedersen w key.scalar ≠ 0 →
            prove .commit w key c message = .error .commitmentMismatch) ∧
          ∀ other : SecretKey, other ≠ key → Point.pedersen v other.scalar ≠ 0 →
            prove .commit v other c message = .error .commitmentMismatch) ∧
    ∀ message : Bytes, maxMessageSize < message.length → ∀ v key c,
      prove .commit v key c message = .error (.proofMessageTooLong message.length) := by
  refine ⟨?_, fun message hlong v key c ↦ prove_of_long v key c hlong⟩
  intro v key hpoint
  obtain ⟨c, hcommit, hc⟩ := Commitment.exists_commit hpoint
  refine ⟨c, hcommit, fun message hmessage ↦ ⟨exists_prove hmessage hcommit, ?_, ?_⟩⟩
  · intro w hne hw
    exact prove_of_value_ne hmessage hw hc hne
  · intro other hne hother
    exact prove_of_key_ne hmessage hother hc hne

set_option maxRecDepth 10000 in
/-- The commitment to five under the key one does not pass for six, nor under the key two. -/
theorem prove_mismatch_exactCommit :
    prove .commit 6 exactBlind exactCommit [7, 0, 7] = .error .commitmentMismatch ∧
    prove .commit 5 exactNonce exactCommit [7, 0, 7] = .error .commitmentMismatch ∧
    prove .commit 5 exactBlind exactCommit (List.replicate 2049 0) =
      .error (.proofMessageTooLong 2049) := by
  obtain ⟨hopening, hlong⟩ := prove_mismatch_exact
  obtain ⟨c, hcommit, hchecks⟩ := hopening 5 exactBlind (by decide +kernel)
  rw [commit_exactBlind, Except.ok.injEq] at hcommit
  subst hcommit
  obtain ⟨-, hvalue, hkey⟩ := hchecks [7, 0, 7] (by decide)
  have hsize : (List.replicate 2049 (0 : UInt8)).length = 2049 := List.length_replicate
  refine ⟨hvalue 6 (by decide) (by decide +kernel),
    hkey exactNonce (by decide) (by decide +kernel), ?_⟩
  rw [hlong _ (by rw [hsize]; decide), hsize]

end ConfidentialTx.RangeProof
