import Mathlib
import ConfidentialTx.Proofs.Signature
import ConfidentialTx.Proofs.Transaction.Balance

namespace ConfidentialTx

open WeierstrassCurve.Affine

theorem RangeProof.isPoint_of_verify {cap : Capability} {c : Commitment} {proof : RangeProof}
    {range : ProofRange} (h : RangeProof.verify cap c proof = .ok range) : c.IsPoint := by
  obtain ⟨-, -, h⟩ := bind_eq_ok_iff.mp h
  obtain ⟨point, hpoint, -⟩ := bind_eq_ok_iff.mp h
  by_contra hnot
  rw [Commitment.toPoint_of_not_isPoint hnot] at hpoint
  cases hpoint

namespace Signature

/-- The bytes are a signature that is accepted for the message under the element as a key. -/
def Signs (bs : Bytes) (msg : Message) (Q : CurveGroup) : Prop :=
  ∃ sig : Signature, sig.toCompact = bs ∧ sig.Accepts msg Q

end Signature

namespace Kernel

variable {k : Kernel} {P : CurveGroup}

theorem verify_of_not_wellFormed (hexcess : k.excess.Encodes P)
    (h : ¬Signature.WellFormed k.excessSig) :
    k.verify .commit = .error (.curve .invalidSignature) := by
  cases P with
  | zero => exact absurd hexcess (Commitment.not_encodes_zero _)
  | some x y hP =>
    simp only [verify, Commitment.toPublicKey_of_encodes hexcess,
      Signature.ofCompact_of_not_wellFormed h]
    rfl

theorem verify_of_signs (hexcess : k.excess.Encodes P)
    (h : Signature.Signs k.excessSig k.message P) : k.verify .commit = .ok () := by
  obtain ⟨sig, hsig, haccepts⟩ := h
  cases P with
  | zero => exact absurd hexcess (Commitment.not_encodes_zero _)
  | some x y hP =>
    have hverify := Signature.verify_of_accepts haccepts
    simp only [verify, Commitment.toPublicKey_of_encodes hexcess, ← hsig,
      Signature.ofCompact_toCompact]
    change (Signature.verify .commit k.message sig _).mapError TransactionError.ofCurve = _
    rw [hverify]
    rfl

theorem verify_of_not_signs (hexcess : k.excess.Encodes P)
    (hwell : Signature.WellFormed k.excessSig) (h : ¬Signature.Signs k.excessSig k.message P) :
    k.verify .commit = .error (.curve .incorrectSignature) := by
  obtain ⟨sig, hsig⟩ := Signature.wellFormed_iff.mp hwell
  cases P with
  | zero => exact absurd hexcess (Commitment.not_encodes_zero _)
  | some x y hP =>
    have hverify := Signature.verify_of_not_accepts fun haccepts ↦ h ⟨sig, hsig, haccepts⟩
    simp only [verify, Commitment.toPublicKey_of_encodes hexcess, ← hsig,
      Signature.ofCompact_toCompact]
    change (Signature.verify .commit k.message sig _).mapError TransactionError.ofCurve = _
    rw [hverify]
    rfl

end Kernel

namespace Transaction

/-- What the outputs and the fee exceed the inputs by. -/
noncomputable def excess (tx : Transaction) : CurveGroup :=
  (tx.outputs.map (·.commit.element)).sum + (tx.fee.toNat : ZMod groupOrder) • CurveGroup.value -
    (tx.inputs.map (·.commit.element)).sum

theorem excess_committed (tx : Transaction) : tx.committed.excess = tx.excess := by
  simp only [Committed.excess, committed, Commitment.net, excess, overage, List.map_map,
    Int.cast_natCast]
  exact sub_add_eq_add_sub _ _ _

open Classical in
/-- The first thing that is wrong with a transaction. -/
noncomputable def flaw (tx : Transaction) : Option TransactionError :=
  if tx.excessSig = [] then some .missingSignature
  else if ¬∀ o ∈ tx.outputs, ∃ range, RangeProof.verify .commit o.commit o.proof = .ok range then
    some .invalidRangeProof
  else if ¬∀ i ∈ tx.inputs, i.commit.IsPoint then some (.curve .invalidCommitment)
  else if tx.excess = 0 then some (.curve .pointAtInfinity)
  else if ¬Signature.WellFormed tx.excessSig then some (.curve .invalidSignature)
  else if ¬Signature.Signs tx.excessSig tx.message tx.excess then
    some (.curve .incorrectSignature)
  else none

theorem committed_proven_iff {tx : Transaction} : tx.committed.Proven .commit ↔
    ∀ o ∈ tx.outputs, ∃ range, RangeProof.verify .commit o.commit o.proof = .ok range := by
  simp only [Committed.Proven, committed, List.forall_mem_map]

theorem abs_overage_lt (tx : Transaction) : |tx.committed.overage| < 2 ^ 64 := by
  have hfee := tx.fee.toNat_lt
  change |(tx.fee.toNat : ℤ)| < 2 ^ 64
  rw [Nat.abs_cast]
  exact_mod_cast hfee

theorem isPoint_of_proven {tx : Transaction} (hproven : tx.committed.Proven .commit) :
    (∀ c ∈ tx.committed.outputs ++ tx.committed.inputs, c.IsPoint) ↔
      ∀ i ∈ tx.inputs, i.commit.IsPoint := by
  have houtputs : ∀ c ∈ tx.committed.outputs, c.IsPoint := by
    simp only [committed, List.forall_mem_map]
    intro o ho
    obtain ⟨range, hrange⟩ := committed_proven_iff.mp hproven o ho
    exact RangeProof.isPoint_of_verify hrange
  rw [List.forall_mem_append, and_iff_right houtputs, committed, List.forall_mem_map]

def kernel (tx : Transaction) (c : Commitment) : Kernel := ⟨c, tx.excessSig, tx.fee, tx.lockHeight⟩

theorem validate_of_sum_error {tx : Transaction} {e : TransactionError} (hsig : tx.excessSig ≠ [])
    (hsum : (tx.committed.sum .commit).result = .error e) :
    (tx.validate .commit).result = .error e := by
  rw [validate, if_neg hsig, verifySig, Checked.result_bind, hsum]
  rfl

theorem validate_of_sum {tx : Transaction} {c : Commitment} (hsig : tx.excessSig ≠ [])
    (hsum : (tx.committed.sum .commit).result = .ok c) :
    (tx.validate .commit).result = (fun _ ↦ tx.kernel c) <$> (tx.kernel c).verify .commit := by
  rw [validate, if_neg hsig, verifySig, Checked.result_bind, hsum]
  change Checked.result (Checked.ofExcept ((tx.kernel c).verify .commit) >>= _) = _
  rw [Checked.result_bind, Checked.result_ofExcept]
  cases (tx.kernel c).verify .commit <;> rfl

/-- A transaction that the key of its excess signs is valid. -/
theorem validate_of_sign {tx : Transaction} {key : SecretKey} {sig : Signature}
    (hproven : tx.committed.Proven .commit) (hinputs : ∀ i ∈ tx.inputs, i.commit.IsPoint)
    (hexcess : tx.committed.excess = key.element)
    (hsign : Signature.sign .commit tx.message key = .ok sig)
    (hsig : tx.excessSig = sig.toCompact) :
    ∃ c : Commitment, c.Encodes key.element ∧
      (tx.validate .commit).result = .ok (tx.kernel c) := by
  obtain ⟨c, hc⟩ := Commitment.exists_encodes key.element_ne_zero
  have hpoint := (isPoint_of_proven hproven).mpr hinputs
  have hsum := (Committed.sum_eq_ok_iff hproven tx.abs_overage_lt hpoint).mpr (hexcess ▸ hc)
  have hnonempty : tx.excessSig ≠ [] := by
    intro hempty
    obtain ⟨hlength, -⟩ := Signature.wellFormed_toCompact sig
    rw [← hsig, hempty] at hlength
    cases hlength
  have hverify : (tx.kernel c).verify .commit = .ok () :=
    Kernel.verify_of_signs hc ⟨sig, hsig.symm, Signature.accepts_of_sign hsign⟩
  refine ⟨c, hc, ?_⟩
  rw [validate_of_sum hnonempty hsum, hverify]
  rfl

theorem validate_cases (tx : Transaction) :
    (∃ e, tx.flaw = some e ∧ (tx.validate .commit).result = .error e) ∨
    (tx.flaw = none ∧ ∃ c : Commitment, (tx.validate .commit).result = .ok (tx.kernel c) ∧
      c.Encodes tx.excess ∧ (tx.kernel c).verify .commit = .ok ()) := by
  unfold flaw
  by_cases hsig : tx.excessSig = []
  case pos => exact .inl ⟨_, if_pos hsig, by rw [validate, if_pos hsig, Checked.result_throw]⟩
  rw [if_neg hsig]
  by_cases hproven :
    ∀ o ∈ tx.outputs, ∃ range, RangeProof.verify .commit o.commit o.proof = .ok range
  case neg =>
    exact .inl ⟨_, if_pos hproven, validate_of_sum_error hsig
      (Committed.sum_of_not_proven (committed_proven_iff.not.mpr hproven))⟩
  rw [if_neg (not_not.mpr hproven)]
  have hsmall := tx.abs_overage_lt
  have hproven' := committed_proven_iff.mpr hproven
  by_cases hinputs : ∀ i ∈ tx.inputs, i.commit.IsPoint
  case neg =>
    have hpoint := (isPoint_of_proven hproven').not.mpr hinputs
    exact .inl ⟨_, if_pos hinputs,
      validate_of_sum_error hsig (Committed.sum_of_not_isPoint hproven' hsmall hpoint)⟩
  rw [if_neg (not_not.mpr hinputs), ← excess_committed]
  have hpoint := (isPoint_of_proven hproven').mpr hinputs
  by_cases hzero : tx.committed.excess = 0
  case pos =>
    exact .inl ⟨_, if_pos hzero, validate_of_sum_error hsig
      ((Committed.sum_eq_pointAtInfinity_iff hproven' hsmall hpoint).mpr hzero)⟩
  rw [if_neg hzero]
  obtain ⟨c, hc⟩ := Commitment.exists_encodes hzero
  have hkernel := validate_of_sum hsig ((Committed.sum_eq_ok_iff hproven' hsmall hpoint).mpr hc)
  by_cases hwell : Signature.WellFormed tx.excessSig
  case neg =>
    have hverify : (tx.kernel c).verify .commit = .error (.curve .invalidSignature) :=
      Kernel.verify_of_not_wellFormed hc hwell
    rw [hverify] at hkernel
    exact .inl ⟨_, if_pos hwell, hkernel⟩
  rw [if_neg (not_not.mpr hwell)]
  by_cases hsigns : Signature.Signs tx.excessSig tx.message tx.committed.excess
  case neg =>
    have hverify : (tx.kernel c).verify .commit = .error (.curve .incorrectSignature) :=
      Kernel.verify_of_not_signs hc hwell hsigns
    rw [hverify] at hkernel
    exact .inl ⟨_, if_pos hsigns, hkernel⟩
  rw [if_neg (not_not.mpr hsigns)]
  have hverify : (tx.kernel c).verify .commit = .ok () := Kernel.verify_of_signs hc hsigns
  rw [hverify] at hkernel
  exact .inr ⟨rfl, c, hkernel, hc, hverify⟩

/-- A transaction is valid if nothing is wrong with it, and otherwise the error is the first thing
that is. The kernel of a valid one is its own with the excess, and it verifies. -/
theorem validate_result (tx : Transaction) :
    (∀ e, (tx.validate .commit).result = .error e ↔ tx.flaw = some e) ∧
    ((∃ k, (tx.validate .commit).result = .ok k) ↔ tx.flaw = none) ∧
    ∀ k, (tx.validate .commit).result = .ok k →
      k.excess.Encodes tx.excess ∧ k.excessSig = tx.excessSig ∧ k.fee = tx.fee ∧
        k.lockHeight = tx.lockHeight ∧ k.verify .commit = .ok () := by
  rcases tx.validate_cases with ⟨e, hflaw, hresult⟩ | ⟨hflaw, c, hresult, hc, hverify⟩
  · rw [hflaw, hresult]
    refine ⟨fun e' ↦ ?_, ?_, fun k hk ↦ ?_⟩
    · rw [Except.error.injEq, Option.some.injEq]
    · simp
    · cases hk
  · rw [hflaw, hresult]
    refine ⟨fun e' ↦ ?_, ?_, fun k hk ↦ ?_⟩
    · simp
    · simp
    · cases hk
      exact ⟨hc, rfl, rfl, rfl, hverify⟩

end Transaction

end ConfidentialTx
