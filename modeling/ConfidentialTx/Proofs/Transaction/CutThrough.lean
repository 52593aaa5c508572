import Mathlib
import ConfidentialTx.Proofs.RangeProof.Rewind
import ConfidentialTx.Proofs.Transaction.Validity

namespace ConfidentialTx.Transaction

/-- Checks find the same in both: proofs and inputs hold in both or in neither, and the same is left
over and signed. -/
structure Agrees (s t : Transaction) : Prop where
  proven : s.committed.Proven .commit ↔ t.committed.Proven .commit
  inputs : (∀ i ∈ s.inputs, i.commit.IsPoint) ↔ ∀ i ∈ t.inputs, i.commit.IsPoint
  excess : s.excess = t.excess
  fee : s.fee = t.fee
  lockHeight : s.lockHeight = t.lockHeight
  excessSig : s.excessSig = t.excessSig

namespace Agrees

variable {s t u : Transaction}

theorem trans (h : s.Agrees t) (h' : t.Agrees u) : s.Agrees u where
  proven := h.proven.trans h'.proven
  inputs := h.inputs.trans h'.inputs
  excess := h.excess.trans h'.excess
  fee := h.fee.trans h'.fee
  lockHeight := h.lockHeight.trans h'.lockHeight
  excessSig := h.excessSig.trans h'.excessSig

open Classical in
theorem flaw_eq (h : s.Agrees t) : s.flaw = t.flaw := by
  have hproven := h.proven
  rw [committed_proven_iff, committed_proven_iff] at hproven
  have hmessage : s.message = t.message := by
    rw [message, message, h.fee, h.lockHeight]
  unfold flaw
  rw [h.excess, h.excessSig, hmessage]
  exact if_congr Iff.rfl rfl (if_congr (not_congr hproven) rfl (if_congr (not_congr h.inputs) rfl rfl))

/-- The excess has one encoding only, so that even the kernels are equal. -/
theorem validate_eq (h : s.Agrees t) : (s.validate .commit).result = (t.validate .commit).result := by
  have hflaw := h.flaw_eq
  rcases s.validate_cases with ⟨e, hs, hresult⟩ | ⟨hs, c, hresult, hc, -⟩
  · rcases t.validate_cases with ⟨e', ht, hresult'⟩ | ⟨ht, -⟩
    · rw [hs, ht, Option.some.injEq] at hflaw
      rw [hresult, hresult', hflaw]
    · rw [hs, ht] at hflaw
      cases hflaw
  · rcases t.validate_cases with ⟨e, ht, -⟩ | ⟨-, d, hresult', hd, -⟩
    · rw [hs, ht] at hflaw
      cases hflaw
    · have hcd : c = d := by
        rw [h.excess] at hc
        exact Option.some.inj (hc.symm.trans hd)
      rw [hresult, hresult', hcd, kernel, kernel, h.excessSig, h.fee, h.lockHeight]

end Agrees

variable {tx : Transaction} {inputs : List Input} {outputs : List Output}

theorem agrees_of_perm (hinputs : inputs.Perm tx.inputs) (houtputs : outputs.Perm tx.outputs) :
    { tx with inputs, outputs }.Agrees tx where
  proven := by
    rw [committed_proven_iff, committed_proven_iff]
    simp only [houtputs.mem_iff]
  inputs := by
    simp only [hinputs.mem_iff]
  excess := by
    simp only [excess, (houtputs.map _).sum_eq, (hinputs.map _).sum_eq]
  fee := rfl
  lockHeight := rfl
  excessSig := rfl

theorem agrees_cons {o : Output} {range : ProofRange}
    (h : RangeProof.verify .commit o.commit o.proof = .ok range) :
    { tx with inputs := ⟨o.commit⟩ :: tx.inputs, outputs := o :: tx.outputs }.Agrees tx where
  proven := by
    rw [committed_proven_iff, committed_proven_iff, List.forall_mem_cons]
    exact and_iff_right ⟨range, h⟩
  inputs := by
    rw [List.forall_mem_cons]
    exact and_iff_right (RangeProof.isPoint_of_verify h)
  excess := by
    simp only [excess, List.map_cons, List.sum_cons]
    abel
  fee := rfl
  lockHeight := rfl
  excessSig := rfl

/-- The kernel or the error of a transaction depends only on which inputs and outputs there are. It
stays as it is if inputs and outputs change places, and if an output whose proof holds is added
anywhere together with an input that spends it. -/
theorem validate_perm_cutThrough (tx : Transaction) :
    (∀ inputs outputs, inputs.Perm tx.inputs → outputs.Perm tx.outputs →
      ({ tx with inputs, outputs }.validate .commit).result = (tx.validate .commit).result) ∧
    ∀ (o : Output) (range : ProofRange),
      RangeProof.verify .commit o.commit o.proof = .ok range →
      ∀ inputs outputs, inputs.Perm (⟨o.commit⟩ :: tx.inputs) → outputs.Perm (o :: tx.outputs) →
        ({ tx with inputs, outputs }.validate .commit).result = (tx.validate .commit).result := by
  refine ⟨?_, ?_⟩
  · intro inputs outputs hinputs houtputs
    exact (agrees_of_perm hinputs houtputs).validate_eq
  · intro o range h inputs outputs hinputs houtputs
    let cut : Transaction :=
      { tx with inputs := ⟨o.commit⟩ :: tx.inputs, outputs := o :: tx.outputs }
    have hcut : { tx with inputs, outputs }.Agrees cut :=
      @agrees_of_perm cut inputs outputs hinputs houtputs
    exact (hcut.trans (agrees_cons h)).validate_eq

def feeCommit : Commitment :=
  ⟨.ofNat 0x09d78dce76b03c60cd46670eeaf71cb1c1f1fbf3051673e1deefd20a69a1811703⟩

/-- All of an input goes into the fee. -/
def payFee : Transaction where
  inputs := [⟨feeCommit⟩]
  outputs := []
  fee := 3
  lockHeight := 0
  excessSig := Bytes.bigEndian 64
    0xfdcf09e8191bfb25b0da93f39fba1005193ab4457785290e2b400f302b7d2ae63ad1a4bf050c27525ab2dde2d826d92cb8edb108d916d196c573fdd6057c9511

set_option maxRecDepth 10000 in
theorem isOk_validate_payFee : (payFee.validate .commit).result.isOk = true := by
  decide +kernel

set_option maxRecDepth 10000 in
theorem verify_exactProof :
    RangeProof.verify .commit RangeProof.exactCommit RangeProof.exactProof = .ok ⟨5, 5⟩ := by
  decide +kernel

theorem validate_cutThrough_payFee :
    let cut : Output := ⟨.plain, RangeProof.exactCommit, .zero, RangeProof.exactProof⟩
    let tx : Transaction :=
      { payFee with inputs := [⟨feeCommit⟩, ⟨cut.commit⟩], outputs := [cut] }
    (tx.validate .commit).result.isOk = true ∧
      (tx.validate .commit).result = (payFee.validate .commit).result := by
  intro cut tx
  obtain ⟨-, hcut⟩ := validate_perm_cutThrough payFee
  have hsame : (tx.validate .commit).result = (payFee.validate .commit).result :=
    hcut cut ⟨5, 5⟩ verify_exactProof tx.inputs tx.outputs (.swap _ _ _) (.refl _)
  refine ⟨?_, hsame⟩
  rw [hsame]
  exact isOk_validate_payFee

end ConfidentialTx.Transaction
