import Mathlib
import ConfidentialTx.Proofs.Builder.Steps
import ConfidentialTx.Proofs.RangeProof.Complete
import ConfidentialTx.Proofs.Transaction.Validity

namespace ConfidentialTx

variable {root : KeyRoot} {names : Identifier → Except KeychainError SecretKey}

theorem SecretKey.opening_zero_eq (key : SecretKey) :
    CurveGroup.opening 0 key.scalar.toZMod = key.element := by
  rw [CurveGroup.opening, element, zero_smul (ZMod groupOrder) CurveGroup.value, zero_add]

namespace Transaction

/-- The outputs have proofs, and exceed the inputs by a commitment to the value under the blinding
scalar. -/
structure Commits (tx : Transaction) (value : ℤ) (blind : ZMod groupOrder) : Prop where
  proven : tx.committed.Proven .commit
  inputs : ∀ i ∈ tx.inputs, i.commit.IsPoint
  net_eq : Commitment.net tx.committed.outputs tx.committed.inputs = .opening value blind

namespace Commits

variable {tx : Transaction} {value : ℤ} {blind : ZMod groupOrder}

theorem empty : Transaction.empty.Commits 0 0 where
  proven _ h := nomatch h
  inputs _ h := nomatch h
  net_eq := by
    rw [Int.cast_zero, CurveGroup.opening_zero]
    exact sub_zero 0

theorem addInput {c : Commitment} {o : Opening} (h : tx.Commits value blind) (hc : c.Opens o) :
    (tx.addInput ⟨c⟩).Commits (value - o.value.toNat) (blind - o.blind.toZMod) where
  proven := h.proven
  inputs := List.forall_mem_append.mpr ⟨h.inputs, List.forall_mem_singleton.mpr ⟨_, hc⟩⟩
  net_eq := by
    have hinputs : (tx.addInput ⟨c⟩).committed.inputs = tx.committed.inputs ++ [c] := List.map_append
    rw [hinputs, Commitment.net_append_right _ _ hc]
    push_cast
    rw [CurveGroup.opening_sub, ← h.net_eq]
    rfl

theorem addOutput {out : Output} {o : Opening} (h : tx.Commits value blind)
    (hc : out.commit.Opens o)
    (hproof : ∃ range, RangeProof.verify .commit out.commit out.proof = .ok range) :
    (tx.addOutput out).Commits (value + o.value.toNat) (blind + o.blind.toZMod) where
  proven := by
    rw [committed_proven_iff]
    exact List.forall_mem_append.mpr
      ⟨committed_proven_iff.mp h.proven, List.forall_mem_singleton.mpr hproof⟩
  inputs := h.inputs
  net_eq := by
    have houtputs : (tx.addOutput out).committed.outputs = tx.committed.outputs ++ [out.commit] :=
      List.map_append
    rw [houtputs, Commitment.net_append_left _ _ hc]
    push_cast
    rw [CurveGroup.opening_add, ← h.net_eq]
    rfl

theorem excess_eq (h : tx.Commits value blind) :
    tx.committed.excess = .opening ((value + tx.fee.toNat : ℤ) : ZMod groupOrder) blind := by
  rw [Committed.excess, h.net_eq, show tx.committed.overage = (tx.fee.toNat : ℤ) from rfl]
  simp only [CurveGroup.opening]
  push_cast
  module

end Commits

end Transaction

namespace Step

/-- The step takes nothing up from another build. -/
def Fresh : Step → Prop
  | input .. | output .. | withFee _ | withLockHeight _ => True
  | initialTx _ | withExcess _ => False

/-- For an output, the signer makes a proof with the key that the identifier names. -/
def Provable (names : Identifier → Except KeychainError SecretKey) : Step → Prop
  | output value id => ∀ key, names id = .ok key → ∃ bs,
    RangeProof.sign .full value.toNat (.pedersen value key.scalar) key key [] = .ok bs
  | input .. | withFee _ | withLockHeight _ | initialTx _ | withExcess _ => True

def gain : Step → ℤ
  | input value _ => -value.toNat
  | output value _ => value.toNat
  | withFee _ | withLockHeight _ | initialTx _ | withExcess _ => 0

def feeAfter (fee : UInt64) : Step → UInt64
  | withFee fee => fee
  | initialTx tx => tx.fee
  | input .. | output .. | withLockHeight _ | withExcess _ => fee

def lockHeightAfter (lockHeight : UInt64) : Step → UInt64
  | withLockHeight lockHeight => lockHeight
  | initialTx tx => tx.lockHeight
  | input .. | output .. | withFee _ | withExcess _ => lockHeight

/-- What the outputs and the fee exceed the inputs by. -/
def surplus (steps : List Step) : ℤ :=
  (steps.map gain).sum + (steps.foldl feeAfter 0).toNat

theorem kernel_change {step : Step} {g : Transaction → Transaction}
    (hstep : step.change root names = .ok g) (tx : Transaction) :
    (g tx).fee = step.feeAfter tx.fee ∧
      (g tx).lockHeight = step.lockHeightAfter tx.lockHeight := by
  cases step with
  | input value id =>
    obtain ⟨c, -, rfl⟩ := map_eq_ok_iff.mp hstep
    exact ⟨rfl, rfl⟩
  | output value id =>
    obtain ⟨o, -, rfl⟩ := map_eq_ok_iff.mp hstep
    exact ⟨rfl, rfl⟩
  | withFee fee =>
    cases hstep
    exact ⟨rfl, rfl⟩
  | withLockHeight lockHeight =>
    cases hstep
    exact ⟨rfl, rfl⟩
  | initialTx tx' =>
    cases hstep
    exact ⟨rfl, rfl⟩
  | withExcess blind =>
    cases hstep
    exact ⟨rfl, rfl⟩

theorem kernel_changes {steps : List Step} {g : Transaction → Transaction}
    (hsteps : changes root names steps = .ok g) (tx : Transaction) :
    (g tx).fee = steps.foldl feeAfter tx.fee ∧
      (g tx).lockHeight = steps.foldl lockHeightAfter tx.lockHeight := by
  induction steps generalizing g tx with
  | nil =>
    cases hsteps
    exact ⟨rfl, rfl⟩
  | cons step steps ih =>
    obtain ⟨g₁, hstep, h⟩ := bind_eq_ok_iff.mp hsteps
    obtain ⟨g₂, hrest, h⟩ := bind_eq_ok_iff.mp h
    cases h
    obtain ⟨hfee, hlockHeight⟩ := kernel_change hstep tx
    rw [List.foldl_cons, List.foldl_cons, ← hfee, ← hlockHeight]
    exact ih hrest (g₁ tx)

theorem commits_change {step : Step} {g : Transaction → Transaction} {tx : Transaction}
    {value : ℤ} {blind : ZMod groupOrder} (hstep : step.change root names = .ok g)
    (hfresh : step.Fresh) (hprovable : step.Provable names) (h : tx.Commits value blind) :
    (g tx).Commits (value + step.gain) (blind + step.contribution names) := by
  cases step with
  | input v id =>
    obtain ⟨c, hc, rfl⟩ := map_eq_ok_iff.mp hstep
    obtain ⟨key, hkey, hcommit⟩ := answer_commit_eq_ok hc
    rw [gain, contribution, share_of_names hkey, ← sub_eq_add_neg, ← sub_eq_add_neg]
    exact h.addInput (Commitment.opens_of_commit hcommit)
  | output v id =>
    obtain ⟨out, hout, rfl⟩ := map_eq_ok_iff.mp hstep
    obtain ⟨key, hkey, -, hcommit, -, hprove⟩ := answer_makeOutput_eq_ok hout
    obtain ⟨bs, hsign⟩ := hprovable key hkey
    rw [RangeProof.prove_eq (Nat.zero_le _) hcommit hsign, RangeProof.leave] at hprove
    have hverify := RangeProof.verify_of_sign_full hcommit hsign
    rw [Except.ok.inj hprove] at hverify
    rw [gain, contribution, share_of_names hkey]
    exact h.addOutput (Commitment.opens_of_commit hcommit) ⟨_, hverify⟩
  | withFee fee =>
    cases hstep
    rw [gain, contribution, add_zero, add_zero]
    exact ⟨h.proven, h.inputs, h.net_eq⟩
  | withLockHeight lockHeight =>
    cases hstep
    rw [gain, contribution, add_zero, add_zero]
    exact ⟨h.proven, h.inputs, h.net_eq⟩
  | initialTx tx' => exact hfresh.elim
  | withExcess blind' => exact hfresh.elim

theorem commits_changes {steps : List Step} {g : Transaction → Transaction} {tx : Transaction}
    {value : ℤ} {blind : ZMod groupOrder} (hsteps : changes root names steps = .ok g)
    (hfresh : ∀ step ∈ steps, step.Fresh) (hprovable : ∀ step ∈ steps, step.Provable names)
    (h : tx.Commits value blind) :
    (g tx).Commits (value + (steps.map gain).sum)
      (blind + (steps.map (contribution names)).sum) := by
  induction steps generalizing g tx value blind with
  | nil =>
    cases hsteps
    simpa using h
  | cons step steps ih =>
    obtain ⟨g₁, hstep, hsteps⟩ := bind_eq_ok_iff.mp hsteps
    obtain ⟨g₂, hrest, hsteps⟩ := bind_eq_ok_iff.mp hsteps
    cases hsteps
    obtain ⟨hfresh₁, hfresh₂⟩ := List.forall_mem_cons.mp hfresh
    obtain ⟨hprovable₁, hprovable₂⟩ := List.forall_mem_cons.mp hprovable
    have hcommits := ih hrest hfresh₂ hprovable₂ (commits_change hstep hfresh₁ hprovable₁ h)
    rw [List.map_cons, List.sum_cons, List.map_cons, List.sum_cons, ← add_assoc, ← add_assoc]
    exact hcommits

end Step

namespace Transaction

theorem commits_of_build {steps : List Step} {tx : Transaction} {blind : BlindingFactor}
    (hbuild : (build steps).answer root names = .ok (tx, blind))
    (hfresh : ∀ step ∈ steps, step.Fresh) (hprovable : ∀ step ∈ steps, step.Provable names) :
    tx.committed.Proven .commit ∧ (∀ i ∈ tx.inputs, i.commit.IsPoint) ∧
    tx.committed.excess = .opening (Step.surplus steps) blind.scalar.toZMod ∧
    ∃ key sig, blind.toSecretKey = .ok key ∧ Signature.sign .commit tx.message key = .ok sig ∧
      tx.excessSig = sig.toCompact := by
  obtain ⟨g, hg, hsigned⟩ := answer_build_eq_ok hbuild
  obtain ⟨⟨key, sig, hkey, hsig, rfl⟩, hblind⟩ := signed_eq_ok hsigned
  have hcommits := Step.commits_changes hg hfresh hprovable .empty
  rw [zero_add, zero_add, ← hblind] at hcommits
  have hexcess := hcommits.excess_eq
  rw [(Step.kernel_changes hg .empty).1] at hexcess
  exact ⟨hcommits.proven, hcommits.inputs, hexcess, key, sig, hkey, hsig, rfl⟩

/-- A transaction whose steps were all its own adds up to a commitment to their surplus under the
blinding factor. Without a surplus it is valid, and its kernel's excess commits to zero. -/
theorem build_balances {cache : KeyCache} {steps : List Step} {tx : Transaction}
    {blind : BlindingFactor} (hreach : root.Reaches cache) (hdistinct : root.DistinctChildren cache)
    (hfresh : ∀ step ∈ steps, step.Fresh)
    (hprovable : ∀ step ∈ steps, step.Provable (root.names cache))
    (hbuild : (build steps).result root cache = .ok (tx, blind)) :
    (CurveGroup.opening (Step.surplus steps) blind.scalar.toZMod ≠ 0 → ∃ c : Commitment,
      c.Encodes (.opening (Step.surplus steps) blind.scalar.toZMod) ∧
        (tx.committed.sum .commit).result = .ok c) ∧
    ((tx.committed.sum .commit).result = .error (.curve .pointAtInfinity) ↔
      CurveGroup.opening (Step.surplus steps) blind.scalar.toZMod = 0) ∧
    (Step.surplus steps = 0 → ∃ k key, (tx.validate .commit).result = .ok k ∧
      blind.toSecretKey = .ok key ∧ Commitment.commit .commit 0 key = .ok k.excess ∧
      k.fee = tx.fee ∧ k.lockHeight = tx.lockHeight ∧ k.excessSig = tx.excessSig) := by
  rw [(KeyRoot.Later.refl root cache).result_eq (resolving_build steps) hreach hdistinct] at hbuild
  obtain ⟨hproven, hinputs, hexcess, key, sig, hkey, hsign, hsig⟩ :=
    commits_of_build hbuild hfresh hprovable
  have hpoint := (isPoint_of_proven hproven).mpr hinputs
  have hsmall := tx.abs_overage_lt
  rw [← hexcess]
  refine ⟨fun hne ↦ ?_, Committed.sum_eq_pointAtInfinity_iff hproven hsmall hpoint, fun hzero ↦ ?_⟩
  · obtain ⟨c, hc⟩ := Commitment.exists_encodes hne
    exact ⟨c, hc, (Committed.sum_eq_ok_iff hproven hsmall hpoint).mpr hc⟩
  · have helement : tx.committed.excess = key.element := by
      rw [hexcess, hzero, Int.cast_zero, ← BlindingFactor.scalar_of_toSecretKey hkey,
        key.opening_zero_eq]
    obtain ⟨c, hc, hvalidate⟩ := validate_of_sign hproven hinputs helement hsign hsig
    refine ⟨tx.kernel c, key, hvalidate, hkey, ?_, rfl, rfl, rfl⟩
    rw [Commitment.commit_eq_ok_iff, UInt64.toNat_zero, Nat.cast_zero, key.opening_zero_eq]
    exact hc

set_option maxRecDepth 4000 in
/-- None of the five steps makes an output, so there is nothing for the signer to prove. -/
theorem build_balances_lone :
    ∃ tx blind k, (build [.withFee 9, .input 2 .zero, .withLockHeight 7, .input 3 .zero,
        .withFee 5]).result .lone .empty = .ok (tx, blind) ∧
      (tx.validate .commit).result = .ok k ∧ k.fee = tx.fee := by
  have hbuild : ((build [.withFee 9, .input 2 .zero, .withLockHeight 7, .input 3 .zero,
      .withFee 5]).result .lone .empty).isOk := by
    decide +kernel
  obtain ⟨⟨tx, blind⟩, hbuild⟩ := exists_of_isOk hbuild
  obtain ⟨-, -, hvalid⟩ := build_balances (KeyRoot.reaches_empty .lone)
    KeyRoot.distinctChildren_lone (by simp [Step.Fresh]) (by simp [Step.Provable]) hbuild
  obtain ⟨k, key, hk, -, -, hfee, -⟩ := hvalid (by decide)
  exact ⟨tx, blind, k, hbuild, hk, hfee⟩

end Transaction

end ConfidentialTx
