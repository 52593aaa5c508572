import Mathlib
import ConfidentialTx.Proofs.Commitment.Opening
import ConfidentialTx.Proofs.Results

namespace ConfidentialTx

namespace Committed

def Proven (cap : Capability) (s : Committed) : Prop :=
  ∀ p ∈ s.proofs, ∃ range, RangeProof.verify cap p.1 p.2 = .ok range

theorem checkProofs_of_forall {cap : Capability} {proofs : List (Commitment × RangeProof)}
    (h : ∀ p ∈ proofs, ∃ range, RangeProof.verify cap p.1 p.2 = .ok range) :
    (checkProofs cap proofs).result = .ok () := by
  induction proofs with
  | nil => rfl
  | cons p rest ih =>
    obtain ⟨⟨range, hp⟩, hrest⟩ := List.forall_mem_cons.mp h
    simp only [checkProofs, hp]
    exact ih hrest

theorem checkProofs_of_not_forall {cap : Capability} {proofs : List (Commitment × RangeProof)}
    (h : ¬∀ p ∈ proofs, ∃ range, RangeProof.verify cap p.1 p.2 = .ok range) :
    (checkProofs cap proofs).result = .error .invalidRangeProof := by
  induction proofs with
  | nil => simp at h
  | cons p rest ih =>
    simp only [checkProofs]
    cases hp : RangeProof.verify cap p.1 p.2 with
    | ok range =>
      rw [List.forall_mem_cons, not_and] at h
      exact ih (h ⟨range, hp⟩)
    | error e => rfl

/-- The commitment to the overage moves the sum by as many value points, on whichever side it is. -/
theorem sides_eq_ok {s : Committed} (h : |s.overage| < 2 ^ 64) :
    ∃ outputs inputs, s.sides .commit = .ok (outputs, inputs) ∧
      ((∀ c ∈ outputs ++ inputs, c.IsPoint) ↔ ∀ c ∈ s.outputs ++ s.inputs, c.IsPoint) ∧
      Commitment.net outputs inputs =
        Commitment.net s.outputs s.inputs + (s.overage : ZMod groupOrder) • CurveGroup.value := by
  have habs : s.overage.natAbs < 2 ^ 64 := by
    rw [Int.abs_eq_natAbs] at h
    omega
  have hsize : ¬UInt64.size ≤ s.overage.natAbs := by
    rw [show UInt64.size = 2 ^ 64 from rfl]
    omega
  by_cases hzero : s.overage = 0
  · refine ⟨s.outputs, s.inputs, ?_, Iff.rfl, ?_⟩
    · rw [sides, if_pos hzero]
    · rw [hzero, Int.cast_zero, zero_smul (ZMod groupOrder) CurveGroup.value, add_zero]
  · obtain ⟨c, hcommit, hc⟩ := Commitment.exists_encodes_value (Int.natAbs_pos.mpr hzero) habs
    have hpoint : c.IsPoint := ⟨_, hc⟩
    by_cases hpos : 0 < s.overage
    · refine ⟨s.outputs ++ [c], s.inputs, ?_, ?_, ?_⟩
      · simp only [sides, if_neg hzero, if_neg hsize, hcommit, if_pos hpos]
      · simp only [List.forall_mem_append, List.forall_mem_singleton, hpoint, and_true]
      · have hcast : (s.overage.natAbs : ZMod groupOrder) = s.overage := by
          rw [← Int.cast_natCast, Int.natAbs_of_nonneg hpos.le]
        rw [Commitment.net_append_left _ _ hc, hcast]
    · refine ⟨s.outputs, s.inputs ++ [c], ?_, ?_, ?_⟩
      · simp only [sides, if_neg hzero, if_neg hsize, hcommit, if_neg hpos]
      · simp only [List.forall_mem_append, List.forall_mem_singleton, hpoint, and_true]
      · have hcast : (s.overage.natAbs : ZMod groupOrder) = -s.overage := by
          rw [← Int.cast_natCast, Int.ofNat_natAbs_of_nonpos (by omega), Int.cast_neg]
        rw [Commitment.net_append_right _ _ hc, hcast, neg_smul, sub_neg_eq_add]

theorem sides_eq_error {cap : Capability} {s : Committed} (h : 2 ^ 64 ≤ |s.overage|) :
    s.sides cap = .error (.overageTooLarge s.overage) := by
  have hzero : s.overage ≠ 0 := by
    intro h₀
    rw [h₀, abs_zero] at h
    omega
  have hsize : UInt64.size ≤ s.overage.natAbs := by
    rw [Int.abs_eq_natAbs] at h
    rw [show UInt64.size = 2 ^ 64 from rfl]
    omega
  rw [sides, if_neg hzero, if_pos hsize]

noncomputable def excess (s : Committed) : CurveGroup :=
  Commitment.net s.outputs s.inputs + (s.overage : ZMod groupOrder) • CurveGroup.value

theorem sum_of_not_proven {cap : Capability} {s : Committed} (h : ¬s.Proven cap) :
    (s.sum cap).result = .error .invalidRangeProof := by
  rw [sum, Checked.result_bind, checkProofs_of_not_forall h]
  rfl

theorem sum_of_large {cap : Capability} {s : Committed} (hproven : s.Proven cap)
    (hlarge : 2 ^ 64 ≤ |s.overage|) :
    (s.sum cap).result = .error (.overageTooLarge s.overage) := by
  rw [sum, Checked.result_bind, checkProofs_of_forall hproven, Checked.result_bind,
    Checked.result_ofExcept, sides_eq_error hlarge]
  rfl

theorem sum_of_proven {s : Committed} (hproven : s.Proven .commit) (hsmall : |s.overage| < 2 ^ 64)
    (hpoint : ∀ c ∈ s.outputs ++ s.inputs, c.IsPoint) :
    (s.sum .commit).result = (Commitment.ofGroup s.excess).mapError TransactionError.ofCurve := by
  obtain ⟨outputs, inputs, hsides, hiff, hnet⟩ := sides_eq_ok hsmall
  obtain ⟨houtputs, hinputs⟩ := List.forall_mem_append.mp (hiff.mpr hpoint)
  rw [sum, Checked.result_bind, checkProofs_of_forall hproven, Checked.result_bind,
    Checked.result_ofExcept, hsides, excess, ← hnet, ← Commitment.sum_of_isPoint houtputs hinputs]
  rfl

theorem sum_of_not_isPoint {s : Committed} (hproven : s.Proven .commit)
    (hsmall : |s.overage| < 2 ^ 64) (hpoint : ¬∀ c ∈ s.outputs ++ s.inputs, c.IsPoint) :
    (s.sum .commit).result = .error (.curve .invalidCommitment) := by
  obtain ⟨outputs, inputs, hsides, hiff, -⟩ := sides_eq_ok hsmall
  have hnot : ∃ c ∈ outputs ++ inputs, ¬c.IsPoint := by
    have h := hiff.not.mpr hpoint
    push Not at h
    exact h
  have hsum := Commitment.sum_of_not_isPoint hnot
  rw [sum, Checked.result_bind, checkProofs_of_forall hproven, Checked.result_bind,
    Checked.result_ofExcept, hsides]
  change (Commitment.sum .commit outputs inputs).mapError TransactionError.ofCurve = _
  rw [hsum]
  rfl

theorem sum_eq_ok_iff {s : Committed} {c : Commitment} (hproven : s.Proven .commit)
    (hsmall : |s.overage| < 2 ^ 64) (hpoint : ∀ c ∈ s.outputs ++ s.inputs, c.IsPoint) :
    (s.sum .commit).result = .ok c ↔ c.Encodes s.excess := by
  rw [sum_of_proven hproven hsmall hpoint, ← Commitment.ofGroup_eq_ok_iff]
  cases Commitment.ofGroup s.excess <;> simp [Except.mapError]

theorem sum_eq_pointAtInfinity_iff {s : Committed} (hproven : s.Proven .commit)
    (hsmall : |s.overage| < 2 ^ 64) (hpoint : ∀ c ∈ s.outputs ++ s.inputs, c.IsPoint) :
    (s.sum .commit).result = .error (.curve .pointAtInfinity) ↔ s.excess = 0 := by
  rw [sum_of_proven hproven hsmall hpoint]
  by_cases hzero : s.excess = 0
  · simp only [hzero, Commitment.ofGroup_zero, iff_true]
    rfl
  · obtain ⟨c, hc⟩ := Commitment.exists_encodes hzero
    rw [Commitment.ofGroup_eq_ok_iff.mpr hc]
    simp [hzero, Except.mapError]

theorem excess_of_opens {s : Committed} {ins outs : List Opening}
    (hin : List.Forall₂ Commitment.Opens s.inputs ins)
    (hout : List.Forall₂ Commitment.Opens s.outputs outs) :
    s.excess = Opening.net outs ins s.overage := by
  rw [excess, Commitment.net_of_opens hout hin, Opening.net, Opening.net]
  push_cast
  simp only [CurveGroup.opening]
  module

/-- The sum of commitments that open to values is a commitment to what the outputs and the overage
exceed the inputs by. Proofs come before the overage, and the overage before the sum. -/
theorem sum_of_opens {s : Committed} {ins outs : List Opening}
    (hin : List.Forall₂ Commitment.Opens s.inputs ins)
    (hout : List.Forall₂ Commitment.Opens s.outputs outs) :
    (¬s.Proven .commit → (s.sum .commit).result = .error .invalidRangeProof) ∧
    (s.Proven .commit →
      ((s.sum .commit).result = .error (.overageTooLarge s.overage) ↔ 2 ^ 64 - 1 < |s.overage|) ∧
      (|s.overage| ≤ 2 ^ 64 - 1 →
        (Opening.net outs ins s.overage ≠ 0 → ∃ c : Commitment,
          c.Encodes (Opening.net outs ins s.overage) ∧ (s.sum .commit).result = .ok c) ∧
        ((s.sum .commit).result = .error (.curve .pointAtInfinity) ↔
          Opening.net outs ins s.overage = 0))) := by
  have hpoint : ∀ c ∈ s.outputs ++ s.inputs, c.IsPoint := List.forall_mem_append.mpr
    ⟨Commitment.isPoint_of_opens hout, Commitment.isPoint_of_opens hin⟩
  refine ⟨sum_of_not_proven, fun hproven ↦ ⟨⟨fun h ↦ ?_, fun h ↦ ?_⟩, fun h ↦ ?_⟩⟩
  · by_contra hsmall
    rw [sum_of_proven hproven (by omega) hpoint] at h
    cases hsum : Commitment.ofGroup s.excess with
    | ok c =>
      rw [hsum] at h
      cases h
    | error e =>
      obtain ⟨-, rfl⟩ := Commitment.ofGroup_eq_error_iff.mp hsum
      rw [hsum] at h
      cases h
  · exact sum_of_large hproven (by omega)
  · have hsmall : |s.overage| < 2 ^ 64 := by omega
    rw [← excess_of_opens hin hout]
    refine ⟨fun hne ↦ ?_, sum_eq_pointAtInfinity_iff hproven hsmall hpoint⟩
    obtain ⟨c, hc⟩ := Commitment.exists_encodes hne
    exact ⟨c, hc, (sum_eq_ok_iff hproven hsmall hpoint).mpr hc⟩

/-- Seven is spent, five of it goes into an output with a proof of that one value, and two are left
in the clear. -/
def exchange : Committed :=
  let output : Commitment := ⟨⟨[8, 132, 167, 38, 138, 51, 220, 10, 162, 8, 47, 191, 223, 10, 180,
    101, 165, 248, 32, 228, 122, 105, 76, 111, 168, 244, 251, 126, 35, 92, 220, 72, 133], rfl⟩⟩
  let proof : Bytes := [32, 0, 0, 0, 0, 0, 0, 0, 5, 116, 179, 84, 183, 74, 85, 1, 219, 94, 103, 67,
    228, 50, 235, 140, 255, 6, 41, 163, 2, 173, 198, 199, 175, 6, 25, 163, 156, 211, 165, 183, 90,
    158, 221, 80, 103, 195, 180, 237, 22, 222, 202, 185, 117, 97, 142, 10, 54, 130, 106, 59, 51, 126,
    16, 147, 135, 101, 229, 5, 14, 37, 98, 115, 204]
  { inputs := [⟨⟨[9, 241, 242, 118, 125, 15, 150, 96, 47, 44, 90, 128, 42, 248, 157, 33, 235, 64,
      144, 69, 205, 39, 85, 216, 208, 120, 128, 118, 224, 44, 176, 216, 51], rfl⟩⟩]
    outputs := [output]
    proofs := [(output, ⟨.fit proof, proof.length⟩)]
    overage := 2 }

set_option maxRecDepth 4000 in
theorem sum_exchange :
    List.Forall₂ Commitment.Opens exchange.inputs [⟨7, 3⟩] ∧
    List.Forall₂ Commitment.Opens exchange.outputs [⟨5, 2⟩] ∧ exchange.Proven .commit ∧
    ∃ c : Commitment, c.Encodes (Opening.net [⟨5, 2⟩] [⟨7, 3⟩] 2) ∧
      (exchange.sum .commit).result = .ok c := by
  have hin : List.Forall₂ Commitment.Opens exchange.inputs [⟨7, 3⟩] :=
    .cons (@Commitment.opens_of_commit _ ⟨3, by decide⟩ _ (by decide +kernel)) .nil
  have hout : List.Forall₂ Commitment.Opens exchange.outputs [⟨5, 2⟩] :=
    .cons (@Commitment.opens_of_commit _ ⟨2, by decide⟩ _ (by decide +kernel)) .nil
  have hproven : exchange.Proven .commit := by
    have h : (checkProofs .commit exchange.proofs).result.isOk := by decide +kernel
    by_contra hnot
    rw [checkProofs_of_not_forall hnot] at h
    cases h
  have hne : Opening.net [⟨5, 2⟩] [⟨7, 3⟩] 2 ≠ 0 := by
    have hvalue : Opening.totalValue [⟨5, 2⟩] - Opening.totalValue [⟨7, 3⟩] + 2 = 0 := by decide
    have hblind : Opening.totalBlind [⟨5, 2⟩] - Opening.totalBlind [⟨7, 3⟩] = -1 := by
      norm_num [Opening.totalBlind]
    have hnet : Opening.net [⟨5, 2⟩] [⟨7, 3⟩] 2 = -CurveGroup.base := by
      rw [Opening.net, hvalue, hblind, Int.cast_zero, CurveGroup.opening]
      module
    rw [hnet, neg_ne_zero]
    exact CurveGroup.base_ne_zero
  exact ⟨hin, hout, hproven, ((sum_of_opens hin hout).2 hproven).2 (by decide) |>.1 hne⟩

end Committed

end ConfidentialTx
