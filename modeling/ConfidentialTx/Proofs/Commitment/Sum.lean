import Mathlib
import ConfidentialTx.Proofs.Commitment.Encoding
import ConfidentialTx.Proofs.Results

namespace ConfidentialTx

namespace Commitment

theorem points_of_isPoint {cs : List Commitment} (h : ∀ c ∈ cs, c.IsPoint) :
    points cs = .ok ((cs.map element).map Point.ofGroup) := by
  induction cs with
  | nil => rfl
  | cons c cs ih =>
    obtain ⟨hc, hcs⟩ := List.forall_mem_cons.mp h
    have hrest := ih hcs
    unfold points at hrest ⊢
    rw [List.mapM_cons, toPoint_of_isPoint hc, hrest]
    rfl

theorem points_of_not_isPoint {cs : List Commitment} (h : ∃ c ∈ cs, ¬c.IsPoint) :
    points cs = .error .invalidCommitment := by
  induction cs with
  | nil => simp at h
  | cons c cs ih =>
    unfold points at ih ⊢
    rw [List.mapM_cons]
    by_cases hc : c.IsPoint
    · have hrest : ∃ c ∈ cs, ¬c.IsPoint := by
        obtain ⟨d, hd, hnot⟩ := h
        rcases List.mem_cons.mp hd with rfl | hd
        · exact absurd hc hnot
        · exact ⟨d, hd, hnot⟩
      rw [toPoint_of_isPoint hc, ih hrest]
      rfl
    · rw [toPoint_of_not_isPoint hc]
      rfl

noncomputable def net (positive negative : List Commitment) : CurveGroup :=
  (positive.map element).sum - (negative.map element).sum

theorem sum_of_isPoint {positive negative : List Commitment} (hp : ∀ c ∈ positive, c.IsPoint)
    (hn : ∀ c ∈ negative, c.IsPoint) :
    sum .commit positive negative = ofGroup (net positive negative) := by
  simp only [sum, Capability.requireCommit_commit, points_of_isPoint hp, points_of_isPoint hn, ofGroup,
    net]
  rw [Point.ofGroup_sub, ← Point.sum_ofGroup, ← Point.sum_ofGroup]
  rfl

theorem sum_of_not_isPoint {positive negative : List Commitment}
    (h : ∃ c ∈ positive ++ negative, ¬c.IsPoint) :
    sum .commit positive negative = .error .invalidCommitment := by
  by_cases hp : ∀ c ∈ positive, c.IsPoint
  · have hn : ∃ c ∈ negative, ¬c.IsPoint := by
      obtain ⟨c, hc, hnot⟩ := h
      rcases List.mem_append.mp hc with hc | hc
      · exact absurd (hp c hc) hnot
      · exact ⟨c, hc, hnot⟩
    simp only [sum, Capability.requireCommit_commit, points_of_isPoint hp, points_of_not_isPoint hn]
    rfl
  · push Not at hp
    simp only [sum, Capability.requireCommit_commit, points_of_not_isPoint hp]
    rfl

theorem toPublicKey_of_encodes {c : Commitment} {x y : ZMod fieldOrder}
    {h : curve.Nonsingular x y} (hc : c.Encodes (.some x y h)) :
    c.toPublicKey = .ok ⟨.ofZMod x, .ofZMod y⟩ := by
  simp [toPublicKey, toPoint?_of_encodes hc, PublicKey.ofPoint?]

end Commitment

def CurveGroup.opening (v r : ZMod groupOrder) : CurveGroup :=
  v • CurveGroup.value + r • CurveGroup.base

theorem CurveGroup.opening_zero : opening 0 0 = 0 := by
  simp only [opening]
  module

theorem CurveGroup.opening_add (v r w s : ZMod groupOrder) :
    opening (v + w) (r + s) = opening v r + opening w s := by
  simp only [opening]
  module

theorem CurveGroup.opening_sub (v r w s : ZMod groupOrder) :
    opening (v - w) (r - s) = opening v r - opening w s := by
  simp only [opening]
  module

theorem Point.pedersen_eq (v : UInt64) (r : Scalar) :
    Point.pedersen v r = Point.ofGroup (CurveGroup.opening v.toNat r.toZMod) := by
  rw [pedersen, ← CurveGroup.ofGroup_value, ← CurveGroup.ofGroup_base, mulAdd_eq_smul,
    Scalar.reduce, Residue.toZMod_reduce, CurveGroup.opening]

namespace Commitment

theorem commit_eq (v : UInt64) (key : SecretKey) :
    commit .commit v key = ofGroup (.opening v.toNat key.scalar.toZMod) := by
  rw [ofGroup, ← Point.pedersen_eq]
  rfl

theorem commit_eq_ok_iff {v : UInt64} {key : SecretKey} {c : Commitment} :
    commit .commit v key = .ok c ↔ c.Encodes (.opening v.toNat key.scalar.toZMod) := by
  rw [commit_eq, ofGroup_eq_ok_iff]

theorem commitValue_eq (v : UInt64) : commitValue .commit v = ofGroup (.opening v.toNat 0) := by
  rw [ofGroup, ← Residue.toZMod_zero, ← Point.pedersen_eq]
  rfl

end Commitment

end ConfidentialTx
