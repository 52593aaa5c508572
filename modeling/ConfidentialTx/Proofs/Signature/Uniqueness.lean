import Mathlib
import ConfidentialTx.Proofs.Transaction.CutThrough

namespace ConfidentialTx

open WeierstrassCurve.Affine

namespace CurveGroup

/-- From the difference of the two orders on, a scalar is the remainder of a single coordinate. -/
theorem val_eq_of_natCast_eq {x : ZMod fieldOrder} {r : Scalar}
    (hr : fieldOrder - groupOrder ≤ r.val) (h : (x.val : ZMod groupOrder) = r.toZMod) :
    x.val = r.val := by
  have hmod : x.val % groupOrder = r.val % groupOrder := (ZMod.natCast_eq_natCast_iff' _ _ _).mp h
  rw [Nat.mod_eq_of_lt r.val_lt] at hmod
  have hx : x.val < fieldOrder := x.val_lt
  have horders : groupOrder ≤ fieldOrder ∧ fieldOrder < 2 * groupOrder := by decide
  by_cases hsmall : x.val < groupOrder
  · rwa [Nat.mod_eq_of_lt hsmall] at hmod
  · rw [Nat.mod_eq_sub_mod (by omega), Nat.mod_eq_of_lt (by omega)] at hmod
    omega

theorem eq_or_eq_neg_of_across {P Q : CurveGroup} {r : Scalar}
    (hr : fieldOrder - groupOrder ≤ r.val) (hP : P.across = some r.toZMod)
    (hQ : Q.across = some r.toZMod) : P = Q ∨ P = -Q := by
  cases P with
  | zero => cases hP
  | some x y hxy => cases Q with
    | zero => cases hQ
    | some u v huv =>
      rw [across, Option.some.injEq] at hP hQ
      have hxu : x = u := ZMod.val_injective fieldOrder
        ((val_eq_of_natCast_eq hr hP).trans (val_eq_of_natCast_eq hr hQ).symm)
      subst hxu
      rw [WeierstrassCurve.Affine.Point.neg_some]
      simp only [WeierstrassCurve.Affine.Point.some.injEq, curve_negY, true_and]
      exact eq_or_eq_neg_of_nonsingular hxy huv

end CurveGroup

theorem Scalar.isHigh_neg_of_low {a : Scalar} (hne : a ≠ 0) (h : a.isHigh = false) :
    (-a).isHigh = true := by
  simp only [isHigh, decide_eq_false_iff_not] at h
  have hpos : a.val ≠ 0 := fun hzero ↦ hne (Residue.ext hzero)
  have hlt := a.val_lt
  have hhalf : groupOrder = 2 * (groupOrder / 2) + 1 := by decide
  have hneg : (-a).val = groupOrder - a.val := by
    rw [Residue.val_neg, Nat.mod_eq_of_lt (by omega)]
  simp only [isHigh, hneg, decide_eq_true_eq]
  omega

namespace Signature

variable {cap cap' : Capability} {msg : Message} {sig sig' : Signature} {key : PublicKey}
  {Q : CurveGroup}

/-- What a signature prescribes is a multiple of an element that its second half has no part in. -/
theorem combination_eq_smul (m r s : ZMod groupOrder) (Q : CurveGroup) :
    (m * s⁻¹) • CurveGroup.base + (r * s⁻¹) • Q = s⁻¹ • (m • CurveGroup.base + r • Q) := by
  module

theorem s_eq_or_eq_neg_of_accepts (hr : sig.r = sig'.r)
    (hrange : fieldOrder - groupOrder ≤ sig.r.val) (h : Accepts msg sig Q)
    (h' : Accepts msg sig' Q) : sig.s = sig'.s ∨ sig.s = -sig'.s := by
  obtain ⟨-, hacross⟩ := h
  obtain ⟨-, hacross'⟩ := h'
  rw [← hr] at hacross'
  rw [combination_eq_smul] at hacross hacross'
  set P := msg.toScalar.toZMod • CurveGroup.base + sig.r.toZMod • Q with hP
  have hne : P ≠ 0 := by
    intro hzero
    rw [hzero, smul_zero] at hacross
    cases hacross
  rcases CurveGroup.eq_or_eq_neg_of_across hrange hacross hacross' with hsame | hopposite
  · have hinv : sig.s.toZMod⁻¹ = sig'.s.toZMod⁻¹ := smul_left_injective _ hne hsame
    exact .inl (Residue.toZMod_injective (inv_injective hinv))
  · rw [← neg_smul] at hopposite
    have hinv : sig.s.toZMod⁻¹ = -sig'.s.toZMod⁻¹ := smul_left_injective _ hne hopposite
    rw [← inv_neg, ← Residue.toZMod_neg] at hinv
    exact .inr (Residue.toZMod_injective (inv_injective hinv))

theorem eq_of_accepts (hr : sig.r = sig'.r) (hrange : fieldOrder - groupOrder ≤ sig.r.val)
    (h : Accepts msg sig Q) (h' : Accepts msg sig' Q) : sig = sig' := by
  rcases s_eq_or_eq_neg_of_accepts hr hrange h h' with hs | hs
  · exact Signature.ext hr hs
  · have hlow' : sig'.s.isHigh = false := by simpa [Scalar.isHigh] using h'.1
    have hhigh := Scalar.isHigh_neg_of_low sig'.s_ne_zero hlow'
    rw [← hs] at hhigh
    simp only [Scalar.isHigh, decide_eq_true_eq] at hhigh
    exact absurd h.1 (Nat.not_le_of_lt hhigh)

theorem verify_neg (hs : sig'.s = -sig.s) (h : verify cap msg sig key = .ok ()) :
    verify cap msg sig' key = .error .incorrectSignature := by
  obtain ⟨hcap, hvalid⟩ := verify_eq_ok_iff.mp h
  have hlow : sig.s.isHigh = false := by
    rw [isValid, Bool.and_eq_true, Bool.not_eq_true'] at hvalid
    exact hvalid.1
  have hhigh : sig'.s.isHigh = true := hs ▸ Scalar.isHigh_neg_of_low sig.s_ne_zero hlow
  have hinvalid : isValid msg sig' key = false := by
    rw [isValid, hhigh]
    rfl
  rw [verify, Capability.requireVerify, hcap, hinvalid]
  rfl

theorem take_toCompact (sig : Signature) : sig.toCompact.take 32 = sig.r.toBytes.toList := by
  simp [toCompact, sig.r.toBytes.length_toList]

end Signature

theorem Commitment.isOnCurve_of_toPublicKey {c : Commitment} {key : PublicKey}
    (h : c.toPublicKey = .ok key) : key.toPoint.IsOnCurve := by
  unfold toPublicKey at h
  split at h
  · rename_i found hfound
    cases h
    obtain ⟨p, hp, hkey⟩ := Option.bind_eq_some_iff.mp hfound
    obtain ⟨P, rfl, -⟩ := toPoint?_eq_some_iff.mp hp
    cases P with
    | zero => cases hkey
    | some x y hxy =>
      cases hkey
      exact Point.isOnCurve_iff.mpr ⟨.some x y hxy, rfl⟩
  · cases h

theorem Kernel.verify_eq_ok {cap : Capability} {k : Kernel} (h : k.verify cap = .ok ()) :
    ∃ (key : PublicKey) (sig : Signature), k.excess.toPublicKey = .ok key ∧
      sig.toCompact = k.excessSig ∧
      Signature.verify cap k.message sig key = .ok () := by
  obtain ⟨key, hkey, h⟩ := bind_eq_ok_iff.mp (mapError_eq_ok_iff.mp h)
  obtain ⟨sig, hsig, h⟩ := bind_eq_ok_iff.mp h
  refine ⟨key, sig, hkey, ?_, h⟩
  unfold Signature.ofCompact at hsig
  split at hsig
  · rename_i found hfound
    cases hsig
    exact Signature.ofCompact?_eq_some_iff.mp hfound
  · cases hsig

/-- A first half that is the remainder of one coordinate only is accepted with one second half at
most, and no first half with both of two opposite ones. So kernels that say the same and share such a
first half are signed with the same bytes. -/
theorem Signature.second_half_unique :
    (∀ (cap cap' : Capability) (msg : Message) (key : PublicKey) (sig sig' : Signature),
      key.toPoint.IsOnCurve → fieldOrder - groupOrder ≤ sig.r.val → sig'.r = sig.r →
      verify cap msg sig key = .ok () → verify cap' msg sig' key = .ok () → sig'.s = sig.s) ∧
    (∀ (cap : Capability) (msg : Message) (key : PublicKey) (sig sig' : Signature),
      sig'.r = sig.r → sig'.s.val = groupOrder - sig.s.val →
      verify cap msg sig key = .ok () →
      verify cap msg sig' key = .error .incorrectSignature) ∧
    ∀ (cap cap' : Capability) (k k' : Kernel),
      k'.excess = k.excess → k'.fee = k.fee → k'.lockHeight = k.lockHeight →
      k'.excessSig.take 32 = k.excessSig.take 32 →
      fieldOrder - groupOrder ≤ Bytes.toNat (k.excessSig.take 32) →
      k.verify cap = .ok () → k'.verify cap' = .ok () → k'.excessSig = k.excessSig := by
  have hunique : ∀ (cap cap' : Capability) (msg : Message) (key : PublicKey)
      (sig sig' : Signature), key.toPoint.IsOnCurve → fieldOrder - groupOrder ≤ sig.r.val →
      sig'.r = sig.r → verify cap msg sig key = .ok () → verify cap' msg sig' key = .ok () →
      sig' = sig := by
    intro cap cap' msg key sig sig' hkey hrange hr h h'
    obtain ⟨P, hP⟩ := Point.isOnCurve_iff.mp hkey
    obtain ⟨-, haccepts⟩ := (verify_eq_ok_iff_accepts hP).mp h
    obtain ⟨-, haccepts'⟩ := (verify_eq_ok_iff_accepts hP).mp h'
    exact (eq_of_accepts hr.symm hrange haccepts haccepts').symm
  refine ⟨?_, ?_, ?_⟩
  · intro cap cap' msg key sig sig' hkey hrange hr h h'
    rw [hunique cap cap' msg key sig sig' hkey hrange hr h h']
  · intro cap msg key sig sig' hr hs h
    apply verify_neg _ h
    have hpos : sig.s.val ≠ 0 := fun hzero ↦ sig.s_ne_zero (Residue.ext hzero)
    have hlt := sig.s.val_lt
    ext
    rw [hs, Residue.val_neg, Nat.mod_eq_of_lt (by omega)]
  · intro cap cap' k k' hexcess hfee hheight htake hrange h h'
    obtain ⟨key, sig, hkey, hsig, hverify⟩ := k.verify_eq_ok h
    obtain ⟨key', sig', hkey', hsig', hverify'⟩ := k'.verify_eq_ok h'
    have hsame : key' = key := by
      rw [hexcess, hkey] at hkey'
      exact (Except.ok.inj hkey').symm
    have hmessage : k'.message = k.message := by
      rw [Kernel.message, Kernel.message, hfee, hheight]
    rw [← hsig, ← hsig', take_toCompact, take_toCompact] at htake
    have hr : sig'.r = sig.r := by
      have hbytes : sig'.r.toBytes = sig.r.toBytes := FixedBytes.ext htake
      ext
      rw [← Scalar.toNat_toBytes, ← Scalar.toNat_toBytes, hbytes]
    rw [← hsig, take_toCompact] at hrange
    have hval : Bytes.toNat sig.r.toBytes.toList = sig.r.val := Scalar.toNat_toBytes sig.r
    rw [hval] at hrange
    rw [hsame, hmessage] at hverify'
    have heq := hunique cap cap' k.message key sig sig'
      (Commitment.isOnCurve_of_toPublicKey hkey) hrange hr hverify hverify'
    rw [← hsig, ← hsig', heq]

def Kernel.payFee : Kernel where
  excess := ⟨.ofNat 0x09c6047f9441ed7d6d3045406e95c07cd85c778e4b8cef3ca7abac09b95c709ee5⟩
  excessSig := Transaction.payFee.excessSig
  fee := 3
  lockHeight := 0

set_option maxRecDepth 10000 in
theorem Kernel.verify_payFee : payFee.verify .commit = .ok () := by
  decide +kernel

theorem Signature.second_half_unique_payFee :
    ∃ (key : PublicKey) (sig : Signature), Kernel.payFee.excess.toPublicKey = .ok key ∧
      sig.toCompact = Kernel.payFee.excessSig ∧
      (∀ sig' : Signature, sig'.r = sig.r →
        verify .full Kernel.payFee.message sig' key = .ok () → sig'.s = sig.s) ∧
      (∀ sig' : Signature, sig'.r = sig.r → sig'.s.val = groupOrder - sig.s.val →
        verify .commit Kernel.payFee.message sig' key = .error .incorrectSignature) ∧
      ∀ bs : Bytes, bs.take 32 = Kernel.payFee.excessSig.take 32 →
        { Kernel.payFee with excessSig := bs }.verify .commit = .ok () →
        bs = Kernel.payFee.excessSig := by
  obtain ⟨hunique, hneg, hkernel⟩ := second_half_unique
  obtain ⟨key, sig, hkey, hsig, hverify⟩ := Kernel.payFee.verify_eq_ok Kernel.verify_payFee
  have hrange : fieldOrder - groupOrder ≤ Bytes.toNat (Kernel.payFee.excessSig.take 32) := by
    decide
  refine ⟨key, sig, hkey, hsig, ?_, ?_, ?_⟩
  · intro sig' hr h'
    have hr₀ : fieldOrder - groupOrder ≤ sig.r.val := by
      rw [← hsig, take_toCompact] at hrange
      exact hrange.trans_eq (Scalar.toNat_toBytes sig.r)
    exact hunique .commit .full Kernel.payFee.message key sig sig'
      (Commitment.isOnCurve_of_toPublicKey hkey) hr₀ hr hverify h'
  · intro sig' hr hs
    exact hneg .commit Kernel.payFee.message key sig sig' hr hs hverify
  · intro bs htake h'
    exact hkernel .commit .commit Kernel.payFee { Kernel.payFee with excessSig := bs } rfl rfl rfl
      htake hrange Kernel.verify_payFee h'

end ConfidentialTx
