import Mathlib
import ConfidentialTx.Proofs.Commitment.Encoding
import ConfidentialTx.Proofs.Results

namespace ConfidentialTx

open WeierstrassCurve.Affine

namespace CurveGroup

/-- The first coordinate as a scalar. -/
def across : CurveGroup → Option (ZMod groupOrder)
  | .zero => none
  | .some x _ _ => some (x.val : ZMod groupOrder)

theorem across_neg (P : CurveGroup) : (-P).across = P.across := by
  cases P with
  | zero => rfl
  | some x y h => rw [WeierstrassCurve.Affine.Point.neg_some, across, across]

end CurveGroup

namespace Scalar

theorem ofBytes?_eq_some_iff {b : FixedBytes 32} {a : Scalar} :
    ofBytes? b = some a ↔ b = a.toBytes := by
  constructor
  · intro h
    unfold ofBytes? at h
    split at h
    · cases h
      exact (FixedBytes.ofNat_toNat b).symm
    · cases h
  · rintro rfl
    exact ofBytes?_toBytes a

theorem isHigh_neg {a : Scalar} (h : a.isHigh = true) : (-a).isHigh = false := by
  simp only [isHigh, decide_eq_true_eq] at h
  have hlt := a.val_lt
  have hhalf : groupOrder = 2 * (groupOrder / 2) + 1 := by decide
  have hneg : (-a).val = groupOrder - a.val := by
    rw [Residue.val_neg, Nat.mod_eq_of_lt (by omega)]
  simp only [isHigh, hneg, decide_eq_false_iff_not]
  omega

end Scalar

theorem NonceGenerator.exists_of_search {α : Type} {accept : FixedBytes 32 → Option α} {limit : Nat}
    {g g' : NonceGenerator} {a : α} (h : search accept limit g = some (a, g')) :
    ∃ draw, accept draw = some a := by
  induction limit generalizing g with
  | zero => cases h
  | succ limit ih =>
    unfold search at h
    split at h
    · rename_i b hb
      cases h
      exact ⟨_, hb⟩
    · exact ih h

namespace SecretKey

def element (key : SecretKey) : CurveGroup := key.scalar.toZMod • CurveGroup.base

theorem element_ne_zero (key : SecretKey) : key.element ≠ 0 := by
  rw [element, ne_eq, smul_eq_zero, not_or, Residue.toZMod_eq_zero]
  exact ⟨key.ne_zero, CurveGroup.base_ne_zero⟩

end SecretKey

namespace Signature

/-- The second half is low, and the combination of the base point and the key that the signature
prescribes lies across from its first half. -/
def Accepts (msg : Message) (sig : Signature) (Q : CurveGroup) : Prop :=
  sig.s.val ≤ groupOrder / 2 ∧
    ((msg.toScalar.toZMod * sig.s.toZMod⁻¹) • CurveGroup.base +
      (sig.r.toZMod * sig.s.toZMod⁻¹) • Q).across = some sig.r.toZMod

theorem ofScalars?_eq_some {r s : Scalar} {sig : Signature} (h : ofScalars? r s = some sig) :
    sig.r = r ∧ sig.s = s := by
  unfold ofScalars? at h
  split at h
  · cases h
    exact ⟨rfl, rfl⟩
  · cases h

def WellFormed (bs : Bytes) : Prop :=
  bs.length = 64 ∧ (0 < Bytes.toNat (bs.take 32) ∧ Bytes.toNat (bs.take 32) < groupOrder) ∧
    0 < Bytes.toNat (bs.drop 32) ∧ Bytes.toNat (bs.drop 32) < groupOrder

theorem ofCompact?_eq_some_iff {bs : Bytes} {sig : Signature} :
    ofCompact? bs = some sig ↔ sig.toCompact = bs := by
  constructor
  · intro h
    unfold ofCompact? at h
    split at h
    · rename_i hlen
      obtain ⟨r, hr, h⟩ := Option.bind_eq_some_iff.mp h
      obtain ⟨s, hs, h⟩ := Option.bind_eq_some_iff.mp h
      obtain ⟨rfl, rfl⟩ := ofScalars?_eq_some h
      rw [toCompact, ← Scalar.ofBytes?_eq_some_iff.mp hr, ← Scalar.ofBytes?_eq_some_iff.mp hs,
        FixedBytes.toList_fit (by simp [hlen]), FixedBytes.toList_fit (by simp [hlen]),
        List.take_append_drop]
    · cases h
  · rintro rfl
    have h := ofCompact_toCompact sig
    unfold ofCompact at h
    split at h
    · rename_i found hfound
      rw [hfound, Except.ok.inj h]
    · cases h

theorem wellFormed_toCompact (sig : Signature) : WellFormed sig.toCompact := by
  have hr := sig.r.toBytes.length_toList
  have hs := sig.s.toBytes.length_toList
  have htake : sig.toCompact.take 32 = sig.r.toBytes.toList := by simp [toCompact, hr]
  have hdrop : sig.toCompact.drop 32 = sig.s.toBytes.toList := by simp [toCompact, hr]
  have hhalf (a : Scalar) (ha : a ≠ 0) :
      0 < Bytes.toNat a.toBytes.toList ∧ Bytes.toNat a.toBytes.toList < groupOrder := by
    have hval : Bytes.toNat a.toBytes.toList = a.val := Scalar.toNat_toBytes a
    have hne : a.val ≠ 0 := fun h ↦ ha (Residue.ext h)
    rw [hval]
    exact ⟨Nat.pos_of_ne_zero hne, a.val_lt⟩
  refine ⟨by simp [toCompact, hr, hs], ?_, ?_⟩
  · rw [htake]
    exact hhalf _ sig.r_ne_zero
  · rw [hdrop]
    exact hhalf _ sig.s_ne_zero

theorem wellFormed_iff {bs : Bytes} : WellFormed bs ↔ ∃ sig : Signature, sig.toCompact = bs := by
  constructor
  · rintro ⟨hlen, ⟨hr₀, hr⟩, hs₀, hs⟩
    refine ⟨⟨⟨_, hr⟩, ⟨_, hs⟩, fun h ↦ hr₀.ne' (congrArg Residue.val h),
      fun h ↦ hs₀.ne' (congrArg Residue.val h)⟩, ?_⟩
    have htake : (bs.take 32).length = 32 := by simp [hlen]
    have hdrop : (bs.drop 32).length = 32 := by simp [hlen]
    have hr := Bytes.bigEndian_toNat (bs.take 32)
    have hs := Bytes.bigEndian_toNat (bs.drop 32)
    rw [htake] at hr
    rw [hdrop] at hs
    simp only [toCompact, Scalar.toBytes, FixedBytes.ofNat, hr, hs, List.take_append_drop]
  · rintro ⟨sig, rfl⟩
    exact wellFormed_toCompact sig

theorem ofCompact_of_not_wellFormed {bs : Bytes} (h : ¬WellFormed bs) :
    ofCompact bs = .error .invalidSignature := by
  unfold ofCompact
  split
  · rename_i sig hsig
    exact absurd (wellFormed_iff.mpr ⟨sig, ofCompact?_eq_some_iff.mp hsig⟩) h
  · rfl

theorem reduce_eq_iff (x : ZMod fieldOrder) (r : Scalar) :
    Scalar.reduce (Residue.ofZMod x).val = r ↔ (x.val : ZMod groupOrder) = r.toZMod := by
  rw [← Residue.toZMod_inj, Scalar.reduce, Residue.toZMod_reduce]
  rfl

theorem isValid_iff {msg : Message} {sig : Signature} {x y : ZMod fieldOrder}
    {h : curve.Nonsingular x y} :
    isValid msg sig ⟨.ofZMod x, .ofZMod y⟩ ↔ Accepts msg sig (.some x y h) := by
  have hkey : PublicKey.toPoint ⟨.ofZMod x, .ofZMod y⟩ = Point.ofGroup (.some x y h) := rfl
  simp only [isValid, Accepts, Bool.and_eq_true, Bool.not_eq_true', Scalar.isHigh,
    decide_eq_false_iff_not, Nat.not_lt, hkey, ← CurveGroup.ofGroup_base, Point.mulAdd_eq_smul,
    Residue.toZMod_mul, Scalar.toZMod_inv]
  refine and_congr_right fun _ ↦ ?_
  generalize (msg.toScalar.toZMod * sig.s.toZMod⁻¹) • CurveGroup.base +
    (sig.r.toZMod * sig.s.toZMod⁻¹) • (.some x y h : CurveGroup) = R
  cases R with
  | zero =>
    simp only [CurveGroup.across, reduceCtorEq, iff_false]
    exact Bool.false_ne_true
  | some u v huv =>
    rw [Point.ofGroup_some, CurveGroup.across, Option.some.injEq, ← reduce_eq_iff]
    exact decide_eq_true_iff

theorem verify_of_accepts {msg : Message} {sig : Signature} {x y : ZMod fieldOrder}
    {h : curve.Nonsingular x y} (haccepts : Accepts msg sig (.some x y h)) :
    verify .commit msg sig ⟨.ofZMod x, .ofZMod y⟩ = .ok () := by
  have hcap : Capability.commit.requireVerify = .ok () := rfl
  rw [verify, hcap, isValid_iff.mpr haccepts]
  rfl

theorem verify_of_not_accepts {msg : Message} {sig : Signature} {x y : ZMod fieldOrder}
    {h : curve.Nonsingular x y} (hnot : ¬Accepts msg sig (.some x y h)) :
    verify .commit msg sig ⟨.ofZMod x, .ofZMod y⟩ = .error .incorrectSignature := by
  have hcap : Capability.commit.requireVerify = .ok () := rfl
  rw [verify, hcap, Bool.eq_false_iff.mpr (isValid_iff.not.mpr hnot)]
  rfl

theorem verify_eq_ok_iff {cap : Capability} {msg : Message} {sig : Signature} {key : PublicKey} :
    verify cap msg sig key = .ok () ↔ cap.canVerify = true ∧ isValid msg sig key = true := by
  unfold verify Capability.requireVerify Capability.require
  cases cap.canVerify <;> cases isValid msg sig key <;> simp [bind, Except.bind]

/-- In any context, and for any way to give a public key on the curve. -/
theorem verify_eq_ok_iff_accepts {cap : Capability} {msg : Message} {sig : Signature}
    {key : PublicKey} {P : CurveGroup} (hkey : Point.ofGroup P = key.toPoint) :
    verify cap msg sig key = .ok () ↔ cap.canVerify = true ∧ Accepts msg sig P := by
  rw [verify_eq_ok_iff]
  cases P with
  | zero => cases hkey
  | some x y hxy =>
    have hmk : key = ⟨.ofZMod x, .ofZMod y⟩ := by
      cases key
      cases hkey
      rfl
    rw [hmk, isValid_iff]

theorem combination_eq (m r d s : ZMod groupOrder) :
    (m * s⁻¹) • CurveGroup.base + (r * s⁻¹) • d • CurveGroup.base =
      (s⁻¹ * (m + r * d)) • CurveGroup.base := by
  module

/-- The half that a nonce gives and its negative prescribe opposite elements, which share the first
coordinate. -/
theorem accepts_of_ofNonce? {msg : Message} {key : SecretKey} {nonce : Scalar} {sig : Signature}
    (h : ofNonce? msg key nonce = some sig) : Accepts msg sig key.element := by
  unfold ofNonce? at h
  rw [← CurveGroup.ofGroup_base, Point.mul_eq_smul] at h
  cases hR : nonce.toZMod • CurveGroup.base with
  | zero =>
    rw [hR] at h
    cases h
  | some x y hxy =>
    rw [hR] at h
    obtain ⟨hr, hs⟩ := ofScalars?_eq_some h
    set s : Scalar := nonce.inv * (msg.toScalar + .reduce (Residue.ofZMod x).val * key.scalar)
      with hsdef
    have hx : (x.val : ZMod groupOrder) = sig.r.toZMod := (reduce_eq_iff x sig.r).mp hr.symm
    have hacross : (nonce.toZMod • CurveGroup.base).across = some sig.r.toZMod := by
      rw [hR, CurveGroup.across, hx]
    have hsum : s.toZMod = nonce.toZMod⁻¹ *
        (msg.toScalar.toZMod + sig.r.toZMod * key.scalar.toZMod) := by
      rw [hsdef, ← hr]
      simp
    have hne : s.toZMod ≠ 0 := by
      rw [ne_eq, Residue.toZMod_eq_zero]
      intro hzero
      apply sig.s_ne_zero
      rw [hs, hzero]
      split <;> rfl
    have hinv : s.toZMod⁻¹ * (msg.toScalar.toZMod + sig.r.toZMod * key.scalar.toZMod) =
        nonce.toZMod := by
      rw [hsum] at hne ⊢
      have hnonce := inv_eq_zero.not.mp (left_ne_zero_of_mul hne)
      have hright := right_ne_zero_of_mul hne
      field_simp
    cases hhigh : s.isHigh with
    | false =>
      rw [hhigh] at hs
      refine ⟨?_, ?_⟩
      · simpa [hs, Scalar.isHigh] using hhigh
      · rw [SecretKey.element, combination_eq, hs]
        simp only [Bool.false_eq_true, if_false]
        rw [hinv, hacross]
    | true =>
      rw [hhigh, if_pos rfl] at hs
      refine ⟨?_, ?_⟩
      · simpa [hs, Scalar.isHigh] using Scalar.isHigh_neg hhigh
      · rw [SecretKey.element, combination_eq, hs, Residue.toZMod_neg, inv_neg, neg_mul, hinv,
          neg_smul, CurveGroup.across_neg, hacross]

theorem accepts_of_sign {cap : Capability} {msg : Message} {key : SecretKey} {sig : Signature}
    (h : sign cap msg key = .ok sig) : Accepts msg sig key.element := by
  obtain ⟨-, -, h⟩ := bind_eq_ok_iff.mp h
  simp only at h
  split at h
  · rename_i found g hsearch
    cases h
    obtain ⟨draw, hdraw⟩ := NonceGenerator.exists_of_search hsearch
    obtain ⟨nonce, -, hnonce⟩ := Option.bind_eq_some_iff.mp hdraw
    exact accepts_of_ofNonce? hnonce
  · cases h

end Signature

end ConfidentialTx
