import Mathlib
import ConfidentialTx.Curve.Jacobian
import ConfidentialTx.Proofs.Curve.Group

namespace ConfidentialTx

open WeierstrassCurve.Affine

namespace Jacobian

def Represents (j : Jacobian) : CurveGroup → Prop
  | .zero => j.z = 0
  | .some x y _ => j.z.toZMod ≠ 0 ∧ j.x.toZMod = x * j.z.toZMod ^ 2 ∧
      j.y.toZMod = y * j.z.toZMod ^ 3

theorem represents_zero {j : Jacobian} : j.Represents 0 ↔ j.z = 0 := Iff.rfl

theorem represents_some {j : Jacobian} {x y : ZMod fieldOrder} (h : curve.Nonsingular x y) :
    j.Represents (.some x y h) ↔ j.z.toZMod ≠ 0 ∧ j.x.toZMod = x * j.z.toZMod ^ 2 ∧
      j.y.toZMod = y * j.z.toZMod ^ 3 := Iff.rfl

theorem represents_ofPoint (P : CurveGroup) : (ofPoint (.ofGroup P)).Represents P := by
  cases P with
  | zero => rfl
  | some x y h => exact ⟨by simp [ofPoint], by simp [ofPoint], by simp [ofPoint]⟩

theorem Represents.toPoint_eq {j : Jacobian} {P : CurveGroup} (h : j.Represents P) :
    j.toPoint = .ofGroup P := by
  cases P with
  | zero =>
    have hz : j.z = 0 := h
    simp only [toPoint, if_pos hz]
    rfl
  | some x y hP =>
    obtain ⟨hz, hx, hy⟩ := h
    have hz' : j.z ≠ 0 := by simpa using hz
    simp only [toPoint, if_neg hz', Point.ofGroup_some, Point.affine.injEq]
    constructor
    · apply Residue.toZMod_injective
      simp [hx]
      field_simp
    · apply Residue.toZMod_injective
      simp [hy]
      field_simp

theorem Represents.double {j : Jacobian} {P : CurveGroup} (h : j.Represents P) :
    j.double.Represents (P + P) := by
  cases P with
  | zero =>
    have hz : j.z = 0 := h
    change (j.y + j.y) * j.z = 0
    apply Residue.toZMod_injective
    simp [hz]
  | some x y hP =>
    obtain ⟨hz, hx, hy⟩ := h
    by_cases hy₀ : y = 0
    · have hself : y = curve.negY x y := by simp [hy₀]
      rw [WeierstrassCurve.Affine.Point.add_self_of_Y_eq hself, represents_zero]
      apply Residue.toZMod_injective
      simp [Jacobian.double, hy, hy₀]
    · have hne : y ≠ curve.negY x y := by
        intro h
        apply hy₀
        have hdouble : 2 * y = 0 := by
          rw [curve_negY] at h
          linear_combination h
        simpa [two_ne_zero_zmod] using hdouble
      have hslope := slope_tangent hne
      rw [WeierstrassCurve.Affine.Point.add_self_of_Y_ne hne, represents_some, curve_addX, curve_addY]
      generalize curve.slope x x y y = s at hslope ⊢
      refine ⟨?_, ?_, ?_⟩
      · simp [Jacobian.double, hy, hy₀, hz, ← two_mul, two_ne_zero_zmod]
      · simp only [Jacobian.double, Residue.toZMod_add, Residue.toZMod_sub, Residue.toZMod_mul, hx, hy]
        linear_combination (-(j.z.toZMod ^ 8) * (s * (2 * y) + 3 * x ^ 2)) * hslope
      · simp only [Jacobian.double, Residue.toZMod_add, Residue.toZMod_sub, Residue.toZMod_mul, hx, hy]
        linear_combination (-(j.z.toZMod ^ 12) * (12 * x * y ^ 2 - (9 * x ^ 4 +
          3 * x ^ 2 * (s * (2 * y)) + (s * (2 * y)) ^ 2))) * hslope

theorem toZMod_run {j k : Jacobian} {x₁ x₂ : ZMod fieldOrder}
    (hx₁ : j.x.toZMod = x₁ * j.z.toZMod ^ 2) (hx₂ : k.x.toZMod = x₂ * k.z.toZMod ^ 2) :
    (k.x * (j.z * j.z) - j.x * (k.z * k.z)).toZMod =
      (x₂ - x₁) * (j.z.toZMod * k.z.toZMod) ^ 2 := by
  simp only [Residue.toZMod_sub, Residue.toZMod_mul, hx₁, hx₂]
  ring

theorem toZMod_rise {j k : Jacobian} {y₁ y₂ : ZMod fieldOrder}
    (hy₁ : j.y.toZMod = y₁ * j.z.toZMod ^ 3) (hy₂ : k.y.toZMod = y₂ * k.z.toZMod ^ 3) :
    (k.y * (j.z * j.z * j.z) - j.y * (k.z * k.z * k.z)).toZMod =
      (y₂ - y₁) * (j.z.toZMod * k.z.toZMod) ^ 3 := by
  simp only [Residue.toZMod_sub, Residue.toZMod_mul, hy₁, hy₂]
  ring

theorem Represents.add_of_x_eq {j k : Jacobian} {x y₁ y₂ : ZMod fieldOrder}
    {hP : curve.Nonsingular x y₁} {hQ : curve.Nonsingular x y₂}
    (hj : j.Represents (.some x y₁ hP)) (hk : k.Represents (.some x y₂ hQ)) :
    (j.add k).Represents (.some x y₁ hP + .some x y₂ hQ) := by
  have hself := hj
  obtain ⟨hz₁, hx₁, hy₁⟩ := hj
  obtain ⟨hz₂, hx₂, hy₂⟩ := hk
  have hz₁' : j.z ≠ 0 := by simpa using hz₁
  have hz₂' : k.z ≠ 0 := by simpa using hz₂
  have hd : k.x * (j.z * j.z) - j.x * (k.z * k.z) = 0 := by
    rw [← Residue.toZMod_eq_zero, toZMod_run hx₁ hx₂, sub_self, zero_mul]
  have hr := toZMod_rise hy₁ hy₂
  simp only [Jacobian.add, if_neg hz₁', if_neg hz₂', if_pos hd]
  generalize k.y * (j.z * j.z * j.z) - j.y * (k.z * k.z * k.z) = e at hr ⊢
  by_cases hy : y₁ = y₂
  · subst hy
    have he : e = 0 := by rw [← Residue.toZMod_eq_zero, hr, sub_self, zero_mul]
    rw [if_pos he]
    exact hself.double
  · have he : e ≠ 0 := by
      rw [ne_eq, ← Residue.toZMod_eq_zero, hr]
      exact mul_ne_zero (sub_ne_zero.mpr (Ne.symm hy)) (pow_ne_zero _ (mul_ne_zero hz₁ hz₂))
    have hneg : y₁ = curve.negY x y₂ := by
      rw [curve_negY]
      exact (eq_or_eq_neg_of_nonsingular hP hQ).resolve_left hy
    rw [if_neg he, WeierstrassCurve.Affine.Point.add_of_Y_eq rfl hneg, represents_zero]
    rfl

theorem Represents.add_of_x_ne {j k : Jacobian} {x₁ y₁ x₂ y₂ : ZMod fieldOrder}
    {hP : curve.Nonsingular x₁ y₁} {hQ : curve.Nonsingular x₂ y₂}
    (hj : j.Represents (.some x₁ y₁ hP)) (hk : k.Represents (.some x₂ y₂ hQ)) (hx : x₁ ≠ x₂) :
    (j.add k).Represents (.some x₁ y₁ hP + .some x₂ y₂ hQ) := by
  obtain ⟨hz₁, hx₁, hy₁⟩ := hj
  obtain ⟨hz₂, hx₂, hy₂⟩ := hk
  have hz₁' : j.z ≠ 0 := by simpa using hz₁
  have hz₂' : k.z ≠ 0 := by simpa using hz₂
  have hh := toZMod_run hx₁ hx₂
  have hr := toZMod_rise hy₁ hy₂
  simp only [Jacobian.add, if_neg hz₁', if_neg hz₂']
  generalize k.x * (j.z * j.z) - j.x * (k.z * k.z) = d at hh ⊢
  generalize k.y * (j.z * j.z * j.z) - j.y * (k.z * k.z * k.z) = e at hr ⊢
  have hd : d.toZMod ≠ 0 := by
    rw [hh]
    exact mul_ne_zero (sub_ne_zero.mpr (Ne.symm hx)) (pow_ne_zero _ (mul_ne_zero hz₁ hz₂))
  have hslope := @slope_chord x₁ y₁ x₂ y₂ hx
  rw [if_neg (Residue.toZMod_eq_zero.not.mp hd),
    WeierstrassCurve.Affine.Point.add_of_X_ne hx, represents_some, curve_addX, curve_addY]
  generalize curve.slope x₁ x₂ y₁ y₂ = s at hslope ⊢
  refine ⟨?_, ?_, ?_⟩
  · simp only [Residue.toZMod_mul]
    exact mul_ne_zero (mul_ne_zero hz₁ hz₂) hd
  · simp only [Residue.toZMod_add, Residue.toZMod_sub, Residue.toZMod_mul, hh, hr, hx₁, ← hslope]
    ring
  · simp only [Residue.toZMod_add, Residue.toZMod_sub, Residue.toZMod_mul, hh, hr, hx₁, hy₁,
      ← hslope]
    ring

theorem Represents.add {j k : Jacobian} {P Q : CurveGroup} (hj : j.Represents P)
    (hk : k.Represents Q) : (j.add k).Represents (P + Q) := by
  cases P with
  | zero =>
    have hz : j.z = 0 := hj
    change (j.add k).Represents (0 + Q)
    rwa [zero_add, Jacobian.add, if_pos hz]
  | some x₁ y₁ hP =>
    cases Q with
    | zero =>
      have hz₁ : j.z ≠ 0 := by simpa using hj.1
      have hz : k.z = 0 := hk
      change (j.add k).Represents (_ + 0)
      rwa [add_zero, Jacobian.add, if_neg hz₁, if_pos hz]
    | some x₂ y₂ hQ =>
      by_cases hx : x₁ = x₂
      · subst hx
        exact hj.add_of_x_eq hk
      · exact hj.add_of_x_ne hk hx

theorem Represents.mul {j : Jacobian} {P : CurveGroup} (hj : j.Represents P) (a : ℕ) :
    (Jacobian.mul a j).Represents ((a % 2 ^ 256) • P) := by
  have hzero : infinity.Represents ((0 : ℕ) • P) := by
    rw [zero_nsmul]
    rfl
  have h := foldl_bits (fun (r : Jacobian) bit ↦ if bit then r.double.add j else r.double)
    (fun t r ↦ r.Represents (t • P)) (fun t r bit hr ↦ ?_) 256 a hzero
  · simpa [Jacobian.mul] using h
  · rw [add_nsmul, mul_nsmul', two_nsmul]
    cases bit with
    | false => simpa using hr.double
    | true => simpa using hr.double.add hj

theorem Represents.mulAdd {j k : Jacobian} {P Q : CurveGroup} (hj : j.Represents P)
    (hk : k.Represents Q) (a b : ℕ) :
    (Jacobian.mulAdd a j b k).Represents ((a % 2 ^ 256) • P + (b % 2 ^ 256) • Q) := by
  have hzero : infinity.Represents ((0 : ℕ) • P + (0 : ℕ) • Q) := by
    rw [zero_nsmul, zero_nsmul, add_zero]
    rfl
  have hrun (f : Jacobian → Bool × Bool → Jacobian)
      (hf : ∀ (s t : ℕ) r pair, r.Represents (s • P + t • Q) →
        (f r pair).Represents ((2 * s + pair.1.toNat) • P + (2 * t + pair.2.toNat) • Q)) :
      (((bits 256 a).zip (bits 256 b)).foldl f infinity).Represents
        ((a % 2 ^ 256) • P + (b % 2 ^ 256) • Q) := by
    have h := foldl_zip_bits f (fun s t r ↦ r.Represents (s • P + t • Q)) hf 256 a b hzero
    simp only [zero_mul, zero_add] at h
    exact h
  simp only [Jacobian.mulAdd]
  refine hrun _ fun s t r pair hr ↦ ?_
  obtain ⟨x, y⟩ := pair
  have hsplit : (2 * s + x.toNat) • P + (2 * t + y.toNat) • Q =
      (s • P + t • Q) + (s • P + t • Q) + (x.toNat • P + y.toNat • Q) := by
    rw [add_nsmul, add_nsmul, mul_nsmul', mul_nsmul', two_nsmul, two_nsmul]
    abel
  rw [hsplit]
  cases x with
  | false => cases y with
    | false => simpa using hr.double
    | true => simpa using hr.double.add hk
  | true => cases y with
    | false => simpa using hr.double.add hj
    | true => simpa using hr.double.add (hj.add hk)

end Jacobian

namespace Point

theorem mul_ofGroup (a : Scalar) (P : CurveGroup) : mul a (ofGroup P) = ofGroup (a.val • P) := by
  have h := (Jacobian.represents_ofPoint P).mul a.val
  rw [Nat.mod_eq_of_lt (a.val_lt.trans (by decide))] at h
  exact h.toPoint_eq

theorem mulAdd_ofGroup (a b : Scalar) (P Q : CurveGroup) :
    mulAdd a (ofGroup P) b (ofGroup Q) = ofGroup (a.val • P + b.val • Q) := by
  have h := (Jacobian.represents_ofPoint P).mulAdd (Jacobian.represents_ofPoint Q) a.val b.val
  rw [Nat.mod_eq_of_lt (a.val_lt.trans (by decide)),
    Nat.mod_eq_of_lt (b.val_lt.trans (by decide))] at h
  exact h.toPoint_eq

end Point

end ConfidentialTx
