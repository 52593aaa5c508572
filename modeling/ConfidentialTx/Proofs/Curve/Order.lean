import Mathlib
import ConfidentialTx.Proofs.Curve.Multiple
import ConfidentialTx.Proofs.Curve.Square

namespace ConfidentialTx

open WeierstrassCurve.Affine

namespace CurveGroup

def base : CurveGroup := Generator.base.toGroup (by decide +kernel)

def value : CurveGroup := Generator.value.toGroup (by decide +kernel)

def switch : CurveGroup := Generator.switch.toGroup (by decide +kernel)

@[simp] theorem ofGroup_base : Point.ofGroup base = Generator.base := Point.ofGroup_toGroup _

@[simp] theorem ofGroup_value : Point.ofGroup value = Generator.value := Point.ofGroup_toGroup _

@[simp] theorem ofGroup_switch : Point.ofGroup switch = Generator.switch := Point.ofGroup_toGroup _

theorem base_ne_zero : base ≠ 0 := by
  intro h
  have := ofGroup_base
  rw [h] at this
  cases this

theorem groupOrder_nsmul_base : groupOrder • base = 0 := by
  have hneg : Generator.base.mul ⟨groupOrder - 1, by decide⟩ = -Generator.base := by decide +kernel
  rw [← ofGroup_base, Point.mul_ofGroup, ← Point.ofGroup_neg, Point.ofGroup_inj] at hneg
  have hsplit : groupOrder = (groupOrder - 1) + 1 := by decide
  rw [hsplit, add_nsmul, one_nsmul, hneg, neg_add_cancel]

theorem addOrderOf_base : addOrderOf base = groupOrder :=
  addOrderOf_eq_prime groupOrder_nsmul_base base_ne_zero

/-- The negative of seven is no cube. -/
theorem cube_ne_neg_seven (x : ZMod fieldOrder) : x * x * x + 7 ≠ 0 := by
  intro h
  have hcube : x ^ 3 = -7 := by linear_combination h
  have hx : x ≠ 0 := by
    rintro rfl
    have hseven : (7 : ZMod fieldOrder) ≠ 0 := natCast_ne_zero (n := 7) (by decide) (by decide)
    exact hseven (by linear_combination h)
  have hpow : (-7 : ZMod fieldOrder) ^ ((fieldOrder - 1) / 3) = 1 := by
    rw [← hcube, ← pow_mul, show 3 * ((fieldOrder - 1) / 3) = fieldOrder - 1 by decide,
      ZMod.pow_card_sub_one_eq_one hx]
  have hne : Residue.pow 256 (-7 : Field) ((fieldOrder - 1) / 3) ≠ 1 := by decide +kernel
  apply hne
  rw [← Residue.toZMod_inj, Residue.toZMod_pow, Nat.mod_eq_of_lt (by decide), Residue.toZMod_neg,
    Residue.toZMod_ofNat, Residue.toZMod_one, hpow]

theorem y_ne_zero {x y : ZMod fieldOrder} (h : curve.Nonsingular x y) : y ≠ 0 := by
  rintro rfl
  rw [curve_nonsingular_iff, zero_mul] at h
  exact cube_ne_neg_seven x h.symm

theorem eq_zero_of_add_self {P : CurveGroup} (h : P + P = 0) : P = 0 := by
  cases P with
  | zero => rfl
  | some x y hP =>
    have hy : y = -y := by
      have hneg := eq_neg_of_add_eq_zero_left h
      rw [WeierstrassCurve.Affine.Point.neg_some, WeierstrassCurve.Affine.Point.some.injEq,
        curve_negY] at hneg
      exact hneg.2
    have hdouble : 2 * y = 0 := by linear_combination hy
    rcases mul_eq_zero.mp hdouble with h | h
    · exact absurd h two_ne_zero_zmod
    · exact absurd h (y_ne_zero hP)

/-- An element is determined by its first coordinate and by whether the second is a square. -/
noncomputable def signed : CurveGroup → Option (ZMod fieldOrder × Prop)
  | .zero => none
  | .some x y _ => some (x, IsSquare y)

theorem signed_injective : Function.Injective signed := by
  intro P Q h
  cases P with
  | zero => cases Q with
    | zero => rfl
    | some => cases h
  | some x y hP => cases Q with
    | zero => cases h
    | some x' y' hQ =>
      simp only [signed, Option.some.injEq, Prod.mk.injEq, eq_iff_iff] at h
      obtain ⟨rfl, hsq⟩ := h
      have hyy : y * y = y' * y' :=
        (curve_nonsingular_iff.mp hP).trans (curve_nonsingular_iff.mp hQ).symm
      rcases mul_self_eq_mul_self_iff.mp hyy with rfl | rfl
      · rfl
      · rw [isSquare_neg_iff fieldOrder_mod_four (y_ne_zero hQ)] at hsq
        exact absurd hsq (by tauto)

instance : Finite CurveGroup := Finite.of_injective signed signed_injective

theorem card_le : Nat.card CurveGroup ≤ 2 * fieldOrder + 1 := by
  have h := Nat.card_le_card_of_injective signed signed_injective
  have hcard : Nat.card (Option (ZMod fieldOrder × Prop)) = 2 * fieldOrder + 1 := by
    rw [Finite.card_option, Nat.card_prod, Nat.card_zmod, Nat.card_eq_fintype_card, Fintype.card_prop,
      mul_comm]
  exact hcard ▸ h

theorem card_eq : Nat.card CurveGroup = groupOrder := by
  have hdvd : groupOrder ∣ Nat.card CurveGroup := addOrderOf_base ▸ addOrderOf_dvd_natCard base
  obtain ⟨k, hk⟩ := hdvd
  have hpos : 0 < Nat.card CurveGroup := Nat.card_pos
  have hle := card_le
  have hsmall : 2 * fieldOrder + 1 < groupOrder * 3 := by decide
  have hk3 : k < 3 := Nat.lt_of_mul_lt_mul_left (a := groupOrder) (by omega)
  have hk0 : k ≠ 0 := by
    rintro rfl
    omega
  have hk2 : k ≠ 2 := by
    rintro rfl
    obtain ⟨P, hP⟩ := exists_prime_addOrderOf_dvd_card' (G := CurveGroup) 2 ⟨groupOrder, by omega⟩
    have hdouble : P + P = 0 := by rw [← two_nsmul, ← hP, addOrderOf_nsmul_eq_zero]
    rw [eq_zero_of_add_self hdouble, addOrderOf_zero] at hP
    cases hP
  have hk1 : k = 1 := by omega
  rw [hk, hk1, mul_one]

theorem groupOrder_nsmul (P : CurveGroup) : groupOrder • P = 0 := by
  rw [← card_eq, card_nsmul_eq_zero']

instance : Module (ZMod groupOrder) CurveGroup := AddCommGroup.zmodModule groupOrder_nsmul

end CurveGroup

theorem Scalar.toZMod_smul (a : Scalar) (P : CurveGroup) : a.toZMod • P = a.val • P :=
  Nat.cast_smul_eq_nsmul _ _ _

namespace Point

theorem mul_eq_smul (a : Scalar) (P : CurveGroup) : mul a (ofGroup P) = ofGroup (a.toZMod • P) := by
  rw [mul_ofGroup, Scalar.toZMod_smul]

theorem mulAdd_eq_smul (a b : Scalar) (P Q : CurveGroup) :
    mulAdd a (ofGroup P) b (ofGroup Q) = ofGroup (a.toZMod • P + b.toZMod • Q) := by
  rw [mulAdd_ofGroup, Scalar.toZMod_smul, Scalar.toZMod_smul]

end Point

end ConfidentialTx
