import Mathlib
import ConfidentialTx.Curve.Generators
import ConfidentialTx.Proofs.Curve.Prime

namespace ConfidentialTx

open WeierstrassCurve.Affine

def curve : WeierstrassCurve.Affine (ZMod fieldOrder) := ⟨0, 0, 0, 0, 7⟩

abbrev CurveGroup := curve.Point

@[simp] theorem curve_a₁ : curve.a₁ = 0 := rfl

@[simp] theorem curve_a₃ : curve.a₃ = 0 := rfl

theorem natCast_ne_zero {n : ℕ} (hpos : 0 < n) (hlt : n < fieldOrder) :
    (n : ZMod fieldOrder) ≠ 0 := by
  intro h
  have hdvd := (ZMod.natCast_eq_zero_iff n fieldOrder).mp h
  exact absurd (Nat.le_of_dvd hpos hdvd) (by omega)

theorem two_ne_zero_zmod : (2 : ZMod fieldOrder) ≠ 0 :=
  natCast_ne_zero (n := 2) (by decide) (by decide)

theorem curve_nonsingular_iff {x y : ZMod fieldOrder} :
    curve.Nonsingular x y ↔ y * y = x * x * x + 7 := by
  have hthree : (3 : ZMod fieldOrder) ≠ 0 := natCast_ne_zero (n := 3) (by decide) (by decide)
  have hseven : (7 : ZMod fieldOrder) ≠ 0 := natCast_ne_zero (n := 7) (by decide) (by decide)
  rw [nonsingular_iff, equation_iff]
  simp only [curve]
  constructor
  · rintro ⟨h, -⟩
    linear_combination h
  · intro h
    refine ⟨by linear_combination h, ?_⟩
    by_contra hsing
    push Not at hsing
    obtain ⟨hx, hy⟩ := hsing
    have hxx : x = 0 := by
      have hsq : 3 * x ^ 2 = 0 := by linear_combination -hx
      simpa [hthree] using hsq
    have hyy : y = 0 := by
      have hdouble : 2 * y = 0 := by linear_combination hy
      simpa [two_ne_zero_zmod] using hdouble
    rw [hxx, hyy] at h
    exact hseven (by linear_combination -h)

theorem curve_negY (x y : ZMod fieldOrder) : curve.negY x y = -y := by
  simp [negY]

theorem curve_addX (x₁ x₂ slope : ZMod fieldOrder) :
    curve.addX x₁ x₂ slope = slope * slope - x₁ - x₂ := by
  simp only [addX, curve]
  ring

theorem curve_addY (x₁ x₂ y₁ slope : ZMod fieldOrder) :
    curve.addY x₁ x₂ y₁ slope = slope * (x₁ - (slope * slope - x₁ - x₂)) - y₁ := by
  rw [addY, curve_negY, negAddY, curve_addX]
  ring

theorem slope_tangent {x y : ZMod fieldOrder} (hy : y ≠ curve.negY x y) :
    curve.slope x x y y * (2 * y) = 3 * x ^ 2 := by
  have hden : y - curve.negY x y ≠ 0 := sub_ne_zero.mpr hy
  rw [slope_of_Y_ne rfl hy, show 2 * y = y - curve.negY x y by rw [curve_negY]; ring,
    div_mul_cancel₀ _ hden]
  simp [curve]

theorem slope_chord {x₁ y₁ x₂ y₂ : ZMod fieldOrder} (hx : x₁ ≠ x₂) :
    curve.slope x₁ x₂ y₁ y₂ * (x₂ - x₁) = y₂ - y₁ := by
  have hden : x₁ - x₂ ≠ 0 := sub_ne_zero.mpr hx
  rw [slope_of_X_ne hx, ← neg_sub x₁ x₂, mul_neg, div_mul_cancel₀ _ hden, neg_sub]

theorem eq_or_eq_neg_of_nonsingular {x y₁ y₂ : ZMod fieldOrder} (h₁ : curve.Nonsingular x y₁)
    (h₂ : curve.Nonsingular x y₂) : y₁ = y₂ ∨ y₁ = -y₂ :=
  mul_self_eq_mul_self_iff.mp
    ((curve_nonsingular_iff.mp h₁).trans (curve_nonsingular_iff.mp h₂).symm)

namespace Point

def ofGroup : CurveGroup → Point
  | .zero => infinity
  | .some x y _ => affine (.ofZMod x) (.ofZMod y)

@[simp] theorem ofGroup_zero : ofGroup 0 = 0 := rfl

@[simp] theorem ofGroup_some {x y : ZMod fieldOrder} (h : curve.Nonsingular x y) :
    ofGroup (.some x y h) = affine (.ofZMod x) (.ofZMod y) := rfl

theorem ofGroup_injective : Function.Injective ofGroup := by
  intro P Q h
  cases P with
  | zero => cases Q with
    | zero => rfl
    | some => cases h
  | some x y hP => cases Q with
    | zero => cases h
    | some x' y' hQ =>
      simp only [ofGroup_some, affine.injEq] at h
      obtain rfl := Residue.ofZMod_injective h.1
      obtain rfl := Residue.ofZMod_injective h.2
      rfl

@[simp] theorem ofGroup_inj {P Q : CurveGroup} : ofGroup P = ofGroup Q ↔ P = Q :=
  ofGroup_injective.eq_iff

theorem ofGroup_eq_zero {P : CurveGroup} : ofGroup P = 0 ↔ P = 0 :=
  ofGroup_inj (Q := 0)

theorem toZMod_cubic (x : Field) : (cubic x).toZMod = x.toZMod * x.toZMod * x.toZMod + 7 := by
  simp [cubic]

theorem isOnCurve_affine_iff {x y : Field} :
    (affine x y).IsOnCurve ↔ curve.Nonsingular x.toZMod y.toZMod := by
  rw [curve_nonsingular_iff, ← toZMod_cubic, ← Residue.toZMod_mul, Residue.toZMod_inj]
  rfl

/-- The element of the group that a point on the curve is. -/
def toGroup : (p : Point) → p.IsOnCurve → CurveGroup
  | infinity, _ => 0
  | affine x y, h => .some x.toZMod y.toZMod (isOnCurve_affine_iff.mp h)

@[simp] theorem ofGroup_toGroup {p : Point} (h : p.IsOnCurve) : ofGroup (p.toGroup h) = p := by
  cases p with
  | infinity => rfl
  | affine x y => simp [toGroup]

theorem isOnCurve_iff {p : Point} : p.IsOnCurve ↔ ∃ P, ofGroup P = p := by
  constructor
  · intro h
    exact ⟨p.toGroup h, ofGroup_toGroup h⟩
  · rintro ⟨P, rfl⟩
    cases P with
    | zero => trivial
    | some x y h => simpa [isOnCurve_affine_iff] using h

theorem ofGroup_neg (P : CurveGroup) : ofGroup (-P) = -ofGroup P := by
  cases P with
  | zero => rfl
  | some x y h =>
    rw [WeierstrassCurve.Affine.Point.neg_some, ofGroup_some, ofGroup_some]
    change _ = affine _ _
    congr 1
    exact Residue.toZMod_injective (by simp)

theorem along_eq {slope x₁ y₁ x₂ : Field} :
    along slope x₁ y₁ x₂ =
      affine (.ofZMod (curve.addX x₁.toZMod x₂.toZMod slope.toZMod))
        (.ofZMod (curve.addY x₁.toZMod x₂.toZMod y₁.toZMod slope.toZMod)) := by
  rw [curve_addX, curve_addY]
  simp only [along, affine.injEq]
  constructor <;> exact Residue.toZMod_injective (by simp)

theorem toZMod_tangent {x y : ZMod fieldOrder} (hy : y ≠ curve.negY x y) :
    (3 * Residue.ofZMod x * Residue.ofZMod x * (Residue.ofZMod y + Residue.ofZMod y).inv :
      Field).toZMod = curve.slope x x y y := by
  rw [slope_of_Y_ne rfl hy]
  simp [curve]
  ring

theorem toZMod_chord {x₁ y₁ x₂ y₂ : ZMod fieldOrder} (hx : x₁ ≠ x₂) :
    ((Residue.ofZMod y₂ - Residue.ofZMod y₁) *
      (Residue.ofZMod x₂ - Residue.ofZMod x₁).inv : Field).toZMod = curve.slope x₁ x₂ y₁ y₂ := by
  rw [slope_of_X_ne hx, ← neg_div_neg_eq]
  simp [div_eq_mul_inv]

/-- The chord and tangent law is the sum of the group. -/
theorem ofGroup_add (P Q : CurveGroup) : ofGroup (P + Q) = ofGroup P + ofGroup Q := by
  cases P with
  | zero =>
    change ofGroup (0 + Q) = add infinity (ofGroup Q)
    rw [zero_add]
    rfl
  | some x₁ y₁ hP => cases Q with
    | zero =>
      change ofGroup (_ + 0) = add _ infinity
      rw [add_zero]
      rfl
    | some x₂ y₂ hQ =>
      change _ = add (affine _ _) (affine _ _)
      by_cases hx : x₁ = x₂
      · subst hx
        by_cases hy : y₁ = -y₂
        · rw [WeierstrassCurve.Affine.Point.add_of_Y_eq rfl (by simpa using hy)]
          have hnot : ¬(Residue.ofZMod y₁ = Residue.ofZMod y₂ ∧ Residue.ofZMod y₁ ≠ 0) := by
            rintro ⟨heq, hne⟩
            have hsame := Residue.ofZMod_injective heq
            apply hne
            apply Residue.toZMod_injective
            have hdouble : 2 * y₁ = 0 := by linear_combination hy + hsame
            simpa [two_ne_zero_zmod] using hdouble
          simp only [add, if_true, if_neg hnot]
          rfl
        · have hne : y₁ ≠ curve.negY x₁ y₂ := by simpa using hy
          have hsame : y₁ = y₂ := (eq_or_eq_neg_of_nonsingular hP hQ).resolve_right hy
          subst hsame
          have hzero : Residue.ofZMod y₁ ≠ 0 := by
            intro h
            have hy₁ : y₁ = 0 := by simpa using congrArg Residue.toZMod h
            exact hy (by simp [hy₁])
          rw [WeierstrassCurve.Affine.Point.add_of_Y_ne hne, ofGroup_some]
          simp only [add, if_true, hzero, ne_eq, not_false_eq_true, and_self, along_eq,
            toZMod_tangent hne, Residue.toZMod_ofZMod]
      · rw [WeierstrassCurve.Affine.Point.add_of_X_ne hx, ofGroup_some]
        have hne : Residue.ofZMod x₁ ≠ Residue.ofZMod x₂ := by
          simpa [Residue.ofZMod_injective.eq_iff] using hx
        simp only [add, if_neg hne, along_eq, toZMod_chord hx, Residue.toZMod_ofZMod]

theorem ofGroup_sub (P Q : CurveGroup) : ofGroup (P - Q) = ofGroup P - ofGroup Q := by
  rw [sub_eq_add_neg, ofGroup_add, ofGroup_neg]
  rfl

theorem foldl_ofGroup (Ps : List CurveGroup) (P : CurveGroup) :
    (Ps.map ofGroup).foldl (· + ·) (ofGroup P) = ofGroup (P + Ps.sum) := by
  induction Ps generalizing P with
  | nil => simp
  | cons Q Ps ih => rw [List.map_cons, List.foldl_cons, ← ofGroup_add, ih, List.sum_cons, add_assoc]

theorem sum_ofGroup (Ps : List CurveGroup) : sum (Ps.map ofGroup) = ofGroup Ps.sum := by
  rw [sum, ← ofGroup_zero, foldl_ofGroup, zero_add]

end Point

end ConfidentialTx
