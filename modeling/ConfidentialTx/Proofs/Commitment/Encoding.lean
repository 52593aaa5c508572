import Mathlib
import ConfidentialTx.Commitment
import ConfidentialTx.Proofs.Curve.Order

namespace ConfidentialTx

open WeierstrassCurve.Affine

namespace Field

theorem toNat_toBytes (a : Field) : a.toBytes.toNat = a.val := by
  rw [toBytes, FixedBytes.toNat_ofNat, Nat.mod_eq_of_lt (a.val_lt.trans (by decide))]

theorem ofBytes?_eq_some_iff {b : FixedBytes 32} {a : Field} : ofBytes? b = some a ↔ b = a.toBytes := by
  constructor
  · intro h
    unfold ofBytes? at h
    split at h
    · cases h
      exact (FixedBytes.ofNat_toNat b).symm
    · cases h
  · rintro rfl
    simp [ofBytes?, toNat_toBytes, a.val_lt]

@[simp] theorem ofBytes?_toBytes (a : Field) : ofBytes? a.toBytes = some a :=
  ofBytes?_eq_some_iff.mpr rfl

end Field

namespace Point

theorem ofSquareY?_eq_some_iff {x : Field} {p : Point} :
    ofSquareY? x = some p ↔
      ∃ y : Field, p = affine x y ∧ (affine x y).IsOnCurve ∧ IsSquare y.toZMod := by
  simp only [ofSquareY?, Option.map_eq_some_iff, Field.sqrt?_eq_some_iff, IsOnCurve]
  constructor
  · rintro ⟨y, ⟨hy, hsq⟩, rfl⟩
    exact ⟨y, rfl, hy, hsq⟩
  · rintro ⟨y, rfl, hy, hsq⟩
    exact ⟨y, ⟨hy, hsq⟩, rfl⟩

theorem isOnCurve_neg {p : Point} (h : p.IsOnCurve) : (-p).IsOnCurve := by
  obtain ⟨P, rfl⟩ := isOnCurve_iff.mp h
  exact isOnCurve_iff.mpr ⟨-P, ofGroup_neg P⟩

theorem isSquare_neg_of_isOnCurve {x y : Field} (h : (affine x y).IsOnCurve) :
    IsSquare (-y).toZMod ↔ ¬IsSquare y.toZMod := by
  rw [Residue.toZMod_neg]
  exact isSquare_neg_iff fieldOrder_mod_four (CurveGroup.y_ne_zero (isOnCurve_affine_iff.mp h))

theorem exists_ofSquareY? {x y : Field} (h : (affine x y).IsOnCurve) :
    (ofSquareY? x).map (fun p ↦ if y.isSquare then p else -p) = some (affine x y) := by
  by_cases hsq : IsSquare y.toZMod
  · have hp : ofSquareY? x = some (affine x y) := ofSquareY?_eq_some_iff.mpr ⟨y, rfl, h, hsq⟩
    simp [hp, Field.isSquare_iff.mpr hsq]
  · have hneg : IsSquare (-y).toZMod := (isSquare_neg_of_isOnCurve h).mpr hsq
    have hp : ofSquareY? x = some (affine x (-y)) :=
      ofSquareY?_eq_some_iff.mpr ⟨-y, rfl, isOnCurve_neg h, hneg⟩
    have hfalse : y.isSquare = false := Bool.eq_false_iff.mpr (Field.isSquare_iff.not.mpr hsq)
    have hback : - -y = y := Residue.toZMod_injective (by simp)
    rw [hp, hfalse]
    change some (affine x (- -y)) = _
    rw [hback]

end Point

namespace Commitment

/-- The commitment is the encoding of the element. -/
def Encodes (c : Commitment) (P : CurveGroup) : Prop := ofPoint? (.ofGroup P) = some c

theorem not_encodes_zero (c : Commitment) : ¬c.Encodes 0 := by
  intro h
  cases h

theorem exists_encodes {P : CurveGroup} (hP : P ≠ 0) : ∃ c : Commitment, c.Encodes P := by
  cases P with
  | zero => exact absurd rfl hP
  | some x y h => exact ⟨_, rfl⟩

theorem toPoint?_of_encodes {c : Commitment} {P : CurveGroup} (h : c.Encodes P) :
    c.toPoint? = some (.ofGroup P) := by
  cases P with
  | zero => cases h
  | some x y hP =>
    have hon : (Point.affine (.ofZMod x) (.ofZMod y)).IsOnCurve := by
      rw [Point.isOnCurve_affine_iff]
      simpa using hP
    have hread := Point.exists_ofSquareY? hon
    simp only [Encodes, Point.ofGroup_some, ofPoint?, Option.some.injEq] at h
    subst h
    rw [Point.ofGroup_some, ← hread]
    cases hsq : Field.isSquare (.ofZMod y) with
    | true => simp [toPoint?]
    | false => simp [toPoint?]

theorem encodes_of_toPoint? {c : Commitment} {p : Point} (h : c.toPoint? = some p) :
    ∃ P, Point.ofGroup P = p ∧ c.Encodes P := by
  unfold toPoint? at h
  split at h
  · cases h
  · rename_i head rest hbytes
    split at h
    · rename_i hhead
      obtain ⟨x, hx, h⟩ := Option.bind_eq_some_iff.mp h
      obtain ⟨q, hq, rfl⟩ := Option.map_eq_some_iff.mp h
      obtain ⟨y, rfl, hon, hsq⟩ := Point.ofSquareY?_eq_some_iff.mp hq
      have hlen : rest.length = 32 := by
        have := c.bytes.length_toList
        rw [hbytes] at this
        simpa using this
      have hrest : x.toBytes.toList = rest := by
        rw [← Field.ofBytes?_eq_some_iff.mp hx, FixedBytes.toList_fit hlen]
      have hencode (z : Field) (hz : (if z.isSquare then 8 else 9) = head) :
          ofPoint? (.affine x z) = some c := by
        obtain ⟨⟨bytes, hbl⟩⟩ := c
        simp only at hbytes
        subst hbytes
        simp [ofPoint?, hz, hrest]
      rcases hhead with rfl | rfl
      · obtain ⟨P, hP⟩ := Point.isOnCurve_iff.mp hon
        refine ⟨P, by simpa using hP, ?_⟩
        rw [Encodes, hP]
        exact hencode y (by simp [Field.isSquare_iff.mpr hsq])
      · obtain ⟨P, hP⟩ := Point.isOnCurve_iff.mp (Point.isOnCurve_neg hon)
        refine ⟨P, by simpa using hP, ?_⟩
        have hneg : (-y).isSquare = false := by
          rw [Bool.eq_false_iff, ne_eq, Field.isSquare_iff, Point.isSquare_neg_of_isOnCurve hon]
          exact fun h ↦ h hsq
        rw [Encodes, hP]
        exact hencode (-y) (by simp [hneg])
    · cases h

theorem toPoint?_eq_some_iff {c : Commitment} {p : Point} :
    c.toPoint? = some p ↔ ∃ P, Point.ofGroup P = p ∧ c.Encodes P := by
  constructor
  · exact encodes_of_toPoint?
  · rintro ⟨P, rfl, h⟩
    exact toPoint?_of_encodes h

theorem Encodes.injective {c : Commitment} {P Q : CurveGroup} (hP : c.Encodes P)
    (hQ : c.Encodes Q) : P = Q := by
  have h := (toPoint?_of_encodes hP).symm.trans (toPoint?_of_encodes hQ)
  exact Point.ofGroup_inj.mp (Option.some.inj h)

def IsPoint (c : Commitment) : Prop := ∃ P, c.Encodes P

open Classical in
/-- The element that a commitment encodes, and zero if there is none. -/
noncomputable def element (c : Commitment) : CurveGroup :=
  if h : c.IsPoint then h.choose else 0

theorem IsPoint.encodes {c : Commitment} (h : c.IsPoint) : c.Encodes c.element := by
  rw [element, dif_pos h]
  exact h.choose_spec

theorem Encodes.element_eq {c : Commitment} {P : CurveGroup} (h : c.Encodes P) : c.element = P :=
  IsPoint.encodes ⟨P, h⟩ |>.injective h

theorem toPoint_of_isPoint {c : Commitment} (h : c.IsPoint) :
    c.toPoint = .ok (.ofGroup c.element) := by
  rw [toPoint, toPoint?_of_encodes h.encodes]

theorem toPoint_of_not_isPoint {c : Commitment} (h : ¬c.IsPoint) :
    c.toPoint = .error .invalidCommitment := by
  unfold toPoint
  split
  · rename_i p hp
    obtain ⟨P, -, hP⟩ := encodes_of_toPoint? hp
    exact absurd ⟨P, hP⟩ h
  · rfl

theorem isPoint_of_toPoint {c : Commitment} {p : Point} (h : c.toPoint = .ok p) :
    c.IsPoint ∧ Point.ofGroup c.element = p := by
  by_cases hc : c.IsPoint
  · rw [toPoint_of_isPoint hc] at h
    exact ⟨hc, Except.ok.inj h⟩
  · rw [toPoint_of_not_isPoint hc] at h
    cases h

def ofGroup (P : CurveGroup) : Except CurveError Commitment := ofPoint (.ofGroup P)

theorem ofGroup_zero : ofGroup 0 = .error .pointAtInfinity := rfl

theorem ofGroup_eq_ok_iff {P : CurveGroup} {c : Commitment} :
    ofGroup P = .ok c ↔ c.Encodes P := by
  unfold ofGroup ofPoint Encodes
  cases ofPoint? (.ofGroup P) <;> simp

theorem ofGroup_eq_error_iff {P : CurveGroup} {e : CurveError} :
    ofGroup P = .error e ↔ P = 0 ∧ e = .pointAtInfinity := by
  constructor
  · intro h
    by_cases hP : P = 0
    · rw [hP, ofGroup_zero] at h
      cases h
      exact ⟨hP, rfl⟩
    · obtain ⟨c, hc⟩ := exists_encodes hP
      rw [ofGroup_eq_ok_iff.mpr hc] at h
      cases h
  · rintro ⟨rfl, rfl⟩
    exact ofGroup_zero

end Commitment

end ConfidentialTx
