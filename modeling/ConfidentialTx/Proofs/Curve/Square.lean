import Mathlib
import ConfidentialTx.Proofs.Curve.Prime

namespace ConfidentialTx

section

variable {p : ℕ} [Fact p.Prime]

theorem isSquare_neg_iff (hp : p % 4 = 3) {y : ZMod p} (hy : y ≠ 0) :
    IsSquare (-y) ↔ ¬IsSquare y := by
  have hodd : Odd (p / 2) := Nat.odd_iff.mpr (by omega)
  have hcard : ringChar (ZMod p) ≠ 2 := by
    rw [ZMod.ringChar_zmod_n]
    omega
  rw [ZMod.euler_criterion p hy, ZMod.euler_criterion p (neg_ne_zero.mpr hy), hodd.neg_pow]
  have hone : (-1 : ZMod p) ≠ 1 := Ring.neg_one_ne_one_of_char_ne_two hcard
  rcases ZMod.pow_div_two_eq_neg_one_or_one p hy with h | h
  · simpa [h] using hone
  · simpa [h] using hone

theorem pow_quarter (hp : p % 4 = 3) {y : ZMod p} (hy : IsSquare y) :
    (y * y) ^ ((p + 1) / 4) = y := by
  obtain ⟨z, rfl⟩ := hy
  by_cases hz : z = 0
  · rw [hz, mul_zero, mul_zero, zero_pow (by omega)]
  · have hexp : p + 1 = 4 * ((p + 1) / 4) := by omega
    have hpow : (z * z * (z * z)) ^ ((p + 1) / 4) = z ^ (p + 1) := by
      rw [hexp, Nat.mul_div_cancel_left _ (by decide), pow_mul]
      congr 1
      ring
    have hfermat : z ^ (p + 1) = z ^ (p - 1) * (z * z) := by
      rw [← sq, ← pow_add]
      congr 1
      have := (Fact.out : p.Prime).two_le
      omega
    rw [hpow, hfermat, ZMod.pow_card_sub_one_eq_one hz, one_mul]

end

theorem fieldOrder_mod_four : fieldOrder % 4 = 3 := by decide

namespace Field

theorem sqrt?_eq_some_iff {a r : Field} :
    a.sqrt? = some r ↔ r * r = a ∧ IsSquare r.toZMod := by
  have hroot : (a.pow 256 ((fieldOrder + 1) / 4)).toZMod = a.toZMod ^ ((fieldOrder + 1) / 4) := by
    rw [Residue.toZMod_pow, Nat.mod_eq_of_lt (by decide)]
  simp only [sqrt?]
  constructor
  · intro h
    split at h
    · rename_i hsq
      cases h
      refine ⟨hsq, ?_⟩
      have heven : (fieldOrder + 1) / 4 = 2 * ((fieldOrder + 1) / 8) := by decide
      rw [hroot, heven, pow_mul']
      exact ⟨_, sq _⟩
    · cases h
  · rintro ⟨rfl, hr⟩
    have heq : (r * r).pow 256 ((fieldOrder + 1) / 4) = r := by
      apply Residue.toZMod_injective
      rw [Residue.toZMod_pow, Nat.mod_eq_of_lt (by decide), Residue.toZMod_mul,
        pow_quarter fieldOrder_mod_four hr]
    simp [heq]

theorem exists_sqrt? {a : Field} (h : IsSquare a.toZMod) : ∃ r, a.sqrt? = some r := by
  obtain ⟨y, hy⟩ := h
  have hroot : IsSquare y ∨ IsSquare (-y) := by
    by_cases hzero : y = 0
    · exact Or.inl ⟨0, by simp [hzero]⟩
    · rw [isSquare_neg_iff fieldOrder_mod_four hzero]
      exact em _
  rcases hroot with hr | hr
  · refine ⟨.ofZMod y, sqrt?_eq_some_iff.mpr ⟨?_, by simpa using hr⟩⟩
    exact Residue.toZMod_injective (by simp [hy])
  · refine ⟨.ofZMod (-y), sqrt?_eq_some_iff.mpr ⟨?_, by simpa using hr⟩⟩
    exact Residue.toZMod_injective (by simp [hy])

theorem isSquare_iff {a : Field} : a.isSquare ↔ IsSquare a.toZMod := by
  unfold isSquare
  rw [Option.isSome_iff_exists]
  constructor
  · rintro ⟨r, hr⟩
    obtain ⟨rfl, -⟩ := sqrt?_eq_some_iff.mp hr
    exact ⟨r.toZMod, Residue.toZMod_mul r r⟩
  · exact exists_sqrt?

end Field

end ConfidentialTx
