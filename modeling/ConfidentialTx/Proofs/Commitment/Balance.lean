import Mathlib
import ConfidentialTx.Proofs.Commitment.Opening

namespace ConfidentialTx.Commitment

variable {positive negative : List Commitment} {c : Commitment}

theorem exists_not_isPoint {cs : List Commitment} (h : ¬∀ c ∈ cs, c.IsPoint) :
    ∃ c ∈ cs, ¬c.IsPoint := by
  push Not at h
  exact h

theorem balance_of_isPoint (hp : ∀ c ∈ positive, c.IsPoint) (hn : ∀ c ∈ negative, c.IsPoint) :
    balance .commit positive negative = true ↔ net positive negative = 0 := by
  simp only [balance, points_of_isPoint hp, points_of_isPoint hn, Point.sum_ofGroup,
    Point.ofGroup_inj, decide_true, Bool.true_and, decide_eq_true_eq, net, sub_eq_zero]

theorem balance_of_not_isPoint (h : ∃ c ∈ positive ++ negative, ¬c.IsPoint) :
    balance .commit positive negative = false := by
  obtain ⟨c, hc, hnot⟩ := h
  rcases List.mem_append.mp hc with hc | hc
  · simp only [balance, points_of_not_isPoint ⟨c, hc, hnot⟩, Bool.and_false]
  · simp only [balance, points_of_not_isPoint ⟨c, hc, hnot⟩]
    cases points positive with
    | ok plus => rfl
    | error e => rfl

theorem balance_eq_true_iff :
    balance .commit positive negative = true ↔
      (∀ c ∈ positive ++ negative, c.IsPoint) ∧ net positive negative = 0 := by
  by_cases hpoints : ∀ c ∈ positive ++ negative, c.IsPoint
  · obtain ⟨hp, hn⟩ := List.forall_mem_append.mp hpoints
    rw [balance_of_isPoint hp hn, and_iff_right hpoints]
  · simp only [balance_of_not_isPoint (exists_not_isPoint hpoints), Bool.false_eq_true, hpoints,
      false_and]

theorem sum_eq_ok_iff :
    sum .commit positive negative = .ok c ↔
      (∀ d ∈ positive ++ negative, d.IsPoint) ∧ c.Encodes (net positive negative) := by
  by_cases hpoints : ∀ d ∈ positive ++ negative, d.IsPoint
  · obtain ⟨hp, hn⟩ := List.forall_mem_append.mp hpoints
    rw [sum_of_isPoint hp hn, ofGroup_eq_ok_iff, and_iff_right hpoints]
  · simp only [sum_of_not_isPoint (exists_not_isPoint hpoints), reduceCtorEq, hpoints, false_and]

/-- There is no sum if a commitment is no point, and else if nothing is left over. -/
theorem sum_eq_error_iff {e : CurveError} :
    sum .commit positive negative = .error e ↔
      (∃ c ∈ positive ++ negative, ¬c.IsPoint) ∧ e = .invalidCommitment ∨
      ((∀ c ∈ positive ++ negative, c.IsPoint) ∧ net positive negative = 0) ∧
        e = .pointAtInfinity := by
  by_cases hpoints : ∀ c ∈ positive ++ negative, c.IsPoint
  · obtain ⟨hp, hn⟩ := List.forall_mem_append.mp hpoints
    rw [sum_of_isPoint hp hn, ofGroup_eq_error_iff, and_iff_right hpoints, or_iff_right]
    rintro ⟨⟨c, hc, hnot⟩, -⟩
    exact hnot (hpoints c hc)
  · have hstray := exists_not_isPoint hpoints
    rw [sum_of_not_isPoint hstray, Except.error.injEq, and_iff_right hstray, or_iff_left, eq_comm]
    exact fun h ↦ hpoints h.1.1

theorem balance_append_iff :
    balance .commit positive (negative ++ [c]) = true ↔
      (∀ d ∈ positive ++ negative, d.IsPoint) ∧ c.Encodes (net positive negative) := by
  rw [balance_eq_true_iff, ← List.append_assoc, List.forall_mem_append, List.forall_mem_singleton,
    and_assoc]
  refine and_congr_right fun _ ↦ ?_
  constructor
  · intro h
    obtain ⟨hc, hnet⟩ := h
    rw [net_append_right _ _ hc.encodes, sub_eq_zero] at hnet
    rw [hnet]
    exact hc.encodes
  · intro h
    exact ⟨⟨_, h⟩, by rw [net_append_right _ _ h, sub_self]⟩

/-- The bare answer is yes where the sum is infinity. The sum is refused where a commitment is no
point, and it is the commitment, itself a point, that makes the two sides balance. -/
theorem balance_iff_sum (positive negative : List Commitment) :
    (balance .commit positive negative = true ↔
      sum .commit positive negative = .error .pointAtInfinity) ∧
    (sum .commit positive negative = .error .invalidCommitment ↔
      ∃ c ∈ positive ++ negative, ¬c.IsPoint) ∧
    ∀ c, sum .commit positive negative = .ok c ↔
      (c.IsPoint ∧ ∀ d ∈ positive ++ negative, d.IsPoint) ∧
        balance .commit positive (negative ++ [c]) = true := by
  refine ⟨?_, ?_, fun c ↦ ?_⟩
  · rw [balance_eq_true_iff, sum_eq_error_iff]
    simp only [reduceCtorEq, and_false, and_true, false_or]
  · rw [sum_eq_error_iff]
    simp only [reduceCtorEq, and_false, and_true, or_false]
  · rw [sum_eq_ok_iff, balance_append_iff]
    constructor
    · intro h
      exact ⟨⟨⟨_, h.2⟩, h.1⟩, h⟩
    · intro h
      exact h.2

end ConfidentialTx.Commitment
