import Mathlib
import ConfidentialTx.Proofs.Commitment.Opening
import ConfidentialTx.Proofs.Keychain.Blinding

namespace ConfidentialTx

namespace Opening

def ofKey (o : UInt64 × SecretKey) : Opening := ⟨o.1, o.2.scalar⟩

theorem totalValue_ofKey (os : List (UInt64 × SecretKey)) :
    totalValue (os.map ofKey) = (os.map fun o ↦ (o.1.toNat : ℤ)).sum := by
  rw [totalValue, List.map_map]
  rfl

theorem totalBlind_ofKey (os : List (UInt64 × SecretKey)) :
    totalBlind (os.map ofKey) =
      ((os.map Prod.snd).map fun key ↦ key.scalar.toZMod).sum := by
  rw [totalBlind, List.map_map, List.map_map]
  rfl

theorem totalBlind_sub (positive negative : List (UInt64 × SecretKey)) :
    totalBlind (positive.map ofKey) - totalBlind (negative.map ofKey) =
      (SecretKey.blindSum (positive.map Prod.snd) (negative.map Prod.snd)).toZMod := by
  rw [Keychain.toZMod_blindSum, totalBlind_ofKey, totalBlind_ofKey]

end Opening

namespace Commitment

theorem exists_commit {v : UInt64} {key : SecretKey} (h : Point.pedersen v key.scalar ≠ 0) :
    ∃ c, commit .commit v key = .ok c ∧ c.Opens ⟨v, key.scalar⟩ := by
  rw [Point.pedersen_eq, ne_eq, Point.ofGroup_eq_zero] at h
  obtain ⟨c, hc⟩ := exists_encodes h
  exact ⟨c, commit_eq_ok_iff.mpr hc, hc⟩

theorem exists_commits {os : List (UInt64 × SecretKey)}
    (h : ∀ o ∈ os, Point.pedersen o.1 o.2.scalar ≠ 0) :
    ∃ cs, os.mapM (fun o ↦ commit .commit o.1 o.2) = .ok cs ∧
      List.Forall₂ Opens cs (os.map Opening.ofKey) := by
  induction os with
  | nil => exact ⟨[], rfl, .nil⟩
  | cons o os ih =>
    obtain ⟨ho, hos⟩ := List.forall_mem_cons.mp h
    obtain ⟨c, hcommit, hc⟩ := exists_commit ho
    obtain ⟨cs, hcommits, hcs⟩ := ih hos
    refine ⟨c :: cs, ?_, .cons hc hcs⟩
    rw [List.mapM_cons, hcommit, hcommits]
    rfl

theorem sum_eq_net {positive negative : List Commitment} {outs ins : List Opening}
    (hout : List.Forall₂ Opens positive outs) (hin : List.Forall₂ Opens negative ins) :
    sum .commit positive negative = ofGroup (Opening.net outs ins 0) := by
  rw [sum_of_isPoint (isPoint_of_opens hout) (isPoint_of_opens hin), net_of_opens hout hin]

/-- What the commitments to openings under keys leave, when the values leave a 64-bit value. Without a
blinding factor it is that value in the clear, and without either it is nothing. -/
theorem sum_commits {positive negative : List (UInt64 × SecretKey)} {v : UInt64} {r : Scalar}
    (hpoint : ∀ o ∈ positive ++ negative, Point.pedersen o.1 o.2.scalar ≠ 0)
    (hv : (positive.map fun o ↦ (o.1.toNat : ℤ)).sum -
      (negative.map fun o ↦ (o.1.toNat : ℤ)).sum = v.toNat)
    (hr : SecretKey.blindSum (positive.map Prod.snd) (negative.map Prod.snd) = r) :
    ∃ plus minus, positive.mapM (fun o ↦ commit .commit o.1 o.2) = .ok plus ∧
      negative.mapM (fun o ↦ commit .commit o.1 o.2) = .ok minus ∧
      (∀ hne : r ≠ 0, Point.pedersen v r ≠ 0 →
        ∃ c, sum .commit plus minus = .ok c ∧ commit .commit v ⟨r, hne⟩ = .ok c) ∧
      (r = 0 → 0 < v → ∃ c, sum .commit plus minus = .ok c ∧ commitValue .commit v = .ok c) ∧
      (r = 0 → v = 0 → sum .commit plus minus = .error .pointAtInfinity) := by
  obtain ⟨hpositive, hnegative⟩ := List.forall_mem_append.mp hpoint
  obtain ⟨plus, hplus, hout⟩ := exists_commits hpositive
  obtain ⟨minus, hminus, hin⟩ := exists_commits hnegative
  have hsum : sum .commit plus minus = ofGroup (.opening v.toNat r.toZMod) := by
    rw [sum_eq_net hout hin, Opening.net, Opening.totalBlind_sub, hr, Opening.totalValue_ofKey,
      Opening.totalValue_ofKey, hv, add_zero, Int.cast_natCast]
  refine ⟨plus, minus, hplus, hminus, ?_, ?_, ?_⟩
  · intro hne hinfinity
    obtain ⟨c, hcommit, hc⟩ := @exists_commit v ⟨r, hne⟩ hinfinity
    exact ⟨c, by rw [hsum, ofGroup_eq_ok_iff]; exact hc, hcommit⟩
  · intro hzero hpos
    obtain ⟨c, hcommit, -⟩ := exists_encodes_value (UInt64.lt_iff_toNat_lt.mp hpos) v.toNat_lt
    rw [UInt64.ofNat_toNat] at hcommit
    refine ⟨c, ?_, hcommit⟩
    rw [hsum, hzero, Residue.toZMod_zero, ← commitValue_eq, hcommit]
  · intro hzero hv₀
    rw [hsum, hzero, hv₀, Residue.toZMod_zero, UInt64.toNat_zero, Nat.cast_zero,
      CurveGroup.opening_zero, ofGroup_zero]

/-- Five units stay under a key, ten in the clear, and nothing at all. -/
theorem sum_commits_cases :
    let one : SecretKey := ⟨1, by decide⟩
    let three : SecretKey := ⟨3, by decide⟩
    (∃ plus minus c, [((7 : UInt64), three)].mapM (fun o ↦ commit .commit o.1 o.2) = .ok plus ∧
      [((2 : UInt64), one)].mapM (fun o ↦ commit .commit o.1 o.2) = .ok minus ∧
      sum .commit plus minus = .ok c ∧ commit .commit 5 ⟨2, by decide⟩ = .ok c) ∧
    (∃ plus minus c, [((12 : UInt64), three)].mapM (fun o ↦ commit .commit o.1 o.2) = .ok plus ∧
      [((2 : UInt64), three)].mapM (fun o ↦ commit .commit o.1 o.2) = .ok minus ∧
      sum .commit plus minus = .ok c ∧ commitValue .commit 10 = .ok c) ∧
    ∃ plus minus, [((7 : UInt64), three)].mapM (fun o ↦ commit .commit o.1 o.2) = .ok plus ∧
      [((7 : UInt64), three)].mapM (fun o ↦ commit .commit o.1 o.2) = .ok minus ∧
      sum .commit plus minus = .error .pointAtInfinity := by
  intro one three
  refine ⟨?_, ?_, ?_⟩
  · obtain ⟨plus, minus, hplus, hminus, hsum, -⟩ :=
      @sum_commits [(7, three)] [(2, one)] 5 2 (by decide +kernel) (by decide) (by decide)
    obtain ⟨c, hc, hcommit⟩ := hsum (by decide) (by decide +kernel)
    exact ⟨plus, minus, c, hplus, hminus, hc, hcommit⟩
  · obtain ⟨plus, minus, hplus, hminus, -, hsum, -⟩ :=
      @sum_commits [(12, three)] [(2, three)] 10 0 (by decide +kernel) (by decide) (by decide)
    obtain ⟨c, hc, hcommit⟩ := hsum rfl (by decide)
    exact ⟨plus, minus, c, hplus, hminus, hc, hcommit⟩
  · obtain ⟨plus, minus, hplus, hminus, -, -, hsum⟩ :=
      @sum_commits [(7, three)] [(7, three)] 0 0 (by decide +kernel) (by decide) (by decide)
    exact ⟨plus, minus, hplus, hminus, hsum rfl rfl⟩

end Commitment

end ConfidentialTx
