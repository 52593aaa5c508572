import Mathlib
import ConfidentialTx.Proofs.Curve.Prime
import ConfidentialTx.Proofs.Keychain.Program

namespace ConfidentialTx

variable {root : KeyRoot} {names : Identifier → Except KeychainError SecretKey}

def share (names : Identifier → Except KeychainError SecretKey) (id : Identifier) :
    ZMod groupOrder :=
  match names id with
  | .ok key => key.scalar.toZMod
  | .error _ => 0

theorem share_of_names {id : Identifier} {key : SecretKey} (h : names id = .ok key) :
    share names id = key.scalar.toZMod := by
  rw [share, h]

theorem BlindingFactor.toSecretKey_of_scalar (key : SecretKey) :
    (BlindingFactor.mk key.scalar).toSecretKey = .ok key := by
  rw [toSecretKey, SecretKey.ofScalar?_scalar]

theorem BlindingFactor.scalar_of_toSecretKey {blind : BlindingFactor} {key : SecretKey}
    (h : blind.toSecretKey = .ok key) : key.scalar = blind.scalar := by
  by_cases hzero : blind.scalar = 0
  · have hnone : SecretKey.ofScalar? blind.scalar = none := dif_pos hzero
    rw [toSecretKey, hnone] at h
    cases h
  · have hsome : SecretKey.ofScalar? blind.scalar = some ⟨blind.scalar, hzero⟩ := dif_neg hzero
    rw [toSecretKey, hsome] at h
    cases h
    rfl

namespace BlindSum

def Resolved (names : Identifier → Except KeychainError SecretKey) (sum : BlindSum) : Prop :=
  ∀ id ∈ sum.positiveKeyIds ++ sum.negativeKeyIds, ∃ key, names id = .ok key

def total (names : Identifier → Except KeychainError SecretKey) (sum : BlindSum) :
    ZMod groupOrder :=
  ((sum.positiveKeyIds.map (share names)).sum +
      (sum.positiveFactors.map fun b ↦ b.scalar.toZMod).sum) -
    ((sum.negativeKeyIds.map (share names)).sum +
      (sum.negativeFactors.map fun b ↦ b.scalar.toZMod).sum)

end BlindSum

namespace Keychain

theorem answer_secretKeys {ids : List Identifier} (h : ∀ id ∈ ids, ∃ key, names id = .ok key) :
    ∃ keys, (secretKeys ids).answer root names = .ok keys ∧
      (keys.map fun key ↦ key.scalar.toZMod) = ids.map (share names) := by
  induction ids with
  | nil => exact ⟨[], rfl, rfl⟩
  | cons id ids ih =>
    obtain ⟨⟨key, hkey⟩, hids⟩ := List.forall_mem_cons.mp h
    obtain ⟨keys, hkeys, hmap⟩ := ih hids
    refine ⟨key :: keys, ?_, ?_⟩
    · simp only [secretKeys, Keyed.answer_bind, Keyed.answer_secretKey, hkey, hkeys]
      rfl
    · simp only [List.map_cons, hmap, share, hkey]

theorem toZMod_foldl_add (keys : List SecretKey) (a : Scalar) :
    ((keys.map SecretKey.scalar).foldl (· + ·) a).toZMod =
      a.toZMod + (keys.map fun key ↦ key.scalar.toZMod).sum := by
  induction keys generalizing a with
  | nil => simp
  | cons key keys ih =>
    rw [List.map_cons, List.foldl_cons, ih, Residue.toZMod_add, List.map_cons, List.sum_cons,
      add_assoc]

theorem toZMod_blindSum (positive negative : List SecretKey) :
    (SecretKey.blindSum positive negative).toZMod =
      (positive.map fun key ↦ key.scalar.toZMod).sum -
        (negative.map fun key ↦ key.scalar.toZMod).sum := by
  rw [SecretKey.blindSum, Residue.toZMod_sub, toZMod_foldl_add, toZMod_foldl_add,
    Residue.toZMod_zero, zero_add, zero_add]

/-- Factors that are zero are left out, and add nothing. -/
theorem sum_factors (bs : List BlindingFactor) :
    ((bs.filterMap fun b ↦ SecretKey.ofScalar? b.scalar).map fun key ↦ key.scalar.toZMod).sum =
      (bs.map fun b ↦ b.scalar.toZMod).sum := by
  induction bs with
  | nil => rfl
  | cons b bs ih =>
    rw [List.map_cons, List.sum_cons, ← ih]
    by_cases hb : b.scalar = 0
    · have hnone : SecretKey.ofScalar? b.scalar = none := dif_pos hb
      rw [List.filterMap_cons, hnone, hb, Residue.toZMod_zero, zero_add]
    · have hsome : SecretKey.ofScalar? b.scalar = some ⟨b.scalar, hb⟩ := dif_neg hb
      rw [List.filterMap_cons, hsome, List.map_cons, List.sum_cons]

theorem answer_blindSum {sum : BlindSum} (h : sum.Resolved names) :
    (blindSum sum).answer root names = .ok ⟨.ofZMod (sum.total names)⟩ := by
  obtain ⟨hpos, hneg⟩ := List.forall_mem_append.mp h
  obtain ⟨positive, hpositive, hposmap⟩ := @answer_secretKeys root names _ hpos
  obtain ⟨negative, hnegative, hnegmap⟩ := @answer_secretKeys root names _ hneg
  simp only [blindSum, Keyed.answer_bind, hpositive, hnegative]
  change Except.ok _ = _
  congr 2
  apply Residue.toZMod_injective
  rw [toZMod_blindSum, Residue.toZMod_ofZMod, List.map_append, List.map_append, List.sum_append,
    List.sum_append, hposmap, hnegmap, sum_factors, sum_factors, BlindSum.total]

end Keychain

end ConfidentialTx
