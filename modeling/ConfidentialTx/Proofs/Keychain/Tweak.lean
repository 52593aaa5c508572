import Mathlib
import ConfidentialTx.Proofs.Bytewise.Checks
import ConfidentialTx.Proofs.Keychain.Blinding
import ConfidentialTx.Proofs.Keychain.Derivation

namespace ConfidentialTx

theorem Bytes.lt_iff_toNat_lt {a b : Bytes} (h : a.length = b.length) :
    a < b ↔ a.toNat < b.toNat := by
  induction a generalizing b with
  | nil =>
    obtain rfl := List.length_eq_zero_iff.mp h.symm
    exact iff_of_false (List.not_lt_nil []) (Nat.not_lt_zero 0)
  | cons x a ih =>
    cases b with
    | nil => cases h
    | cons y b =>
      have hlength : a.length = b.length := Nat.succ.inj h
      have ha := toNat_lt a
      have hb := toNat_lt b
      rw [hlength] at ha
      rw [List.cons_lt_cons_iff, ih hlength, toNat_cons, toNat_cons, hlength, UInt8.lt_iff_toNat_lt,
        ← UInt8.toNat_inj]
      generalize Nat.pow 256 b.length = weight at ha hb ⊢
      have hdigit {m n : Nat} (hmn : m < n) : weight * m + weight ≤ weight * n := by
        rw [← Nat.mul_succ]
        exact Nat.mul_le_mul_left weight hmn
      constructor
      · rintro (hlt | ⟨heq, hlt⟩)
        · have := hdigit hlt
          omega
        · rw [heq]
          omega
      · intro hlt
        rcases Nat.lt_trichotomy x.toNat y.toNat with hxy | hxy | hxy
        · exact .inl hxy
        · rw [hxy] at hlt
          exact .inr ⟨hxy, by omega⟩
        · have := hdigit hxy
          omega

theorem scalarInRange_iff {b : FixedBytes 32} : scalarInRange b = true ↔ b.toNat < groupOrder := by
  unfold scalarInRange Scalar.ofBytes?
  split
  · rename_i hlt
    exact iff_of_true rfl hlt
  · rename_i hlt
    exact iff_of_false Bool.false_ne_true hlt

/-- The order as the bytes that others are compared with. -/
def groupOrderBytes : FixedBytes 32 :=
  .ofNat groupOrder

theorem toNat_groupOrderBytes : groupOrderBytes.toNat = groupOrder := by
  rw [groupOrderBytes, FixedBytes.toNat_ofNat]
  exact Nat.mod_eq_of_lt (by decide)

theorem lt_groupOrderBytes_iff {b : FixedBytes 32} :
    b.toList < groupOrderBytes.toList ↔ b.toNat < groupOrder := by
  rw [Bytes.lt_iff_toNat_lt (b.length_toList.trans groupOrderBytes.length_toList.symm)]
  exact iff_of_eq (congrArg (b.toNat < ·) toNat_groupOrderBytes)

namespace SecretKey

variable {key t u : SecretKey} {tweak : FixedBytes 32}

theorem blindSum_pair (key t : SecretKey) : blindSum [key, t] [] = key.scalar + t.scalar := by
  apply Residue.toZMod_injective
  rw [Keychain.toZMod_blindSum, Residue.toZMod_add]
  simp

theorem val_blindSum_pair (key t : SecretKey) :
    (blindSum [key, t] []).val = (key.scalar.val + t.toBytes.toNat) % groupOrder := by
  rw [blindSum_pair, Residue.val_add, toBytes, Scalar.toNat_toBytes]

theorem blindSum_sub_of_eq (h : u.scalar = blindSum [key, t] []) :
    blindSum [u] [t] = key.scalar := by
  apply Residue.toZMod_injective
  rw [Keychain.toZMod_blindSum, List.map_singleton, h, blindSum_pair, Residue.toZMod_add]
  simp

theorem toBytes_injective : Function.Injective toBytes := by
  intro key t h
  apply SecretKey.ext
  apply Residue.ext
  rw [← Scalar.toNat_toBytes, ← Scalar.toNat_toBytes]
  exact congrArg FixedBytes.toNat h

theorem exists_toBytes_eq (hlt : tweak.toNat < groupOrder) (hne : tweak ≠ .zero) :
    ∃ t : SecretKey, t.toBytes = tweak := by
  have hbytes : Scalar.toBytes ⟨tweak.toNat, hlt⟩ = tweak := FixedBytes.ofNat_toNat tweak
  refine ⟨⟨⟨tweak.toNat, hlt⟩, fun h ↦ hne ?_⟩, hbytes⟩
  rw [← hbytes, h, Bytewise.toBytes_zero]

theorem tweakAdd_of_sum_eq_zero (h : blindSum [key, t] [] = 0) :
    key.tweakAdd t.toBytes = .error .invalidSecretKey := by
  rw [blindSum_pair] at h
  simp only [tweakAdd, toBytes, Scalar.ofBytes?_toBytes, Option.bind_some, ofScalar?, h, dif_pos]

theorem tweakAdd_of_sum_ne_zero (h : blindSum [key, t] [] ≠ 0) :
    key.tweakAdd t.toBytes = .ok ⟨blindSum [key, t] [], h⟩ := by
  have hsum : key.scalar + t.scalar ≠ 0 := blindSum_pair key t ▸ h
  simp only [tweakAdd, toBytes, Scalar.ofBytes?_toBytes, Option.bind_some, ofScalar?, dif_neg hsum,
    blindSum_pair]

theorem tweakAdd_eq_error_iff :
    key.tweakAdd t.toBytes = .error .invalidSecretKey ↔ blindSum [key, t] [] = 0 := by
  constructor
  · intro herror
    by_contra h
    rw [tweakAdd_of_sum_ne_zero h] at herror
    cases herror
  · exact tweakAdd_of_sum_eq_zero

theorem scalar_of_tweakAdd (h : key.tweakAdd t.toBytes = .ok u) :
    u.scalar = blindSum [key, t] [] := by
  by_cases hzero : blindSum [key, t] [] = 0
  · rw [tweakAdd_of_sum_eq_zero hzero] at h
    cases h
  · rw [tweakAdd_of_sum_ne_zero hzero] at h
    cases h
    rfl

theorem tweakAdd_zero (key : SecretKey) : key.tweakAdd .zero = .ok key := by
  have hsum : key.scalar + 0 = key.scalar := by
    apply Residue.toZMod_injective
    rw [Residue.toZMod_add, Residue.toZMod_zero, add_zero]
  rw [← Bytewise.toBytes_zero, tweakAdd, Scalar.ofBytes?_toBytes, Option.bind_some, hsum,
    ofScalar?_scalar]

/-- A tweak that is not below the order is refused, and zero leaves the key as it is. Any other is a
key itself, and the tweaked key is the sum of both unless that is zero; the tweak taken off again
leaves the key. Being below the order is being less byte by byte. -/
theorem tweakAdd_agrees_blindSum (key : SecretKey) (tweak : FixedBytes 32) :
    (groupOrder ≤ tweak.toNat → key.tweakAdd tweak = .error .invalidSecretKey) ∧
    (tweak = .zero → key.tweakAdd tweak = .ok key) ∧
    (tweak.toNat < groupOrder → tweak ≠ .zero → ∃ t : SecretKey, t.toBytes = tweak ∧
      Bytewise.Context.blindSum [key.toBytes, tweak] [] =
        .ofExcept (.ok (blindSum [key, t] []).toBytes) ∧
      (blindSum [key, t] []).val = (key.scalar.val + tweak.toNat) % groupOrder ∧
      (key.tweakAdd tweak = .error .invalidSecretKey ↔ (blindSum [key, t] []).toBytes = .zero) ∧
      ((blindSum [key, t] []).toBytes ≠ .zero →
        ∃ u, key.tweakAdd tweak = .ok u ∧ u.toBytes = (blindSum [key, t] []).toBytes) ∧
      ∀ u, key.tweakAdd tweak = .ok u →
        (blindSum [u] [t]).toBytes = key.toBytes ∧
        Bytewise.Context.blindSum [u.toBytes] [tweak] = .ofExcept (.ok key.toBytes)) ∧
    (scalarInRange tweak = true ↔ tweak.toList < groupOrderBytes.toList) ∧
    (scalarInRange tweak = true ↔ tweak.toNat < groupOrder) := by
  refine ⟨fun h ↦ tweakAdd_of_not (.inl h), ?_, fun hlt hne ↦ ?_,
    scalarInRange_iff.trans lt_groupOrderBytes_iff.symm, scalarInRange_iff⟩
  · rintro rfl
    exact tweakAdd_zero key
  · obtain ⟨t, rfl⟩ := exists_toBytes_eq hlt hne
    refine ⟨t, rfl, Bytewise.Context.blindSum_toBytes [key, t] [], val_blindSum_pair key t, ?_,
      fun hsum ↦ ?_, fun u hu ↦ ?_⟩
    · rw [tweakAdd_eq_error_iff, Bytewise.toBytes_eq_zero_iff]
    · have hsum := mt Bytewise.toBytes_eq_zero_iff.mpr hsum
      exact ⟨_, tweakAdd_of_sum_ne_zero hsum, rfl⟩
    · have hback : (blindSum [u] [t]).toBytes = key.toBytes :=
        congrArg Scalar.toBytes (blindSum_sub_of_eq (scalar_of_tweakAdd hu))
      refine ⟨hback, ?_⟩
      rw [← hback]
      exact Bytewise.Context.blindSum_toBytes [u] [t]

/-- One more than the largest key is no key, and one more than one is two, from which one is left.
The order itself is no tweak, and zero changes nothing. -/
theorem tweakAdd_agrees_blindSum_one :
    let one : SecretKey := ⟨1, by decide⟩
    let largest : SecretKey := ⟨-1, by decide⟩
    largest.tweakAdd groupOrderBytes = .error .invalidSecretKey ∧
    largest.tweakAdd .zero = .ok largest ∧
    largest.tweakAdd one.toBytes = .error .invalidSecretKey ∧
    ∃ u : SecretKey, one.tweakAdd one.toBytes = .ok u ∧ u.scalar = 2 ∧
      Bytewise.Context.blindSum [u.toBytes] [one.toBytes] = .ofExcept (.ok one.toBytes) := by
  intro one largest
  have hone : one.toBytes.toNat < groupOrder ∧ one.toBytes ≠ .zero := by decide
  obtain ⟨horder, -⟩ := tweakAdd_agrees_blindSum largest groupOrderBytes
  obtain ⟨-, hzero, -⟩ := tweakAdd_agrees_blindSum largest .zero
  obtain ⟨-, -, hlargest, -⟩ := tweakAdd_agrees_blindSum largest one.toBytes
  obtain ⟨-, -, htwo, -⟩ := tweakAdd_agrees_blindSum one one.toBytes
  obtain ⟨t, ht, -, -, herror, -⟩ := hlargest hone.1 hone.2
  obtain rfl := toBytes_injective ht
  obtain ⟨t, ht, -, -, -, hsum, hback⟩ := htwo hone.1 hone.2
  obtain rfl := toBytes_injective ht
  obtain ⟨u, hu, hbytes⟩ := hsum (by decide)
  refine ⟨horder (by decide), hzero rfl, herror.mpr (by decide), u, hu, ?_, (hback u hu).2⟩
  exact (scalar_of_tweakAdd hu).trans (by decide)

end SecretKey

end ConfidentialTx
