import Mathlib
import ConfidentialTx.Proofs.Builder.Outcome
import ConfidentialTx.Proofs.Bytewise.Checks
import ConfidentialTx.Proofs.Commitment.Homomorphic
import ConfidentialTx.Proofs.Keychain.Session

namespace ConfidentialTx

variable {root : KeyRoot} {start : KeyCache}
  {names : Identifier → Except KeychainError SecretKey}

/-- The program concludes the same whenever it runs on the keychain. -/
def Keyed.Concludes {ε α : Type} (root : KeyRoot) (start : KeyCache) (x : Keyed ε α)
    (r : Except ε α) : Prop :=
  ∀ cache, root.Later start cache → x.result root cache = r

namespace BlindSum

variable {sum sum' : BlindSum}

def join (sum sum' : BlindSum) : BlindSum :=
  ⟨sum.positiveKeyIds ++ sum'.positiveKeyIds, sum.negativeKeyIds ++ sum'.negativeKeyIds,
    sum.positiveFactors ++ sum'.positiveFactors, sum.negativeFactors ++ sum'.negativeFactors⟩

def swap (sum : BlindSum) : BlindSum :=
  ⟨sum.negativeKeyIds, sum.positiveKeyIds, sum.negativeFactors, sum.positiveFactors⟩

/-- The same contributions in another order. -/
structure Reorders (sum sum' : BlindSum) : Prop where
  positiveKeyIds : sum'.positiveKeyIds.Perm sum.positiveKeyIds
  negativeKeyIds : sum'.negativeKeyIds.Perm sum.negativeKeyIds
  positiveFactors : sum'.positiveFactors.Perm sum.positiveFactors
  negativeFactors : sum'.negativeFactors.Perm sum.negativeFactors

/-- The first identifier without a key; those of the keys to add come first. -/
def FirstUnknown (names : Identifier → Except KeychainError SecretKey) (sum : BlindSum)
    (id : Identifier) : Prop :=
  ∃ front back, sum.positiveKeyIds ++ sum.negativeKeyIds = front ++ id :: back ∧
    (∀ known ∈ front, ∃ key, names known = .ok key) ∧ ∀ key, names id ≠ .ok key

theorem Reorders.resolved (h : sum.Reorders sum') (hsum : sum.Resolved names) :
    sum'.Resolved names := by
  intro id hid
  apply hsum
  rw [List.mem_append] at hid ⊢
  rwa [h.positiveKeyIds.mem_iff, h.negativeKeyIds.mem_iff] at hid

theorem Reorders.total_eq (h : sum.Reorders sum') : sum'.total names = sum.total names := by
  simp only [total, (h.positiveKeyIds.map _).sum_eq, (h.negativeKeyIds.map _).sum_eq,
    (h.positiveFactors.map _).sum_eq, (h.negativeFactors.map _).sum_eq]

theorem Resolved.join (hsum : sum.Resolved names) (hsum' : sum'.Resolved names) :
    (sum.join sum').Resolved names := by
  obtain ⟨hpos, hneg⟩ := List.forall_mem_append.mp hsum
  obtain ⟨hpos', hneg'⟩ := List.forall_mem_append.mp hsum'
  exact List.forall_mem_append.mpr
    ⟨List.forall_mem_append.mpr ⟨hpos, hpos'⟩, List.forall_mem_append.mpr ⟨hneg, hneg'⟩⟩

theorem total_join (sum sum' : BlindSum) :
    (sum.join sum').total names = sum.total names + sum'.total names := by
  simp only [total, join, List.map_append, List.sum_append]
  ring

theorem Resolved.swap (hsum : sum.Resolved names) : sum.swap.Resolved names :=
  List.forall_mem_append.mpr (List.forall_mem_append.mp hsum).symm

theorem total_swap (sum : BlindSum) : sum.swap.total names = -sum.total names := by
  simp only [total, swap]
  ring

theorem ofZMod_total_join (sum sum' : BlindSum) :
    (.ofZMod ((sum.join sum').total names) : Scalar) =
      .ofZMod (sum.total names) + .ofZMod (sum'.total names) := by
  apply Residue.toZMod_injective
  rw [Residue.toZMod_add]
  simp only [Residue.toZMod_ofZMod, total_join]

theorem ofZMod_total_swap (sum : BlindSum) :
    (.ofZMod (sum.swap.total names) : Scalar) = -.ofZMod (sum.total names) := by
  apply Residue.toZMod_injective
  rw [Residue.toZMod_neg]
  simp only [Residue.toZMod_ofZMod, total_swap]

/-- The keys that these identifiers and these factors stand for. A factor that is zero stands for none. -/
def terms (names : Identifier → Except KeychainError SecretKey) (ids : List Identifier)
    (factors : List BlindingFactor) : List SecretKey :=
  ids.filterMap (fun id ↦ (names id).toOption) ++
    factors.filterMap fun b ↦ SecretKey.ofScalar? b.scalar

def plusTerms (names : Identifier → Except KeychainError SecretKey) (sum : BlindSum) :
    List SecretKey :=
  terms names sum.positiveKeyIds sum.positiveFactors

def minusTerms (names : Identifier → Except KeychainError SecretKey) (sum : BlindSum) :
    List SecretKey :=
  terms names sum.negativeKeyIds sum.negativeFactors

theorem sum_terms (names : Identifier → Except KeychainError SecretKey) (ids : List Identifier)
    (factors : List BlindingFactor) :
    ((terms names ids factors).map fun key ↦ key.scalar.toZMod).sum =
      (ids.map (share names)).sum + (factors.map fun b ↦ b.scalar.toZMod).sum := by
  have hids : ((ids.filterMap fun id ↦ (names id).toOption).map
      fun key ↦ key.scalar.toZMod).sum = (ids.map (share names)).sum := by
    induction ids with
    | nil => rfl
    | cons id ids ih =>
      rw [List.map_cons, List.sum_cons, ← ih, share]
      cases hname : names id with
      | ok key => rw [List.filterMap_cons, hname, Except.toOption, List.map_cons, List.sum_cons]
      | error e => rw [List.filterMap_cons, hname, Except.toOption, zero_add]
  rw [terms, List.map_append, List.sum_append, hids, Keychain.sum_factors]

theorem blindSum_terms (names : Identifier → Except KeychainError SecretKey) (sum : BlindSum) :
    SecretKey.blindSum (sum.plusTerms names) (sum.minusTerms names) =
      .ofZMod (sum.total names) := by
  apply Residue.toZMod_injective
  rw [Residue.toZMod_ofZMod, Keychain.toZMod_blindSum, plusTerms, minusTerms, sum_terms, sum_terms,
    total]

theorem exists_firstUnknown (h : ¬sum.Resolved names) : ∃ id, sum.FirstUnknown names id := by
  cases hfind : (sum.positiveKeyIds ++ sum.negativeKeyIds).find? fun id ↦ !(names id).isOk with
  | none =>
    rw [List.find?_eq_none] at hfind
    refine absurd (fun id hid ↦ ?_) h
    exact exists_of_isOk (by simpa using hfind id hid)
  | some id =>
    obtain ⟨hid, front, back, hsplit, hfront⟩ := List.find?_eq_some_iff_append.mp hfind
    refine ⟨id, front, back, hsplit, fun known hknown ↦ ?_, fun key hkey ↦ ?_⟩
    · exact exists_of_isOk (by simpa using hfront known hknown)
    · rw [hkey] at hid
      cases hid

end BlindSum

theorem mapM_eq_error {ε α β : Type} {f : α → Except ε β} {front back : List α} {a : α} {e : ε}
    (hfront : ∀ b ∈ front, ∃ c, f b = .ok c) (ha : f a = .error e) :
    (front ++ a :: back).mapM f = .error e := by
  induction front with
  | nil =>
    rw [List.nil_append, List.mapM_cons, ha]
    rfl
  | cons b front ih =>
    obtain ⟨⟨c, hc⟩, hrest⟩ := List.forall_mem_cons.mp hfront
    rw [List.cons_append, List.mapM_cons, hc, ok_bind, ih hrest]
    rfl

namespace BlindingFactor

variable {x : ZMod groupOrder}

theorem isZero_iff {b : BlindingFactor} : b.isZero = true ↔ b.scalar = 0 := by
  rw [isZero, decide_eq_true_iff]

theorem isZero_ofZMod_iff : (mk (.ofZMod x)).isZero = true ↔ x = 0 := by
  rw [isZero_iff, ← Residue.toZMod_eq_zero, Residue.toZMod_ofZMod]

theorem toNat_toBytes_lt (b : BlindingFactor) : b.toBytes.toNat < groupOrder := by
  rw [toBytes, Scalar.toNat_toBytes]
  exact b.scalar.val_lt

end BlindingFactor

namespace Commitment

theorem pedersen_zero_ne_zero (key : SecretKey) : Point.pedersen 0 key.scalar ≠ 0 := by
  rw [Point.pedersen_eq, UInt64.toNat_zero, Nat.cast_zero, key.opening_zero_eq, ne_eq,
    Point.ofGroup_eq_zero]
  exact key.element_ne_zero

/-- Commitments to zero leave the commitment to zero under the sum of their keys. -/
theorem sum_zeros (positive negative : List SecretKey) :
    ∃ plus minus, positive.mapM (commit .commit 0) = .ok plus ∧
      negative.mapM (commit .commit 0) = .ok minus ∧
      sum .commit plus minus =
        ofGroup (.opening 0 (SecretKey.blindSum positive negative).toZMod) := by
  have hzeros (keys : List SecretKey) : ∃ cs, keys.mapM (commit .commit 0) = .ok cs ∧
      List.Forall₂ Opens cs ((keys.map fun key ↦ ((0 : UInt64), key)).map Opening.ofKey) := by
    have hpoint : ∀ o ∈ keys.map fun key ↦ ((0 : UInt64), key),
        Point.pedersen o.1 o.2.scalar ≠ 0 := by
      rw [List.forall_mem_map]
      exact fun key _ ↦ pedersen_zero_ne_zero key
    obtain ⟨cs, hcs, hopens⟩ := exists_commits hpoint
    rw [List.mapM_map] at hcs
    exact ⟨cs, hcs, hopens⟩
  have hvalue (keys : List SecretKey) :
      Opening.totalValue ((keys.map fun key ↦ ((0 : UInt64), key)).map Opening.ofKey) = 0 := by
    rw [Opening.totalValue_ofKey, List.map_map]
    simp [Function.comp_def]
  obtain ⟨plus, hplus, hout⟩ := hzeros positive
  obtain ⟨minus, hminus, hin⟩ := hzeros negative
  refine ⟨plus, minus, hplus, hminus, ?_⟩
  rw [sum_eq_net hout hin, Opening.net, Opening.totalBlind_sub, hvalue, hvalue]
  simp [Function.comp_def]

theorem sum_zeros_eq_commit (positive negative : List SecretKey) {b : BlindingFactor}
    (hb : SecretKey.blindSum positive negative = b.scalar) :
    ∃ plus minus, positive.mapM (commit .commit 0) = .ok plus ∧
      negative.mapM (commit .commit 0) = .ok minus ∧
      (∀ key, b.toSecretKey = .ok key →
        ∃ c, sum .commit plus minus = .ok c ∧ commit .commit 0 key = .ok c) ∧
      (b.isZero = true → sum .commit plus minus = .error .pointAtInfinity) := by
  obtain ⟨plus, minus, hplus, hminus, hnet⟩ := sum_zeros positive negative
  rw [hb] at hnet
  refine ⟨plus, minus, hplus, hminus, ?_, ?_⟩
  · intro key hkey
    obtain ⟨c, hc, -⟩ := exists_commit (pedersen_zero_ne_zero key)
    refine ⟨c, ?_, hc⟩
    rw [hnet, ← hc, commit_eq, BlindingFactor.scalar_of_toSecretKey hkey, UInt64.toNat_zero,
      Nat.cast_zero]
  · intro hzero
    rw [hnet, BlindingFactor.isZero_iff.mp hzero, Residue.toZMod_zero, CurveGroup.opening_zero,
      ofGroup_zero]

end Commitment

namespace Keychain

theorem answer_blindSum_eq_error {sum : BlindSum} {e : KeychainError}
    (h : (sum.positiveKeyIds ++ sum.negativeKeyIds).mapM names = .error e) :
    (blindSum sum).answer root names = .error e := by
  rw [answer_blindSum_eq]
  rw [List.mapM_append] at h
  cases hpositive : sum.positiveKeyIds.mapM names with
  | error e' =>
    rw [hpositive] at h
    cases h
    rfl
  | ok positive =>
    rw [hpositive, ok_bind] at h
    rw [ok_bind]
    cases hnegative : sum.negativeKeyIds.mapM names with
    | error e' =>
      rw [hnegative] at h
      cases h
      rfl
    | ok negative =>
      rw [hnegative] at h
      cases h

theorem concludes_of_answer (hreach : root.Reaches start) (hdistinct : root.DistinctChildren start)
    {sum : BlindSum} {r : Except KeychainError BlindingFactor}
    (h : (blindSum sum).answer root (root.names start) = r) :
    (blindSum sum).Concludes root start r := by
  intro cache hlater
  rw [hlater.result_eq (resolving_blindSum sum) hreach hdistinct, h]

theorem blindSum_concludes (hreach : root.Reaches start) (hdistinct : root.DistinctChildren start)
    {sum : BlindSum} (hsum : sum.Resolved (root.names start)) :
    (blindSum sum).Concludes root start (.ok ⟨.ofZMod (sum.total (root.names start))⟩) :=
  concludes_of_answer hreach hdistinct (answer_blindSum hsum)

theorem blindSum_concludes_unknown (hreach : root.Reaches start)
    (hdistinct : root.DistinctChildren start)
    (hderived : ∀ i < root.config.keySearchLimit, ∃ child, root.child i = .ok child)
    {sum : BlindSum} (h : ¬sum.Resolved (root.names start)) :
    ∃ id, sum.FirstUnknown (root.names start) id ∧
      (blindSum sum).Concludes root start (.error (.unknownKeyId id)) := by
  obtain ⟨id, hid⟩ := BlindSum.exists_firstUnknown h
  refine ⟨id, hid, concludes_of_answer hreach hdistinct (answer_blindSum_eq_error ?_)⟩
  obtain ⟨front, back, hsplit, hfront, hmissing⟩ := hid
  cases hname : root.names start id with
  | ok key => exact absurd hname (hmissing key)
  | error e =>
    obtain rfl := KeyRoot.names_eq_error hreach.sound hderived hname
    rw [hsplit]
    exact mapM_eq_error hfront hname

/-- As long as all identifiers name keys, the result is what the terms leave modulo the order, in any
order; sums can be joined and swapped, and commitments to zero add up with them. Else the first
identifier without a key is the error. -/
theorem blindSum_net (hreach : root.Reaches start) (hdistinct : root.DistinctChildren start)
    (sum : BlindSum) :
    (sum.Resolved (root.names start) → ∃ b : BlindingFactor,
      (blindSum sum).Concludes root start (.ok b) ∧
      b.toBytes = .ofNat (sum.total (root.names start)).val ∧ b.toBytes.toNat < groupOrder ∧
      (b.isZero = true ↔ sum.total (root.names start) = 0) ∧
      Bytewise.Context.blindSum ((sum.plusTerms (root.names start)).map SecretKey.toBytes)
        ((sum.minusTerms (root.names start)).map SecretKey.toBytes) = .ofExcept (.ok b.toBytes) ∧
      (∀ sum', sum.Reorders sum' → (blindSum sum').Concludes root start (.ok b)) ∧
      (∀ sum', sum'.Resolved (root.names start) → ∃ b' : BlindingFactor,
        (blindSum sum').Concludes root start (.ok b') ∧
        (blindSum (sum.join sum')).Concludes root start (.ok ⟨b.scalar + b'.scalar⟩)) ∧
      (blindSum sum.swap).Concludes root start (.ok ⟨-b.scalar⟩) ∧
      ∃ plus minus,
        (sum.plusTerms (root.names start)).mapM (Commitment.commit .commit 0) = .ok plus ∧
        (sum.minusTerms (root.names start)).mapM (Commitment.commit .commit 0) = .ok minus ∧
        (∀ key, b.toSecretKey = .ok key → ∃ c, Commitment.sum .commit plus minus = .ok c ∧
          Commitment.commit .commit 0 key = .ok c) ∧
        (b.isZero = true → Commitment.sum .commit plus minus = .error .pointAtInfinity)) ∧
    ((∀ i < root.config.keySearchLimit, ∃ child, root.child i = .ok child) →
      ¬sum.Resolved (root.names start) → ∃ id, sum.FirstUnknown (root.names start) id ∧
        (blindSum sum).Concludes root start (.error (.unknownKeyId id))) := by
  refine ⟨fun hsum ↦ ?_, fun hderived h ↦ blindSum_concludes_unknown hreach hdistinct hderived h⟩
  have hterms := sum.blindSum_terms (root.names start)
  refine ⟨⟨.ofZMod (sum.total (root.names start))⟩, blindSum_concludes hreach hdistinct hsum, rfl,
    BlindingFactor.toNat_toBytes_lt _, BlindingFactor.isZero_ofZMod_iff, ?_, ?_, ?_, ?_,
    Commitment.sum_zeros_eq_commit _ _ hterms⟩
  · rw [Bytewise.Context.blindSum_toBytes, hterms]
    rfl
  · intro sum' h
    rw [← h.total_eq]
    exact blindSum_concludes hreach hdistinct (h.resolved hsum)
  · intro sum' hsum'
    refine ⟨_, blindSum_concludes hreach hdistinct hsum', ?_⟩
    rw [← BlindSum.ofZMod_total_join]
    exact blindSum_concludes hreach hdistinct (hsum.join hsum')
  · rw [← BlindSum.ofZMod_total_swap]
    exact blindSum_concludes hreach hdistinct hsum.swap

open Transaction in
/-- A key that is added twice cancels out with the key and the factor taken off, a zero besides. Where
one identifier names no key, it does not matter that another one does. -/
theorem blindSum_net_ones :
    (∃ b, (blindSum ⟨[onesId, onesId], [onesId], [.zero], [⟨onesChild.secretKey.scalar⟩]⟩).Concludes
        onesRoot onesCache (.ok b) ∧ b.isZero = true) ∧
    (blindSum ⟨[onesId], [.zero, onesId], [], []⟩).Concludes onesRoot onesCache
      (.error (.unknownKeyId .zero)) := by
  have hderived : ∀ i < onesRoot.config.keySearchLimit, ∃ child, onesRoot.child i = .ok child :=
    fun i hi ↦ absurd hi UInt32.not_lt_zero
  obtain ⟨hnet, -⟩ := blindSum_net reaches_onesCache distinctChildren_onesCache
    ⟨[onesId, onesId], [onesId], [.zero], [⟨onesChild.secretKey.scalar⟩]⟩
  obtain ⟨-, hunknown⟩ := blindSum_net reaches_onesCache distinctChildren_onesCache
    ⟨[onesId], [.zero, onesId], [], []⟩
  refine ⟨?_, ?_⟩
  · obtain ⟨b, hb, -, -, hzero, -⟩ := hnet (by simp [BlindSum.Resolved, names_onesCache])
    refine ⟨b, hb, hzero.mpr ?_⟩
    simp [BlindSum.total, share_of_names names_onesCache, BlindingFactor.zero]
  · obtain ⟨id, ⟨front, back, hsplit, -, hmissing⟩, hid⟩ := hunknown hderived
      (by simp [BlindSum.Resolved, names_zero_onesCache])
    have hmem : id ∈ [onesId, .zero, onesId] := by
      rw [show [onesId, .zero, onesId] = front ++ id :: back from hsplit]
      exact List.mem_append_right _ List.mem_cons_self
    have hne : id ≠ onesId := by
      rintro rfl
      exact hmissing _ names_onesCache
    have hzero : id = .zero := by simpa [hne] using hmem
    subst hzero
    exact hid

end Keychain

end ConfidentialTx
