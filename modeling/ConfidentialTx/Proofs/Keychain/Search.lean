import Mathlib
import ConfidentialTx.Proofs.Builder.Restore
import ConfidentialTx.Proofs.Keychain.Interleaving

namespace ConfidentialTx

namespace KeyCache

/-- The first children are held now, and no others have come in. -/
structure Fills (before after : KeyCache) (count : ℕ) : Prop where
  keeps : before.Keeps after
  holds : ∀ i : UInt32, i.toNat < count → i ∈ after.held
  adds : ∀ i ∈ after.held, i ∈ before.held ∨ i.toNat < count

variable {before after : KeyCache} {index : UInt32}

theorem Fills.refl (cache : KeyCache) : cache.Fills cache 0 where
  keeps := .refl cache
  holds _ h := absurd h (Nat.not_lt_zero _)
  adds _ h := .inl h

theorem lt_or_eq_of_lt_add_one {i : UInt32} (h : i.toNat < index.toNat + 1) :
    i.toNat < index.toNat ∨ i = index := by
  rw [← UInt32.toNat_inj]
  omega

theorem Fills.held (h : before.Fills after index.toNat) (hheld : index ∈ after.held) :
    before.Fills after (index.toNat + 1) where
  keeps := h.keeps
  holds i hi := by
    rcases lt_or_eq_of_lt_add_one hi with hlt | rfl
    · exact h.holds i hlt
    · exact hheld
  adds i hi := (h.adds i hi).imp_right fun hlt ↦ by omega

theorem Fills.insert (h : before.Fills after index.toNat) (id : Identifier) (key : ExtendedKey)
    (hnew : after.id? index = none) :
    before.Fills (after.insert index id key) (index.toNat + 1) where
  keeps := h.keeps.trans (keeps_insert id key hnew)
  holds i hi := by
    rcases lt_or_eq_of_lt_add_one hi with hlt | rfl
    · exact (keeps_insert id key hnew).held_subset (h.holds i hlt)
    · exact ⟨id, id?_insert_self ..⟩
  adds i hi := by
    obtain ⟨found, hfound⟩ := hi
    by_cases hne : i = index
    · exact .inr (by rw [hne]; omega)
    · rw [id?_insert_of_ne _ _ _ hne] at hfound
      exact (h.adds i ⟨found, hfound⟩).imp_right fun hlt ↦ by omega

end KeyCache

namespace KeyRoot

variable {root : KeyRoot} {before cache : KeyCache} {id : Identifier}

def Passes (root : KeyRoot) (id : Identifier) (count : ℕ) : Prop :=
  ∀ i : UInt32, i.toNat < count → ∃ key found, root.child i = .ok (key, found) ∧ found ≠ id

/-- How a search ends, and the cache that it leaves: with the first child that has the identifier, at
the limit if there is none, or with a child that cannot be derived. -/
inductive SearchEnds (root : KeyRoot) (id : Identifier) (before : KeyCache) :
    Except KeychainError SecretKey × KeyCache → Prop
  | found {i : UInt32} {key : ExtendedKey} {after : KeyCache}
      (hlimit : i < root.config.keySearchLimit) (hpasses : root.Passes id i.toNat)
      (hchild : root.child i = .ok (key, id)) (hfills : before.Fills after (i.toNat + 1)) :
      SearchEnds root id before (.ok key.secretKey, after)
  | missed {after : KeyCache} (hpasses : root.Passes id root.config.keySearchLimit.toNat)
      (hfills : before.Fills after root.config.keySearchLimit.toNat) :
      SearchEnds root id before (.error (.unknownKeyId id), after)
  | failed {i : UInt32} {e : KeychainError} {after : KeyCache}
      (hlimit : i < root.config.keySearchLimit) (hpasses : root.Passes id i.toNat)
      (hchild : root.child i = .error e) (hfills : before.Fills after i.toNat) :
      SearchEnds root id before (.error e, after)

theorem Passes.succ {index : UInt32} {key : ExtendedKey} {found : Identifier}
    (h : root.Passes id index.toNat) (hchild : root.child index = .ok (key, found))
    (hne : found ≠ id) : root.Passes id (index.toNat + 1) := by
  intro i hi
  rcases KeyCache.lt_or_eq_of_lt_add_one hi with hlt | rfl
  · exact h i hlt
  · exact ⟨key, found, hchild, hne⟩

theorem search_ends {count : ℕ} {index : UInt32} (hsound : cache.Sound root)
    (hnone : cache.key? id = none)
    (hcount : index.toNat + count = root.config.keySearchLimit.toNat)
    (hpasses : root.Passes id index.toNat) (hfills : before.Fills cache index.toNat) :
    root.SearchEnds id before (root.search id count index cache).value := by
  -- On how many children are left to look at; those before were passed and are held.
  induction count generalizing index cache with
  | zero =>
    rw [Nat.add_zero] at hcount
    rw [hcount] at hpasses hfills
    exact .missed hpasses hfills
  | succ count ih =>
    obtain ⟨hindex, hsmall, hnextCount⟩ := count_step hcount
    rcases @search_step root cache id count index hsound hnone with
      ⟨e, hchild, h⟩ | ⟨key, hchild, hnew, h⟩ | ⟨key, found, next, hchild, hne, hnext, h⟩
    · rw [h]
      exact .failed hindex hpasses hchild hfills
    · rw [h]
      exact .found hindex hpasses hchild (hfills.insert id key hnew)
    · obtain ⟨hnextSound, hnextNone, -, -⟩ := search_next hsound hnone hchild hne hnext
      have hnextFills : before.Fills next (index.toNat + 1) := by
        rcases hnext with ⟨hheld, rfl⟩ | ⟨hnew, rfl⟩
        · exact hfills.held ⟨found, hheld⟩
        · exact hfills.insert found key hnew
      rw [h]
      apply ih hnextSound hnextNone hnextCount
      · rw [toNat_add_one hsmall]
        exact hpasses.succ hchild hne
      · rw [toNat_add_one hsmall]
        exact hnextFills

theorem resolve_ends (hsound : cache.Sound root) (hroot : id ≠ root.id)
    (hnone : cache.key? id = none) :
    root.SearchEnds id cache (root.resolve id cache).value := by
  simp only [resolve, if_neg hroot, hnone]
  refine search_ends hsound hnone (Nat.zero_add _) ?_ (.refl cache)
  intro i hi
  exact absurd hi (Nat.not_lt_zero _)

theorem resolve_known (h : id = root.id ∨ ∃ key, cache.key? id = some key) :
    (root.resolve id cache).value.2 = cache := by
  unfold resolve
  by_cases hroot : id = root.id
  · rw [if_pos hroot]
    rfl
  · obtain ⟨key, hkey⟩ := h.resolve_left hroot
    rw [if_neg hroot, hkey]
    rfl

theorem derive_error {index : UInt32} {e : KeychainError}
    (h : (root.derive index cache).value.1 = .error e) :
    (root.derive index cache).value.2 = cache := by
  rcases root.derive_cases index cache with
    ⟨id, -, hderive⟩ | ⟨e', -, hderive⟩ | ⟨key, id, -, -, hderive⟩
  · rw [hderive]
  · rw [hderive]
  · rw [hderive] at h
    cases h

/-- Any cache that a keychain comes to holds children under their indices and identifiers, and keeps
them in whatever runs next. Only a look-up of what neither the root nor the cache answers adds to it,
namely the first children up to the one where the search ends. -/
theorem cache_of_reaches (hreach : root.Reaches cache) :
    (∀ i id, cache.id? i = some id → ∃ key, root.child i = .ok (key, id)) ∧
    (∀ id, (∃ key, cache.key? id = some key) ↔ ∃ i, cache.id? i = some id) ∧
    (∀ id key, cache.key? id = some key →
      ∃ i, cache.id? i = some id ∧ root.child i = .ok (key, id)) ∧
    (∀ (α : Type) (p : KeyProgram α), cache.Keeps (p.run root cache).value.2) ∧
    (∀ i e, (root.derive i cache).value.1 = .error e → (root.derive i cache).value.2 = cache) ∧
    (∀ id, (id = root.id ∨ ∃ key, cache.key? id = some key) →
      (root.resolve id cache).value.2 = cache) ∧
    ∀ id, id ≠ root.id → cache.key? id = none →
      root.SearchEnds id cache (root.resolve id cache).value := by
  have hsound := hreach.sound
  refine ⟨fun i id hi ↦ (hsound.index i id hi).1, fun id ↦ ⟨?_, ?_⟩, hsound.key,
    fun _ p ↦ p.keeps_run hsound, fun _ _ h ↦ derive_error h, fun _ h ↦ resolve_known h,
    fun _ hroot hnone ↦ resolve_ends hsound hroot hnone⟩
  · intro h
    obtain ⟨key, hkey⟩ := h
    obtain ⟨i, hi, -⟩ := hsound.key id key hkey
    exact ⟨i, hi⟩
  · intro h
    obtain ⟨i, hi⟩ := h
    exact (hsound.index i id hi).2

open Transaction in
/-- A search among one child, for an identifier that it has and for one that it has not. -/
theorem cache_of_reaches_ones :
    let root : KeyRoot := ⟨onesKey, ⟨1⟩⟩
    ((root.resolve onesId .empty).value.1 = .ok onesChild.secretKey ∧
      (0 : UInt32) ∈ (root.resolve onesId .empty).value.2.held) ∧
    (root.resolve .zero .empty).value.1 = .error (.unknownKeyId .zero) ∧
      (0 : UInt32) ∈ (root.resolve .zero .empty).value.2.held := by
  intro root
  have hchild : root.child 0 = .ok (onesChild, onesId) := child_onesRoot
  have hzero : ∀ i < root.config.keySearchLimit, i = 0 := by
    intro i hi
    rw [UInt32.lt_iff_toNat_lt] at hi
    exact UInt32.toNat_inj.mp (Nat.lt_one_iff.mp hi)
  have hends := (cache_of_reaches root.reaches_empty).2.2.2.2.2.2
  refine ⟨?_, ?_⟩
  · have h := hends onesId (by decide +kernel) rfl
    generalize (root.resolve onesId .empty).value = r at h ⊢
    cases h with
    | found hlimit hpasses hfound hfills =>
      rw [hzero _ hlimit, hchild] at hfound
      cases hfound
      exact ⟨rfl, hfills.holds 0 (Nat.succ_pos _)⟩
    | missed hpasses hfills =>
      obtain ⟨key, found, hother, hne⟩ := hpasses 0 Nat.zero_lt_one
      rw [hchild] at hother
      cases hother
      exact absurd rfl hne
    | failed hlimit hpasses hfails hfills =>
      rw [hzero _ hlimit, hchild] at hfails
      cases hfails
  · have h := hends .zero (by decide +kernel) rfl
    generalize (root.resolve .zero .empty).value = r at h ⊢
    cases h with
    | found hlimit hpasses hfound hfills =>
      rw [hzero _ hlimit, hchild] at hfound
      cases hfound
    | missed hpasses hfills => exact ⟨rfl, hfills.holds 0 Nat.zero_lt_one⟩
    | failed hlimit hpasses hfails hfills =>
      rw [hzero _ hlimit, hchild] at hfails
      cases hfails

end KeyRoot

end ConfidentialTx
