import Mathlib
import ConfidentialTx.Proofs.Keychain.Session

namespace ConfidentialTx

def KeyCache.held (cache : KeyCache) : Set UInt32 := {i | ∃ id, cache.id? i = some id}

namespace KeyRoot

variable {root : KeyRoot} {cache after : KeyCache} {id : Identifier}

theorem search_eq_ok {count : Nat} {index : UInt32} {key : SecretKey}
    (h : (root.search id count index cache).value.1 = .ok key) :
    ∃ found, (root.search id count index cache).value.2.key? id = some found ∧
      found.secretKey = key := by
  induction count generalizing index cache with
  | zero => cases h
  | succ count ih =>
    simp only [search, Logged.value_bind] at h ⊢
    generalize (root.derive index cache).value = derived at h ⊢
    obtain ⟨answer, next⟩ := derived
    cases answer with
    | error e => cases h
    | ok found =>
      by_cases hfound : found = id
      · simp only [if_pos hfound, Logged.value_bind] at h ⊢
        cases hkey : next.key? id with
        | none =>
          rw [hkey] at h
          cases h
        | some key' =>
          rw [hkey] at h
          exact ⟨key', hkey, Except.ok.inj h⟩
      · simp only [if_neg hfound] at h ⊢
        exact ih h

theorem resolve_eq_ok {key : SecretKey} (hroot : id ≠ root.id)
    (h : (root.resolve id cache).value.1 = .ok key) :
    ∃ found, (root.resolve id cache).value.2.key? id = some found ∧ found.secretKey = key := by
  unfold resolve at h ⊢
  rw [if_neg hroot] at h ⊢
  cases hkey : cache.key? id with
  | some found =>
    rw [hkey] at h
    exact ⟨found, hkey, Except.ok.inj h⟩
  | none =>
    rw [hkey] at h
    exact search_eq_ok h

theorem key?_of_grown {key : ExtendedKey} (hsound : cache.Sound root) (hafter : after.Sound root)
    (hgrown : root.Grown cache after) (hdistinct : root.Distinct after.held)
    (h : cache.key? id = some key) : after.key? id = some key := by
  obtain ⟨i, hi, hchild⟩ := hsound.key id key h
  have hheld := hgrown.keeps i id hi
  obtain ⟨-, key', hkey'⟩ := hafter.index i id hheld
  obtain ⟨j, hj, hchild'⟩ := hafter.key id key' hkey'
  obtain rfl := hdistinct i ⟨id, hheld⟩ j ⟨id, hj⟩ _ _ _ hchild hchild'
  rw [hchild] at hchild'
  cases hchild'
  exact hkey'

theorem exists_lookup {i : UInt32} {key : ExtendedKey} (hchild : root.child i = .ok (key, id))
    (hderived : ∀ j ≤ i, ∃ child, root.child j = .ok child) {count : Nat} {index : UInt32}
    (hindex : index ≤ i) (hcount : i.toNat < index.toNat + count) :
    ∃ found, root.lookup id count index = .ok found := by
  induction count generalizing index with
  | zero =>
    rw [UInt32.le_iff_toNat_le] at hindex
    omega
  | succ count ih =>
    obtain ⟨⟨key', id'⟩, hchild'⟩ := hderived index hindex
    by_cases hid : id' = id
    · exact ⟨key'.secretKey, by simp only [lookup, hchild', if_pos hid]⟩
    · have hne : index ≠ i := by
        rintro rfl
        rw [hchild] at hchild'
        cases hchild'
        exact hid rfl
      have hlt := UInt32.lt_iff_toNat_lt.mp (UInt32.lt_of_le_of_ne hindex hne)
      have hstep := toNat_add_one (Nat.lt_of_le_of_lt hlt i.toNat_lt)
      simp only [lookup, hchild', if_neg hid]
      exact ih (by rw [UInt32.le_iff_toNat_le]; omega) (by omega)

/-- A key that was asked for without success does not come up later either. -/
theorem key?_eq_none_of_find_error {e : KeychainError} (hsound : cache.Sound root)
    (hafter : after.Sound root) (hgrown : root.Grown cache after) (hroot : id ≠ root.id)
    (h : root.find cache id = .error e) :
    after.key? id = none ∧ root.lookup id root.config.keySearchLimit.toNat 0 = .error e := by
  rw [find, if_neg hroot] at h
  cases hold : cache.key? id with
  | some key =>
    rw [hold] at h
    cases h
  | none =>
    have hlookup : root.lookup id root.config.keySearchLimit.toNat 0 = .error e := by
      rwa [hold] at h
    refine ⟨?_, hlookup⟩
    by_contra hne
    obtain ⟨key, hkey⟩ := Option.ne_none_iff_exists'.mp hne
    obtain ⟨i, hi, hchild⟩ := hafter.key id key hkey
    rcases hgrown.adds i id hi with hi | ⟨hlimit, hderived⟩
    · obtain ⟨-, old, hcontra⟩ := hsound.index i id hi
      rw [hold] at hcontra
      cases hcontra
    · have hfirst : 0 ≤ i := UInt32.le_iff_toNat_le.mpr (Nat.zero_le _)
      have hex : ∃ found, root.lookup id root.config.keySearchLimit.toNat 0 = .ok found :=
        exists_lookup hchild hderived hfirst (by simpa using UInt32.lt_iff_toNat_lt.mp hlimit)
      obtain ⟨found, hfound⟩ := hex
      rw [hlookup] at hfound
      cases hfound

theorem resolve_eq_find (hsound : cache.Sound root) (hafter : after.Sound root)
    (hgrown : root.Grown (root.resolve id cache).value.2 after)
    (hdistinct : root.Distinct after.held) :
    (root.resolve id cache).value.1 = root.find after id := by
  obtain ⟨hfind, hnext, hgrown'⟩ := resolve_spec hsound id
  by_cases hroot : id = root.id
  · rw [hfind, find, find, if_pos hroot, if_pos hroot]
  · cases hresult : (root.resolve id cache).value.1 with
    | ok key =>
      obtain ⟨found, hkey, rfl⟩ := resolve_eq_ok hroot hresult
      rw [find, if_neg hroot, key?_of_grown hnext hafter hgrown hdistinct hkey]
    | error e =>
      rw [hfind] at hresult
      obtain ⟨hnone, hlookup⟩ :=
        key?_eq_none_of_find_error hsound hafter (hgrown'.trans hgrown) hroot hresult
      rw [find, if_neg hroot, hnone, hlookup]

end KeyRoot

namespace KeyProgram

variable {α : Type} {root : KeyRoot} {p : KeyProgram α} {cache : KeyCache}

theorem run_grown (hp : p.Resolving) (hsound : cache.Sound root) :
    root.Grown cache (p.run root cache).value.2 := by
  induction p generalizing cache with
  | done a => exact .refl root cache
  | derive index next ih => exact hp.elim
  | resolve id next ih =>
    obtain ⟨-, hsound', hgrown⟩ := KeyRoot.resolve_spec hsound id
    exact hgrown.trans (ih _ (hp _) hsound')
  | log event next ih => exact ih hp hsound

/-- A run is replayed with the cache that it leaves. -/
theorem run_eq_answer (hp : p.Resolving) (hsound : cache.Sound root)
    (hdistinct : root.Distinct (p.run root cache).value.2.held) :
    (p.run root cache).value.1 =
      p.answer root (root.find (p.run root cache).value.2) := by
  induction p generalizing cache with
  | done a => rfl
  | derive index next ih => exact hp.elim
  | resolve id next ih =>
    obtain ⟨-, hsound', -⟩ := KeyRoot.resolve_spec hsound id
    simp only [run, Logged.value_bind, answer] at hdistinct ⊢
    have hnext := ih (root.resolve id cache).value.1 (hp _) hsound' hdistinct
    rw [← KeyRoot.resolve_eq_find hsound (run_sound _ hsound') (run_grown (hp _) hsound')
      hdistinct]
    exact hnext
  | log event next ih => exact ih hp hsound hdistinct

end KeyProgram

theorem Keyed.result_eq_answer {ε α : Type} {root : KeyRoot} {cache : KeyCache} {x : Keyed ε α}
    (hx : x.Resolving) (hsound : cache.Sound root)
    (hdistinct : root.Distinct (x.run.run root cache).value.2.held) :
    x.result root cache = x.answer root (root.find (x.run.run root cache).value.2) :=
  KeyProgram.run_eq_answer hx hsound hdistinct

namespace KeyRoot

variable {root : KeyRoot} {cache : KeyCache} {limit i : UInt32} {id : Identifier}
  {key : ExtendedKey}

theorem lookup_eq_key {count : Nat} {found : SecretKey} (hchild : root.child i = .ok (key, id))
    (hbefore : ∀ j < i, ∃ key' id', root.child j = .ok (key', id') ∧ id' ≠ id)
    (h : root.lookup id count 0 = .ok found) : found = key.secretKey := by
  by_cases hcount : i.toNat < count
  · have hfirst : 0 ≤ i := UInt32.le_iff_toNat_le.mpr (Nat.zero_le _)
    have hlookup : root.lookup id count 0 = .ok key.secretKey :=
      lookup_eq_ok hchild hbefore hfirst (by simpa using hcount)
    rw [h] at hlookup
    exact Except.ok.inj hlookup
  · have hlookup : root.lookup id count 0 = .error (.unknownKeyId id) := by
      have hlimit := i.toNat_lt
      apply lookup_eq_unknown
      · change 0 + count < 2 ^ 32
        omega
      · intro j _ hj
        have hzero : (0 : UInt32).toNat = 0 := rfl
        exact hbefore j (UInt32.lt_iff_toNat_lt.mpr (by omega))
    rw [h] at hlookup
    cases hlookup

/-- Where children are held or not, the identifier of a child leads to no key but its own. -/
theorem find_eq_key {found : SecretKey} (hsound : cache.Sound root)
    (hdistinct : root.Distinct ({j | j < limit} ∪ cache.held)) (hlimit : i < limit)
    (hderived : ∀ j < i, ∃ child, root.child j = .ok child)
    (hchild : root.child i = .ok (key, id)) (hroot : id ≠ root.id)
    (h : root.find cache id = .ok found) : found = key.secretKey := by
  rw [find, if_neg hroot] at h
  cases hkey : cache.key? id with
  | some key' =>
    rw [hkey] at h
    obtain ⟨j, hj, hchild'⟩ := hsound.key id key' hkey
    obtain rfl := hdistinct i (.inl hlimit) j (.inr ⟨id, hj⟩) _ _ _ hchild hchild'
    rw [hchild] at hchild'
    cases hchild'
    exact (Except.ok.inj h).symm
  | none =>
    rw [hkey] at h
    refine lookup_eq_key hchild ?_ h
    intro j hj
    obtain ⟨⟨key', id'⟩, hchild'⟩ := hderived j hj
    refine ⟨key', id', hchild', ?_⟩
    rintro rfl
    obtain rfl := hdistinct j (.inl (UInt32.lt_trans hj hlimit)) i (.inl hlimit) _ _ _ hchild'
      hchild
    exact UInt32.lt_irrefl j hj

theorem distinctChildren_empty (hdistinct : root.Distinct {j | j < root.config.keySearchLimit}) :
    root.DistinctChildren .empty := by
  have hknown : ∀ j, root.Known .empty j → j < root.config.keySearchLimit := by
    intro j hj
    rcases hj with ⟨_, hheld⟩ | hlimit
    · cases hheld
    · exact hlimit
  intro i j hi hj
  exact hdistinct i (hknown i hi) j (hknown j hj)

theorem names_empty (hdistinct : root.Distinct {j | j < root.config.keySearchLimit})
    (hlimit : i < root.config.keySearchLimit)
    (hderived : ∀ j < i, ∃ child, root.child j = .ok child)
    (hchild : root.child i = .ok (key, id)) (hroot : id ≠ root.id) :
    root.names .empty id = .ok key.secretKey := by
  have hsearched : root.Searched i := by
    refine ⟨hlimit, ?_⟩
    intro j hj
    rcases UInt32.lt_or_eq_of_le hj with hlt | rfl
    · exact hderived j hlt
    · exact ⟨_, hchild⟩
  have hnone : KeyCache.empty.key? id = none := rfl
  rw [names, (resolve_spec KeyCache.sound_empty id).1, find, if_neg hroot, hnone]
  exact lookup_of_searched (distinctChildren_empty hdistinct) hchild hsearched

end KeyRoot

end ConfidentialTx
