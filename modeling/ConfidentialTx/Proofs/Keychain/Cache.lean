import Mathlib
import ConfidentialTx.Keychain.Cache

namespace ConfidentialTx

namespace KeyCache

@[simp] theorem key?_insert_self (cache : KeyCache) (index : UInt32) (id : Identifier)
    (key : ExtendedKey) : (cache.insert index id key).key? id = some key := by
  simp [key?, insert]

theorem key?_insert_of_ne (cache : KeyCache) (index : UInt32) {id id' : Identifier}
    (key : ExtendedKey) (h : id' ≠ id) : (cache.insert index id key).key? id' = cache.key? id' := by
  simp [key?, insert, List.lookup, beq_false_of_ne h]

@[simp] theorem id?_insert_self (cache : KeyCache) (index : UInt32) (id : Identifier)
    (key : ExtendedKey) : (cache.insert index id key).id? index = some id := by
  simp [id?, insert]

theorem id?_insert_of_ne (cache : KeyCache) {index index' : UInt32} (id : Identifier)
    (key : ExtendedKey) (h : index' ≠ index) :
    (cache.insert index id key).id? index' = cache.id? index' := by
  simp [id?, insert, List.lookup, beq_false_of_ne h]

def Keeps (first second : KeyCache) : Prop :=
  ∀ i id, first.id? i = some id → second.id? i = some id

theorem Keeps.refl (cache : KeyCache) : cache.Keeps cache := fun _ _ h ↦ h

theorem Keeps.trans {first second third : KeyCache} (h : first.Keeps second)
    (h' : second.Keeps third) : first.Keeps third :=
  fun i id hi ↦ h' i id (h i id hi)

theorem keeps_insert {cache : KeyCache} {index : UInt32} (id : Identifier) (key : ExtendedKey)
    (hnew : cache.id? index = none) : cache.Keeps (cache.insert index id key) := by
  intro i id' hi
  have hne : i ≠ index := by
    rintro rfl
    rw [hnew] at hi
    cases hi
  rw [id?_insert_of_ne _ _ _ hne, hi]

/-- The indices lead to identifiers of children, and the keys are those of such children. -/
structure Sound (root : KeyRoot) (cache : KeyCache) : Prop where
  index : ∀ i id, cache.id? i = some id → (∃ key, root.child i = .ok (key, id)) ∧
    ∃ key, cache.key? id = some key
  key : ∀ id key, cache.key? id = some key → ∃ i, cache.id? i = some id ∧
    root.child i = .ok (key, id)

variable {root : KeyRoot} {cache : KeyCache}

theorem sound_empty : empty.Sound root where
  index _ _ h := by cases h
  key _ _ h := by cases h

theorem Sound.insert {index : UInt32} {id : Identifier} {key : ExtendedKey}
    (h : cache.Sound root) (hnew : cache.id? index = none) (hchild : root.child index = .ok (key, id)) :
    (cache.insert index id key).Sound root where
  index i id' hi := by
    by_cases hindex : i = index
    · subst hindex
      rw [id?_insert_self, Option.some.injEq] at hi
      subst hi
      exact ⟨⟨key, hchild⟩, key, key?_insert_self ..⟩
    · rw [id?_insert_of_ne _ _ _ hindex] at hi
      obtain ⟨hold, oldKey, hkey⟩ := h.index i id' hi
      refine ⟨hold, ?_⟩
      by_cases hid : id' = id
      · subst hid
        exact ⟨key, key?_insert_self ..⟩
      · exact ⟨oldKey, by rw [key?_insert_of_ne _ _ _ hid, hkey]⟩
  key id' key' hkey := by
    by_cases hid : id' = id
    · subst hid
      rw [key?_insert_self, Option.some.injEq] at hkey
      subst hkey
      exact ⟨index, id?_insert_self .., hchild⟩
    · rw [key?_insert_of_ne _ _ _ hid] at hkey
      obtain ⟨i, hi, hold⟩ := h.key id' key' hkey
      have hindex : i ≠ index := by
        rintro rfl
        rw [hnew] at hi
        cases hi
      exact ⟨i, by rw [id?_insert_of_ne _ _ _ hindex, hi], hold⟩

end KeyCache

namespace KeyRoot

variable {root : KeyRoot} {cache : KeyCache}

/-- A search may come to the child at this index: neither it nor one before it fails. -/
def Searched (root : KeyRoot) (index : UInt32) : Prop :=
  index < root.config.keySearchLimit ∧ ∀ i ≤ index, ∃ child, root.child i = .ok child

/-- Nothing that was held is gone, and what came in are children that a search comes to. -/
structure Grown (root : KeyRoot) (before after : KeyCache) : Prop where
  keeps : ∀ i id, before.id? i = some id → after.id? i = some id
  adds : ∀ i id, after.id? i = some id → before.id? i = some id ∨ root.Searched i

theorem Grown.refl (root : KeyRoot) (cache : KeyCache) : root.Grown cache cache where
  keeps _ _ h := h
  adds _ _ h := .inl h

theorem Grown.trans {first second third : KeyCache} (h : root.Grown first second)
    (h' : root.Grown second third) : root.Grown first third where
  keeps i id hi := h'.keeps i id (h.keeps i id hi)
  adds i id hi := by
    rcases h'.adds i id hi with hi | hi
    · exact h.adds i id hi
    · exact .inr hi

theorem Grown.insert {index : UInt32} {id : Identifier} (key : ExtendedKey)
    (hnew : cache.id? index = none) (hindex : root.Searched index) :
    root.Grown cache (cache.insert index id key) where
  keeps := KeyCache.keeps_insert id key hnew
  adds i id' hi := by
    by_cases hne : i = index
    · exact .inr (hne ▸ hindex)
    · rw [KeyCache.id?_insert_of_ne _ _ _ hne] at hi
      exact .inl hi

theorem derive_cases (root : KeyRoot) (index : UInt32) (cache : KeyCache) :
    (∃ id, cache.id? index = some id ∧ (root.derive index cache).value = (.ok id, cache)) ∨
    (∃ e, root.child index = .error e ∧ (root.derive index cache).value = (.error e, cache)) ∨
    ∃ key id, cache.id? index = none ∧ root.child index = .ok (key, id) ∧
      (root.derive index cache).value = (.ok id, cache.insert index id key) := by
  unfold derive
  cases hid : cache.id? index with
  | some id => exact .inl ⟨id, rfl, rfl⟩
  | none =>
    cases hchild : root.child index with
    | error e => exact .inr (.inl ⟨e, rfl, rfl⟩)
    | ok child =>
      obtain ⟨key, id⟩ := child
      exact .inr (.inr ⟨key, id, rfl, rfl, rfl⟩)

theorem derive_sound (hsound : cache.Sound root) (index : UInt32) :
    (root.derive index cache).value.2.Sound root := by
  rcases root.derive_cases index cache with ⟨id, -, h⟩ | ⟨e, -, h⟩ | ⟨key, id, hnew, hchild, h⟩
  · rw [h]
    exact hsound
  · rw [h]
    exact hsound
  · rw [h]
    exact hsound.insert hnew hchild

theorem keeps_derive (root : KeyRoot) (index : UInt32) (cache : KeyCache) :
    cache.Keeps (root.derive index cache).value.2 := by
  rcases root.derive_cases index cache with ⟨id, -, h⟩ | ⟨e, -, h⟩ | ⟨key, id, hnew, -, h⟩
  · rw [h]
    exact .refl cache
  · rw [h]
    exact .refl cache
  · rw [h]
    exact KeyCache.keeps_insert id key hnew

theorem derive_eq_child {index : UInt32} (hsound : cache.Sound root) :
    (root.derive index cache).value.1 = (root.child index).map Prod.snd := by
  rcases root.derive_cases index cache with
    ⟨id, hid, h⟩ | ⟨e, hchild, h⟩ | ⟨key, id, -, hchild, h⟩
  · obtain ⟨⟨key, hchild⟩, -⟩ := hsound.index index id hid
    rw [h, hchild]
    rfl
  · rw [h, hchild]
    rfl
  · rw [h, hchild]
    rfl

theorem id?_derive {index : UInt32} {key : ExtendedKey} {id : Identifier} (hsound : cache.Sound root)
    (hchild : root.child index = .ok (key, id)) :
    (root.derive index cache).value.2.id? index = some id := by
  rcases root.derive_cases index cache with
    ⟨id', hid, h⟩ | ⟨e, hchild', -⟩ | ⟨key', id', -, hchild', h⟩
  · obtain ⟨⟨key', hchild'⟩, -⟩ := hsound.index index id' hid
    rw [hchild] at hchild'
    cases hchild'
    rw [h, hid]
  · rw [hchild] at hchild'
    cases hchild'
  · rw [hchild] at hchild'
    cases hchild'
    rw [h, KeyCache.id?_insert_self]

theorem id?_of_derive {i index : UInt32} {id : Identifier}
    (h : (root.derive index cache).value.2.id? i = some id) :
    cache.id? i = some id ∨ i = index ∧ ∃ key, root.child index = .ok (key, id) := by
  rcases root.derive_cases index cache with
    ⟨id', -, hderive⟩ | ⟨e, -, hderive⟩ | ⟨key, id', -, hchild, hderive⟩
  · rw [hderive] at h
    exact .inl h
  · rw [hderive] at h
    exact .inl h
  · rw [hderive] at h
    by_cases hne : i = index
    · subst hne
      rw [KeyCache.id?_insert_self, Option.some.injEq] at h
      exact .inr ⟨rfl, key, h ▸ hchild⟩
    · rw [KeyCache.id?_insert_of_ne _ _ _ hne] at h
      exact .inl h

theorem derive_new {index : UInt32} {key : ExtendedKey} {id : Identifier}
    (hnew : cache.id? index = none) (hchild : root.child index = .ok (key, id)) :
    (root.derive index cache).value = (.ok id, cache.insert index id key) := by
  simp only [derive, hnew, hchild]
  rfl

theorem derive_insert (root : KeyRoot) (cache : KeyCache) (index : UInt32) (id : Identifier)
    (key : ExtendedKey) :
    (root.derive index (cache.insert index id key)).value =
      (.ok id, cache.insert index id key) := by
  simp only [derive, KeyCache.id?_insert_self]
  rfl

/-- The key of the first child with the identifier, among as many children from the index on. -/
def lookup (root : KeyRoot) (id : Identifier) : Nat → UInt32 → Except KeychainError SecretKey
  | 0, _ => .error (.unknownKeyId id)
  | count + 1, index =>
    match root.child index with
    | .error e => .error e
    | .ok (key, found) =>
      if found = id then .ok key.secretKey else lookup root id count (index + 1)

theorem search_step {id : Identifier} {count : Nat} {index : UInt32} (hsound : cache.Sound root)
    (hnone : cache.key? id = none) :
    (∃ e, root.child index = .error e ∧
      (root.search id (count + 1) index cache).value = (.error e, cache)) ∨
    (∃ key, root.child index = .ok (key, id) ∧ cache.id? index = none ∧
      (root.search id (count + 1) index cache).value =
        (.ok key.secretKey, cache.insert index id key)) ∨
    ∃ key found next, root.child index = .ok (key, found) ∧ found ≠ id ∧
      (cache.id? index = some found ∧ next = cache ∨
        cache.id? index = none ∧ next = cache.insert index found key) ∧
      (root.search id (count + 1) index cache).value =
        (root.search id count (index + 1) next).value := by
  simp only [search, Logged.value_bind]
  rcases root.derive_cases index cache with
    ⟨found, hheld, h⟩ | ⟨e, hchild, h⟩ | ⟨key, found, hnew, hchild, h⟩
  · obtain ⟨⟨key, hchild⟩, held, hkey⟩ := hsound.index index found hheld
    have hne : found ≠ id := by
      rintro rfl
      rw [hnone] at hkey
      cases hkey
    refine .inr (.inr ⟨key, found, cache, hchild, hne, .inl ⟨hheld, rfl⟩, ?_⟩)
    simp only [h, if_neg hne]
  · refine .inl ⟨e, hchild, ?_⟩
    simp only [h]
    rfl
  · by_cases hfound : found = id
    · subst hfound
      refine .inr (.inl ⟨key, hchild, hnew, ?_⟩)
      simp only [h, if_pos]
      simp
    · refine .inr (.inr ⟨key, found, _, hchild, hfound, .inr ⟨hnew, rfl⟩, ?_⟩)
      simp only [h, if_neg hfound]

theorem search_next {id found : Identifier} {key : ExtendedKey} {index : UInt32} {next : KeyCache}
    (hsound : cache.Sound root) (hnone : cache.key? id = none)
    (hchild : root.child index = .ok (key, found)) (hne : found ≠ id)
    (hnext : cache.id? index = some found ∧ next = cache ∨
      cache.id? index = none ∧ next = cache.insert index found key) :
    next.Sound root ∧ next.key? id = none ∧ cache.Keeps next ∧ next.id? index = some found := by
  rcases hnext with ⟨hheld, rfl⟩ | ⟨hnew, rfl⟩
  · exact ⟨hsound, hnone, .refl next, hheld⟩
  · refine ⟨hsound.insert hnew hchild, ?_, KeyCache.keeps_insert found key hnew,
      KeyCache.id?_insert_self ..⟩
    rw [KeyCache.key?_insert_of_ne _ _ _ hne.symm, hnone]

theorem toNat_add_one {index : UInt32} (h : index.toNat + 1 < UInt32.size) :
    (index + 1).toNat = index.toNat + 1 := by
  rw [UInt32.toNat_add]
  exact Nat.mod_eq_of_lt h

theorem le_of_lt_add_one {i index : UInt32} (h : index.toNat + 1 < UInt32.size)
    (hi : i < index + 1) : i < index ∨ i = index := by
  rw [UInt32.lt_iff_toNat_lt, toNat_add_one h] at hi
  rw [UInt32.lt_iff_toNat_lt, ← UInt32.toNat_inj]
  omega

theorem count_step {count : Nat} {index : UInt32}
    (hcount : index.toNat + (count + 1) = root.config.keySearchLimit.toNat) :
    index < root.config.keySearchLimit ∧ index.toNat + 1 < UInt32.size ∧
      (index + 1).toNat + count = root.config.keySearchLimit.toNat := by
  have hlimit := root.config.keySearchLimit.toNat_lt
  have hsmall : index.toNat + 1 < UInt32.size := by
    change index.toNat + 1 < 2 ^ 32
    omega
  have hstep := toNat_add_one hsmall
  exact ⟨UInt32.lt_iff_toNat_lt.mpr (by omega), hsmall, by omega⟩

theorem Searched.of_forall_lt {index : UInt32} (hindex : index < root.config.keySearchLimit)
    (hbelow : ∀ i < index, ∃ child, root.child i = .ok child) {child}
    (hchild : root.child index = .ok child) : root.Searched index := by
  refine ⟨hindex, fun i hi ↦ ?_⟩
  rcases UInt32.lt_or_eq_of_le hi with hlt | rfl
  · exact hbelow i hlt
  · exact ⟨child, hchild⟩

theorem search_spec {id : Identifier} {count : Nat} {index : UInt32} (hsound : cache.Sound root)
    (hnone : cache.key? id = none)
    (hcount : index.toNat + count = root.config.keySearchLimit.toNat)
    (hbelow : ∀ i < index, ∃ child, root.child i = .ok child) :
    (root.search id count index cache).value.1 = root.lookup id count index ∧
    (root.search id count index cache).value.2.Sound root ∧
    root.Grown cache (root.search id count index cache).value.2 := by
  induction count generalizing index cache with
  | zero => exact ⟨rfl, hsound, .refl root cache⟩
  | succ count ih =>
    obtain ⟨hindex, hsmall, hnextCount⟩ := count_step hcount
    rcases @search_step root cache id count index hsound hnone with
      ⟨e, hchild, h⟩ | ⟨key, hchild, hnew, h⟩ | ⟨key, found, next, hchild, hne, hnext, h⟩
    · rw [h]
      refine ⟨?_, hsound, .refl root cache⟩
      simp only [lookup, hchild]
    · rw [h]
      refine ⟨?_, hsound.insert hnew hchild,
        .insert key hnew (.of_forall_lt hindex hbelow hchild)⟩
      simp only [lookup, hchild, if_pos]
    · have hbelow' : ∀ i < index + 1, ∃ child, root.child i = .ok child := by
        intro i hi
        rcases le_of_lt_add_one hsmall hi with hlt | rfl
        · exact hbelow i hlt
        · exact ⟨_, hchild⟩
      obtain ⟨hnextSound, hnextNone, -, -⟩ := search_next hsound hnone hchild hne hnext
      have hgrown : root.Grown cache next := by
        rcases hnext with ⟨-, rfl⟩ | ⟨hnew, rfl⟩
        · exact .refl root next
        · exact .insert key hnew (.of_forall_lt hindex hbelow hchild)
      obtain ⟨hvalue, hrest, hrestGrown⟩ := ih hnextSound hnextNone hnextCount hbelow'
      rw [h]
      refine ⟨?_, hrest, hgrown.trans hrestGrown⟩
      rw [hvalue]
      simp only [lookup, hchild, if_neg hne]

/-- The key that an identifier names while the cache is as it is. -/
def find (root : KeyRoot) (cache : KeyCache) (id : Identifier) : Except KeychainError SecretKey :=
  if id = root.id then .ok root.key.secretKey
  else
    match cache.key? id with
    | some key => .ok key.secretKey
    | none => root.lookup id root.config.keySearchLimit.toNat 0

theorem resolve_spec (hsound : cache.Sound root) (id : Identifier) :
    (root.resolve id cache).value.1 = root.find cache id ∧
    (root.resolve id cache).value.2.Sound root ∧
    root.Grown cache (root.resolve id cache).value.2 := by
  unfold resolve find
  by_cases hroot : id = root.id
  · rw [if_pos hroot, if_pos hroot]
    exact ⟨rfl, hsound, .refl root cache⟩
  · rw [if_neg hroot, if_neg hroot]
    cases hkey : cache.key? id with
    | some key => exact ⟨rfl, hsound, .refl root cache⟩
    | none =>
      refine search_spec hsound hkey (by simp) fun i hi ↦ ?_
      rw [UInt32.lt_iff_toNat_lt] at hi
      cases hi

def names (root : KeyRoot) (cache : KeyCache) (id : Identifier) : Except KeychainError SecretKey :=
  (root.resolve id cache).value.1

/-- The indices that the cache holds or that a search may come to. -/
def Known (root : KeyRoot) (cache : KeyCache) (index : UInt32) : Prop :=
  (∃ id, cache.id? index = some id) ∨ index < root.config.keySearchLimit

def DistinctChildren (root : KeyRoot) (cache : KeyCache) : Prop :=
  ∀ i j, root.Known cache i → root.Known cache j → ∀ key key' id,
    root.child i = .ok (key, id) → root.child j = .ok (key', id) → i = j

theorem lookup_eq_ok {id : Identifier} {key : ExtendedKey} {i : UInt32}
    (hchild : root.child i = .ok (key, id))
    (hbefore : ∀ j < i, ∃ key' id', root.child j = .ok (key', id') ∧ id' ≠ id) {count : Nat}
    {index : UInt32} (hindex : index ≤ i) (hcount : i.toNat < index.toNat + count) :
    root.lookup id count index = .ok key.secretKey := by
  induction count generalizing index with
  | zero =>
    rw [UInt32.le_iff_toNat_le] at hindex
    omega
  | succ count ih =>
    rcases UInt32.lt_or_eq_of_le hindex with hlt | rfl
    · obtain ⟨key', id', hchild', hne⟩ := hbefore index hlt
      rw [UInt32.lt_iff_toNat_lt] at hlt
      have hstep := toNat_add_one (Nat.lt_of_le_of_lt hlt i.toNat_lt)
      simp only [lookup, hchild', if_neg hne]
      exact ih (by rw [UInt32.le_iff_toNat_le]; omega) (by omega)
    · simp only [lookup, hchild, if_pos]

/-- As long as no child fails, a search fails by coming to its end. -/
theorem lookup_eq_error {id : Identifier} {e : KeychainError}
    (hderived : ∀ i < root.config.keySearchLimit, ∃ child, root.child i = .ok child) {count : Nat}
    {index : UInt32} (hcount : index.toNat + count = root.config.keySearchLimit.toNat)
    (h : root.lookup id count index = .error e) : e = .unknownKeyId id := by
  induction count generalizing index with
  | zero =>
    cases h
    rfl
  | succ count ih =>
    obtain ⟨hindex, -, hnextCount⟩ := count_step hcount
    obtain ⟨⟨key, found⟩, hchild⟩ := hderived index hindex
    simp only [lookup, hchild] at h
    split at h
    · cases h
    · exact ih hnextCount h

theorem names_eq_error {id : Identifier} {e : KeychainError} (hsound : cache.Sound root)
    (hderived : ∀ i < root.config.keySearchLimit, ∃ child, root.child i = .ok child)
    (h : root.names cache id = .error e) : e = .unknownKeyId id := by
  rw [names, (resolve_spec hsound id).1] at h
  unfold find at h
  split at h
  · cases h
  · split at h
    · cases h
    · exact lookup_eq_error hderived (by simp) h

theorem lookup_of_searched {id : Identifier} {key : ExtendedKey} {i : UInt32}
    (hdistinct : root.DistinctChildren cache) (hchild : root.child i = .ok (key, id))
    (hsearched : root.Searched i) :
    root.lookup id root.config.keySearchLimit.toNat 0 = .ok key.secretKey := by
  refine lookup_eq_ok hchild (fun j hj ↦ ?_) ?_ ?_
  · obtain ⟨⟨key', id'⟩, hchild'⟩ := hsearched.2 j (UInt32.le_of_lt hj)
    refine ⟨key', id', hchild', ?_⟩
    rintro rfl
    have hknown : root.Known cache j := .inr (UInt32.lt_trans hj hsearched.1)
    obtain rfl := hdistinct i j (.inr hsearched.1) hknown _ _ _ hchild hchild'
    exact absurd hj (UInt32.lt_irrefl i)
  · rw [UInt32.le_iff_toNat_le]
    exact Nat.zero_le _
  · have := UInt32.lt_iff_toNat_lt.mp hsearched.1
    simpa using this

/-- An identifier names the same key when the cache has grown. -/
theorem find_of_grown {before after : KeyCache} (hbefore : before.Sound root)
    (hafter : after.Sound root) (hgrown : root.Grown before after)
    (hdistinct : root.DistinctChildren before) : root.find after = root.find before := by
  funext id
  unfold find
  by_cases hroot : id = root.id
  · rw [if_pos hroot, if_pos hroot]
  rw [if_neg hroot, if_neg hroot]
  cases hkey : after.key? id with
  | some key =>
    obtain ⟨i, hi, hchild⟩ := hafter.key id key hkey
    cases hold : before.key? id with
    | some oldKey =>
      obtain ⟨j, hj, hchild'⟩ := hbefore.key id oldKey hold
      have hknown : root.Known before i := by
        rcases hgrown.adds i id hi with hi | hi
        · exact .inl ⟨id, hi⟩
        · exact .inr hi.1
      obtain rfl := hdistinct i j hknown (.inl ⟨id, hj⟩) _ _ _ hchild hchild'
      rw [hchild] at hchild'
      cases hchild'
      rfl
    | none =>
      have hsearched : root.Searched i := by
        rcases hgrown.adds i id hi with hi | hi
        · obtain ⟨-, oldKey, hcontra⟩ := hbefore.index i id hi
          rw [hold] at hcontra
          cases hcontra
        · exact hi
      exact (lookup_of_searched hdistinct hchild hsearched).symm
  | none =>
    cases hold : before.key? id with
    | some oldKey =>
      obtain ⟨j, hj, -⟩ := hbefore.key id oldKey hold
      obtain ⟨-, newKey, hnew⟩ := hafter.index j id (hgrown.keeps j id hj)
      rw [hkey] at hnew
      cases hnew
    | none => rfl

theorem names_of_grown {before after : KeyCache} (hbefore : before.Sound root)
    (hafter : after.Sound root) (hgrown : root.Grown before after)
    (hdistinct : root.DistinctChildren before) : root.names after = root.names before := by
  funext id
  rw [names, names, (resolve_spec hafter id).1, (resolve_spec hbefore id).1,
    find_of_grown hbefore hafter hgrown hdistinct]

/-- A root key with which no child has been derived, and none is searched for. -/
def lone : KeyRoot :=
  ⟨⟨0, 0, .zero, FixedBytes.zero, ⟨1, by decide⟩⟩, .default⟩

theorem distinctChildren_lone : lone.DistinctChildren .empty := by
  intro i j hi
  rcases hi with ⟨id, hid⟩ | hlimit
  · cases hid
  · exact absurd hlimit (by simp [lone, KeychainConfig.default])

end KeyRoot

end ConfidentialTx
