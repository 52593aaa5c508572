import Mathlib
import ConfidentialTx.Proofs.Keychain.Replay

namespace ConfidentialTx

namespace KeyCache

theorem Keeps.held_subset {first second : KeyCache} (h : first.Keeps second) :
    first.held ⊆ second.held := by
  rintro i ⟨id, hid⟩
  exact ⟨id, h i id hid⟩

end KeyCache

namespace KeyRoot

variable {root : KeyRoot} {solo solo' cache cache' : KeyCache} {index : UInt32} {id : Identifier}

theorem keeps_resolve (hsound : cache.Sound root) (id : Identifier) :
    cache.Keeps (root.resolve id cache).value.2 :=
  (resolve_spec hsound id).2.2.keeps

theorem exists_resolve_insert (root : KeyRoot) (cache : KeyCache) (index : UInt32)
    (id : Identifier) (key : ExtendedKey) :
    ∃ found, (root.resolve id (cache.insert index id key)).value =
      (.ok found, cache.insert index id key) := by
  by_cases hroot : id = root.id
  · refine ⟨root.key.secretKey, ?_⟩
    rw [resolve, if_pos hroot]
    rfl
  · refine ⟨key.secretKey, ?_⟩
    simp only [resolve, if_neg hroot, KeyCache.key?_insert_self]
    rfl

/-- A search may come to the index, and the children up to it are all held. -/
def FilledTo (root : KeyRoot) (cache : KeyCache) (index : UInt32) : Prop :=
  index < root.config.keySearchLimit ∧ ∀ j ≤ index, j ∈ cache.held

theorem FilledTo.mono (h : root.FilledTo solo index) (hkeeps : solo.Keeps solo') :
    root.FilledTo solo' index :=
  ⟨h.1, fun j hj ↦ hkeeps.held_subset (h.2 j hj)⟩

/-- What the first cache holds the second holds too, or else a search leads there. -/
def Within (root : KeyRoot) (solo cache : KeyCache) : Prop :=
  ∀ i id, solo.id? i = some id → cache.id? i = some id ∨ root.FilledTo solo i

theorem Within.refl (root : KeyRoot) (cache : KeyCache) : root.Within cache cache :=
  fun _ _ h ↦ .inl h

theorem Within.keeps (h : root.Within solo cache) (hkeeps : cache.Keeps cache') :
    root.Within solo cache' :=
  fun i id hi ↦ (h i id hi).imp_left (hkeeps i id)

theorem Within.trans (h : root.Within solo' solo) (hkeeps : solo.Keeps solo')
    (hcache : root.Within solo cache) : root.Within solo' cache := by
  intro i id hi
  rcases h i id hi with hheld | hfilled
  · exact (hcache i id hheld).imp_right fun hfilled ↦ hfilled.mono hkeeps
  · exact .inr hfilled

theorem Within.derive (h : root.Within solo cache) (hcache : cache.Sound root) (index : UInt32) :
    root.Within (root.derive index solo).value.2 (root.derive index cache).value.2 := by
  intro i id hi
  rcases id?_of_derive hi with hold | ⟨rfl, key, hchild⟩
  · exact (h.keeps (root.keeps_derive index cache) i id hold).imp_right fun hfilled ↦
      hfilled.mono (root.keeps_derive index solo)
  · exact .inl (id?_derive hcache hchild)

theorem within_insert (key : ExtendedKey) (hnew : cache.id? index = none)
    (hindex : index < root.config.keySearchLimit) (hbelow : ∀ j < index, j ∈ cache.held) :
    root.Within (cache.insert index id key) cache := by
  intro i id' hi
  by_cases hne : i = index
  · subst hne
    refine .inr ⟨hindex, fun j hj ↦ ?_⟩
    rcases UInt32.lt_or_eq_of_le hj with hlt | rfl
    · exact (KeyCache.keeps_insert id key hnew).held_subset (hbelow j hlt)
    · exact ⟨id', hi⟩
  · rw [KeyCache.id?_insert_of_ne _ _ _ hne] at hi
    exact .inl hi

theorem search_within {count : Nat} (hsound : cache.Sound root) (hnone : cache.key? id = none)
    (hcount : index.toNat + count = root.config.keySearchLimit.toNat)
    (hbelow : ∀ j < index, j ∈ cache.held) :
    root.Within (root.search id count index cache).value.2 cache := by
  induction count generalizing index cache with
  | zero => exact .refl root cache
  | succ count ih =>
    obtain ⟨hindex, hsmall, hnextCount⟩ := count_step hcount
    rcases @search_step root cache id count index hsound hnone with
      ⟨e, -, h⟩ | ⟨key, -, hnew, h⟩ | ⟨key, found, next, hchild, hne, hnext, h⟩
    · rw [h]
      exact .refl root cache
    · rw [h]
      exact within_insert key hnew hindex hbelow
    · obtain ⟨hnextSound, hnextNone, hkeeps, hheld⟩ := search_next hsound hnone hchild hne hnext
      have hwithin : root.Within next cache := by
        rcases hnext with ⟨-, rfl⟩ | ⟨hnew, rfl⟩
        · exact .refl root next
        · exact within_insert key hnew hindex hbelow
      have hnextBelow : ∀ j < index + 1, j ∈ next.held := by
        intro j hj
        rcases le_of_lt_add_one hsmall hj with hlt | rfl
        · exact hkeeps.held_subset (hbelow j hlt)
        · exact ⟨found, hheld⟩
      have hderived : ∀ j < index + 1, ∃ child, root.child j = .ok child := by
        intro j hj
        obtain ⟨found, hheld⟩ := hnextBelow j hj
        obtain ⟨⟨key, hkey⟩, -⟩ := hnextSound.index j found hheld
        exact ⟨_, hkey⟩
      have hrest := ih hnextSound hnextNone hnextCount hnextBelow
      have hgrown := (search_spec hnextSound hnextNone hnextCount hderived).2.2
      rw [h]
      exact hrest.trans hgrown.keeps hwithin

theorem resolve_within (hsound : cache.Sound root) (id : Identifier) :
    root.Within (root.resolve id cache).value.2 cache := by
  unfold resolve
  by_cases hroot : id = root.id
  · rw [if_pos hroot]
    exact .refl root cache
  · rw [if_neg hroot]
    cases hkey : cache.key? id with
    | some key => exact .refl root cache
    | none =>
      refine search_within hsound hkey (by simp) fun j hj ↦ ?_
      rw [UInt32.lt_iff_toNat_lt] at hj
      cases hj

/-- An identifier that leads to a key in one cache leads to it in the other. -/
theorem resolve_of_within {key : SecretKey} (hsolo : solo.Sound root) (hcache : cache.Sound root)
    (hwithin : root.Within solo cache)
    (hdistinct : root.Distinct (cache.held ∪ (root.resolve id solo).value.2.held))
    (h : (root.resolve id solo).value.1 = .ok key) :
    (root.resolve id cache).value.1 = .ok key ∧
      root.Within (root.resolve id solo).value.2 (root.resolve id cache).value.2 := by
  have hafter : root.Within (root.resolve id solo).value.2 cache :=
    (resolve_within hsolo id).trans (keeps_resolve hsolo id) hwithin
  refine ⟨?_, hafter.keeps (keeps_resolve hcache id)⟩
  rw [(resolve_spec hcache id).1]
  by_cases hroot : id = root.id
  · rw [resolve, if_pos hroot] at h
    rw [find, if_pos hroot]
    exact h
  · obtain ⟨found, hfound, rfl⟩ := resolve_eq_ok hroot h
    have hsolo' := (resolve_spec hsolo id).2.1
    obtain ⟨i, hi, hchild⟩ := hsolo'.key id found hfound
    rw [find, if_neg hroot]
    cases hkey : cache.key? id with
    | some key =>
      obtain ⟨j, hj, hchild'⟩ := hcache.key id key hkey
      obtain rfl := hdistinct i (.inr ⟨id, hi⟩) j (.inl ⟨id, hj⟩) _ _ _ hchild hchild'
      rw [hchild] at hchild'
      cases hchild'
      rfl
    | none =>
      -- The child came in by a search, so a search here goes by the same children before it.
      have hfilled : root.FilledTo (root.resolve id solo).value.2 i := by
        rcases hafter i id hi with hheld | hfilled
        · obtain ⟨-, key, hcontra⟩ := hcache.index i id hheld
          rw [hkey] at hcontra
          cases hcontra
        · exact hfilled
      have hfirst : 0 ≤ i := UInt32.le_iff_toNat_le.mpr (Nat.zero_le _)
      refine lookup_eq_ok hchild (fun j hj ↦ ?_) hfirst ?_
      · obtain ⟨id', hid'⟩ := hfilled.2 j (UInt32.le_of_lt hj)
        obtain ⟨⟨key', hchild'⟩, -⟩ := hsolo'.index j id' hid'
        refine ⟨key', id', hchild', ?_⟩
        rintro rfl
        obtain rfl := hdistinct j (.inr ⟨id', hid'⟩) i (.inr ⟨id', hi⟩) _ _ _ hchild' hchild
        exact UInt32.lt_irrefl j hj
      · simpa using UInt32.lt_iff_toNat_lt.mp hfilled.1

end KeyRoot

end ConfidentialTx
