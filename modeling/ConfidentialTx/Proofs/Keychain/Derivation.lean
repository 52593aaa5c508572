import Mathlib
import ConfidentialTx.Keychain.ExtendedKey
import ConfidentialTx.Proofs.Results
import ConfidentialTx.Proofs.Signature.Completeness

namespace ConfidentialTx

theorem Scalar.eq_zero_iff {a : Scalar} : a = 0 ↔ a.val = 0 :=
  ⟨fun h ↦ h ▸ rfl, fun h ↦ Residue.ext (h.trans rfl)⟩

namespace SecretKey

variable {key : SecretKey}

theorem val_pos (key : SecretKey) : 0 < key.scalar.val :=
  Nat.pos_of_ne_zero fun h ↦ key.ne_zero (Scalar.eq_zero_iff.mpr h)

theorem exists_ofBytes {bs : Bytes} (hlength : bs.length = 32) (hzero : bs.toNat ≠ 0)
    (hlt : bs.toNat < groupOrder) : ∃ key, ofBytes bs = .ok key ∧ key.scalar.val = bs.toNat := by
  have hne : (⟨bs.toNat, hlt⟩ : Scalar) ≠ 0 := fun h ↦ hzero (Scalar.eq_zero_iff.mp h)
  refine ⟨⟨⟨bs.toNat, hlt⟩, hne⟩, ?_, rfl⟩
  simp [ofBytes, FixedBytes.ofList?, Scalar.ofBytes?, FixedBytes.toNat, ofScalar?, hlength, hlt, hne]

theorem ofBytes_of_not {bs : Bytes} (hlength : bs.length = 32)
    (h : bs.toNat = 0 ∨ groupOrder ≤ bs.toNat) : ofBytes bs = .error .invalidSecretKey := by
  by_cases hlt : bs.toNat < groupOrder
  · have hzero : (⟨bs.toNat, hlt⟩ : Scalar) = 0 :=
      Scalar.eq_zero_iff.mpr (h.resolve_right (Nat.not_le_of_lt hlt))
    simp [ofBytes, FixedBytes.ofList?, Scalar.ofBytes?, FixedBytes.toNat, ofScalar?, hlength, hlt,
      hzero]
  · simp [ofBytes, FixedBytes.ofList?, Scalar.ofBytes?, FixedBytes.toNat, hlength, hlt]

theorem exists_tweakAdd {tweak : FixedBytes 32} (htweak : tweak.toNat < groupOrder)
    (hsum : (key.scalar.val + tweak.toNat) % groupOrder ≠ 0) :
    ∃ sum, key.tweakAdd tweak = .ok sum ∧
      sum.scalar.val = (key.scalar.val + tweak.toNat) % groupOrder := by
  have hval := Residue.val_add key.scalar ⟨tweak.toNat, htweak⟩
  have hne : key.scalar + ⟨tweak.toNat, htweak⟩ ≠ 0 := by
    intro h
    exact hsum (hval.symm.trans (Scalar.eq_zero_iff.mp h))
  refine ⟨⟨_, hne⟩, ?_, hval⟩
  simp [tweakAdd, Scalar.ofBytes?, ofScalar?, htweak, hne]

theorem tweakAdd_of_not {tweak : FixedBytes 32}
    (h : groupOrder ≤ tweak.toNat ∨ (key.scalar.val + tweak.toNat) % groupOrder = 0) :
    key.tweakAdd tweak = .error .invalidSecretKey := by
  by_cases htweak : tweak.toNat < groupOrder
  · have hval := Residue.val_add key.scalar ⟨tweak.toNat, htweak⟩
    have hzero : key.scalar + ⟨tweak.toNat, htweak⟩ = 0 :=
      Scalar.eq_zero_iff.mpr (hval.trans (h.resolve_left (Nat.not_le_of_lt htweak)))
    simp [tweakAdd, Scalar.ofBytes?, ofScalar?, htweak, hzero]
  · simp [tweakAdd, Scalar.ofBytes?, htweak]

end SecretKey

namespace ExtendedKey

variable {cap : Capability} {key parent child : ExtendedKey} {index : UInt32} {seed : Bytes}

theorem exists_identifier (hcap : cap.canSign = true) (key : ExtendedKey) :
    ∃ id, key.identifier cap = .ok id := by
  obtain ⟨pub, hpub, -⟩ := key.secretKey.exists_publicKey hcap
  exact ⟨.ofPublicKey pub.compress, by rw [identifier, hpub]⟩

theorem identifier_of_cannot (hcap : cap.canSign = false) (key : ExtendedKey) :
    key.identifier cap = .error (.curve .incapableContext) := by
  rw [identifier, SecretKey.publicKey, Capability.requireSign, hcap]
  rfl

theorem identifier_bind_eq_error_iff {f : Identifier → ExtendedKey} {e : KeychainError} :
    (key.identifier cap >>= fun id ↦ .ok (f id)) = .error e ↔
      (if cap.canSign then none else some (.curve .incapableContext)) = some e := by
  by_cases hcap : cap.canSign = true
  · obtain ⟨id, hid⟩ := exists_identifier hcap key
    rw [if_pos hcap, hid, ok_bind]
    exact iff_of_false (fun h ↦ by cases h) (fun h ↦ by cases h)
  · have hid := identifier_of_cannot (Bool.eq_false_of_not_eq_true hcap) key
    rw [if_neg hcap, hid, error_bind, Except.error.injEq, Option.some.injEq]

def tweak (key : ExtendedKey) (index : UInt32) : Nat :=
  Bytes.toNat ((key.childMaterial index).toList.take 32)

/-- The secret of a child as a number. No child has zero. -/
def childSecret (key : ExtendedKey) (index : UInt32) : Nat :=
  (key.secretKey.scalar.val + key.tweak index) % groupOrder

/-- A key and its child at an index. -/
structure IsChild (cap : Capability) (parent : ExtendedKey) (index : UInt32) (child : ExtendedKey) :
    Prop where
  depth_eq : child.depth.toNat = parent.depth.toNat + 1
  childIndex_eq : child.childIndex = index
  rootKeyId_eq : parent.identifier cap = .ok child.rootKeyId
  tweak_lt : parent.tweak index < groupOrder
  secret_eq : child.secretKey.scalar.val = parent.childSecret index
  chainCode_eq : child.chainCode.toList = (parent.childMaterial index).toList.drop 32

theorem childMaterial_eq (key : ExtendedKey) (index : UInt32) :
    key.childMaterial index = Blake2b.keyedHash 64 (.ofFixed key.chainCode)
      [key.secretKey.toBytes.toList ++ Bytes.bigEndian 4 index.toNat] := by
  simp only [childMaterial, Blake2b.keyedHash, Blake2b.Hasher.foldl_update]
  rfl

theorem length_take_material (material : FixedBytes 64) : (material.toList.take 32).length = 32 := by
  rw [List.length_take, material.length_toList]
  rfl

theorem length_drop_material (material : FixedBytes 64) : (material.toList.drop 32).length = 32 := by
  rw [List.length_drop, material.length_toList]

theorem toNat_fit_tweak (key : ExtendedKey) (index : UInt32) :
    (.fit ((key.childMaterial index).toList.take 32) : FixedBytes 32).toNat = key.tweak index := by
  rw [FixedBytes.toNat, FixedBytes.toList_fit (length_take_material _)]
  rfl

theorem toNat_add_one {depth : UInt8} (h : depth ≠ 255) : (depth + 1).toNat = depth.toNat + 1 := by
  have hlt := depth.toNat_lt
  have hne : depth.toNat ≠ 255 := fun hmax ↦ h (UInt8.toNat_inj.mp hmax)
  rw [UInt8.toNat_add]
  exact Nat.mod_eq_of_lt (by simp; omega)

theorem derive_of_depth (hdepth : key.depth = 255) : derive cap key index = .error .depthOverflow := by
  simp only [derive, if_pos hdepth]
  rfl

theorem derive_of_refused (hdepth : key.depth ≠ 255)
    (h : groupOrder ≤ key.tweak index ∨ key.childSecret index = 0) :
    derive cap key index = .error .invalidSecretKey := by
  rw [childSecret, ← toNat_fit_tweak] at h
  simp only [derive, if_neg hdepth, SecretKey.tweakAdd_of_not h]
  rfl

/-- What is left of a derivation that is not refused depends on the parent's identifier alone. -/
theorem exists_derive_eq (hdepth : key.depth ≠ 255) (htweak : key.tweak index < groupOrder)
    (hsum : key.childSecret index ≠ 0) :
    ∃ secretKey : SecretKey, secretKey.scalar.val = key.childSecret index ∧
      ∀ cap, derive cap key index = key.identifier cap >>= fun id ↦ .ok
        ⟨key.depth + 1, index, id, .fit ((key.childMaterial index).toList.drop 32), secretKey⟩ := by
  rw [childSecret] at hsum ⊢
  rw [← toNat_fit_tweak] at htweak hsum ⊢
  obtain ⟨secretKey, hadd, hval⟩ := SecretKey.exists_tweakAdd htweak hsum
  refine ⟨secretKey, hval, fun cap ↦ ?_⟩
  simp only [derive, if_neg hdepth, hadd]
  rfl

/-- All that a derivation does, and all that it takes. -/
theorem derive_eq_ok_iff : derive cap parent index = .ok child ↔ IsChild cap parent index child := by
  constructor
  · intro h
    have hdepth : parent.depth ≠ 255 := by
      intro hdepth
      rw [derive_of_depth hdepth] at h
      cases h
    have hpasses : ¬(groupOrder ≤ parent.tweak index ∨ parent.childSecret index = 0) := by
      intro hrefused
      rw [derive_of_refused hdepth hrefused] at h
      cases h
    have htweak := Nat.lt_of_not_le (not_or.mp hpasses).1
    obtain ⟨secretKey, hsecret, hderive⟩ := exists_derive_eq hdepth htweak (not_or.mp hpasses).2
    rw [hderive] at h
    obtain ⟨id, hid, h⟩ := bind_eq_ok_iff.mp h
    cases h
    exact ⟨toNat_add_one hdepth, rfl, hid, htweak, hsecret,
      FixedBytes.toList_fit (length_drop_material _)⟩
  · rintro ⟨hdepth, rfl, hid, htweak, hsecret, hchain⟩
    have hparent : parent.depth ≠ 255 := by
      intro h
      have hlt := child.depth.toNat_lt
      rw [hdepth, h] at hlt
      exact absurd hlt (by decide)
    have hsum : parent.childSecret child.childIndex ≠ 0 := hsecret ▸ child.secretKey.val_pos.ne'
    obtain ⟨secretKey, hval, hderive⟩ := exists_derive_eq hparent htweak hsum
    have hsame : secretKey = child.secretKey :=
      SecretKey.ext (Residue.ext (hval.trans hsecret.symm))
    have hnext : parent.depth + 1 = child.depth :=
      UInt8.toNat_inj.mp ((toNat_add_one hparent).trans hdepth.symm)
    rw [hderive, hid, ok_bind, ← hchain, FixedBytes.fit_toList, hsame, hnext]

/-- The first reason for which a key has no child at an index. -/
def deriveError? (cap : Capability) (key : ExtendedKey) (index : UInt32) : Option KeychainError :=
  if key.depth = 255 then some .depthOverflow
  else if groupOrder ≤ key.tweak index ∨ key.childSecret index = 0 then some .invalidSecretKey
  else if cap.canSign then none
  else some (.curve .incapableContext)

theorem derive_eq_error_iff {e : KeychainError} :
    derive cap key index = .error e ↔ deriveError? cap key index = some e := by
  unfold deriveError?
  by_cases hdepth : key.depth = 255
  · rw [if_pos hdepth, derive_of_depth hdepth, Except.error.injEq, Option.some.injEq]
  rw [if_neg hdepth]
  by_cases hrefused : groupOrder ≤ key.tweak index ∨ key.childSecret index = 0
  · rw [if_pos hrefused, derive_of_refused hdepth hrefused, Except.error.injEq, Option.some.injEq]
  obtain ⟨hnlt, hsum⟩ := not_or.mp hrefused
  obtain ⟨secretKey, -, hderive⟩ := exists_derive_eq hdepth (Nat.lt_of_not_le hnlt) hsum
  rw [if_neg hrefused, hderive]
  exact identifier_bind_eq_error_iff

def seedMaterial (seed : Bytes) : FixedBytes 64 :=
  Blake2b.keyedHash 64 seedKey [seed]

def seedSecret (seed : Bytes) : Nat :=
  Bytes.toNat ((seedMaterial seed).toList.take 32)

/-- The root key of a seed. Its parent is the key itself. -/
structure IsRoot (cap : Capability) (seed : Bytes) (key : ExtendedKey) : Prop where
  length_mem : seed.length ∈ [16, 32, 64]
  depth_eq : key.depth = 0
  childIndex_eq : key.childIndex = 0
  rootKeyId_eq : key.identifier cap = .ok key.rootKeyId
  secret_eq : key.secretKey.scalar.val = seedSecret seed
  chainCode_eq : key.chainCode.toList = (seedMaterial seed).toList.drop 32

theorem ofSeed_of_length (hlength : seed.length ∉ [16, 32, 64]) :
    ofSeed cap seed = .error (.invalidSeedSize seed.length) := by
  simp only [ofSeed, if_neg hlength]
  rfl

theorem ofSeed_of_refused (hlength : seed.length ∈ [16, 32, 64])
    (h : seedSecret seed = 0 ∨ groupOrder ≤ seedSecret seed) :
    ofSeed cap seed = .error .invalidSecretKey := by
  have hkey := SecretKey.ofBytes_of_not (length_take_material (seedMaterial seed)) h
  rw [seedMaterial] at hkey
  simp only [ofSeed, if_pos hlength, hkey]
  rfl

theorem exists_ofSeed_eq (hlength : seed.length ∈ [16, 32, 64]) (hzero : seedSecret seed ≠ 0)
    (hlt : seedSecret seed < groupOrder) :
    ∃ secretKey : SecretKey, secretKey.scalar.val = seedSecret seed ∧
      ∀ cap, ofSeed cap seed =
        (seeded secretKey (.fit ((seedMaterial seed).toList.drop 32))).identifier cap >>= fun id ↦
          .ok ⟨0, 0, id, .fit ((seedMaterial seed).toList.drop 32), secretKey⟩ := by
  obtain ⟨secretKey, hkey, hval⟩ :=
    SecretKey.exists_ofBytes (length_take_material (seedMaterial seed)) hzero hlt
  rw [seedMaterial] at hkey
  refine ⟨secretKey, hval, fun cap ↦ ?_⟩
  simp only [ofSeed, if_pos hlength, hkey]
  rfl

theorem ofSeed_eq_ok_iff : ofSeed cap seed = .ok key ↔ IsRoot cap seed key := by
  constructor
  · intro h
    have hlength : seed.length ∈ [16, 32, 64] := by
      by_contra hlength
      rw [ofSeed_of_length hlength] at h
      cases h
    have hpasses : ¬(seedSecret seed = 0 ∨ groupOrder ≤ seedSecret seed) := by
      intro hrefused
      rw [ofSeed_of_refused hlength hrefused] at h
      cases h
    have hlt := Nat.lt_of_not_le (not_or.mp hpasses).2
    obtain ⟨secretKey, hsecret, hseed⟩ := exists_ofSeed_eq hlength (not_or.mp hpasses).1 hlt
    rw [hseed] at h
    obtain ⟨id, hid, h⟩ := bind_eq_ok_iff.mp h
    cases h
    exact ⟨hlength, rfl, rfl, hid, hsecret, FixedBytes.toList_fit (length_drop_material _)⟩
  · rintro ⟨hlength, hdepth, hindex, hid, hsecret, hchain⟩
    have hlt : seedSecret seed < groupOrder := hsecret ▸ key.secretKey.scalar.val_lt
    have hzero : seedSecret seed ≠ 0 := hsecret ▸ key.secretKey.val_pos.ne'
    obtain ⟨secretKey, hval, hseed⟩ := exists_ofSeed_eq hlength hzero hlt
    have hsame : secretKey = key.secretKey := SecretKey.ext (Residue.ext (hval.trans hsecret.symm))
    have hidentifier : (seeded secretKey (.fit ((seedMaterial seed).toList.drop 32))).identifier cap =
        .ok key.rootKeyId := by
      rw [← hid, identifier, identifier, seeded, hsame]
    rw [hseed, hidentifier, ok_bind, ← hchain, FixedBytes.fit_toList, hsame, ← hdepth, ← hindex]

/-- The first reason for which a seed has no root key. -/
def seedError? (cap : Capability) (seed : Bytes) : Option KeychainError :=
  if seed.length ∉ [16, 32, 64] then some (.invalidSeedSize seed.length)
  else if seedSecret seed = 0 ∨ groupOrder ≤ seedSecret seed then some .invalidSecretKey
  else if cap.canSign then none
  else some (.curve .incapableContext)

theorem ofSeed_eq_error_iff {e : KeychainError} :
    ofSeed cap seed = .error e ↔ seedError? cap seed = some e := by
  unfold seedError?
  by_cases hlength : seed.length ∈ [16, 32, 64]
  · rw [if_neg (not_not_intro hlength)]
    by_cases hrefused : seedSecret seed = 0 ∨ groupOrder ≤ seedSecret seed
    · rw [if_pos hrefused, ofSeed_of_refused hlength hrefused, Except.error.injEq,
        Option.some.injEq]
    obtain ⟨hzero, hnlt⟩ := not_or.mp hrefused
    obtain ⟨secretKey, -, hseed⟩ := exists_ofSeed_eq hlength hzero (Nat.lt_of_not_le hnlt)
    rw [if_neg hrefused, hseed]
    exact identifier_bind_eq_error_iff
  · rw [if_pos hlength, ofSeed_of_length hlength, Except.error.injEq, Option.some.injEq]

def descend (cap : Capability) (key : ExtendedKey) (path : List UInt32) :
    Except KeychainError ExtendedKey :=
  path.foldlM (derive cap) key

def ofPath (cap : Capability) (seed : Bytes) (path : List UInt32) :
    Except KeychainError ExtendedKey := do
  let root ← ofSeed cap seed
  root.descend cap path

theorem descend_append (cap : Capability) (key : ExtendedKey) (front path : List UInt32) :
    key.descend cap (front ++ path) = key.descend cap front >>= fun key ↦ key.descend cap path :=
  List.foldlM_append

theorem descend_singleton (cap : Capability) (key : ExtendedKey) (index : UInt32) :
    key.descend cap [index] = derive cap key index := by
  rw [descend, List.foldlM_cons]
  cases derive cap key index <;> rfl

theorem ofPath_nil (cap : Capability) (seed : Bytes) : ofPath cap seed [] = ofSeed cap seed := by
  unfold ofPath
  cases ofSeed cap seed <;> rfl

theorem ofPath_append_singleton (cap : Capability) (seed : Bytes) (front : List UInt32)
    (index : UInt32) :
    ofPath cap seed (front ++ [index]) =
      ofPath cap seed front >>= fun parent ↦ derive cap parent index := by
  simp only [ofPath, descend_append, descend_singleton, bind_assoc]

variable {path : List UInt32}

theorem ofPath_cases (h : ofPath cap seed path = .ok key) :
    (path = [] ∧ IsRoot cap seed key) ∨
      ∃ front index parent, path = front ++ [index] ∧ ofPath cap seed front = .ok parent ∧
        IsChild cap parent index key := by
  rcases List.eq_nil_or_concat path with rfl | ⟨front, index, rfl⟩
  · rw [ofPath_nil] at h
    exact .inl ⟨rfl, ofSeed_eq_ok_iff.mp h⟩
  · rw [List.concat_eq_append, ofPath_append_singleton] at h
    obtain ⟨parent, hparent, hchild⟩ := bind_eq_ok_iff.mp h
    exact .inr ⟨front, index, parent, List.concat_eq_append, hparent, derive_eq_ok_iff.mp hchild⟩

theorem depth_of_ofPath (h : ofPath cap seed path = .ok key) : key.depth.toNat = path.length := by
  -- On the path from its end, since the depth of a key is one more than that of its parent.
  induction path using List.reverseRecOn generalizing key with
  | nil =>
    rw [ofPath_nil] at h
    rw [(ofSeed_eq_ok_iff.mp h).depth_eq]
    rfl
  | append_singleton front index ih =>
    rw [ofPath_append_singleton] at h
    obtain ⟨parent, hparent, hchild⟩ := bind_eq_ok_iff.mp h
    rw [(derive_eq_ok_iff.mp hchild).depth_eq, ih hparent, List.length_append, List.length_singleton]

theorem childIndex_of_ofPath (h : ofPath cap seed path = .ok key) :
    key.childIndex = path.getLastD 0 := by
  obtain ⟨rfl, hroot⟩ | ⟨front, index, parent, rfl, -, hchild⟩ := ofPath_cases h
  · exact hroot.childIndex_eq
  · rw [List.getLastD_concat, hchild.childIndex_eq]

/-- The key at the end of a path tells the length of the path and its last index, and comes from the
key before, or from the seed. Which seeds and indices give no key, and why, is decided in a fixed
order. -/
theorem keys_along_paths (cap : Capability) (seed : Bytes) :
    (∀ path key, ofPath cap seed path = .ok key →
      key.depth.toNat = path.length ∧ path.length ≤ 255 ∧ key.childIndex = path.getLastD 0 ∧
      1 ≤ key.secretKey.scalar.val ∧ key.secretKey.scalar.val ≤ groupOrder - 1 ∧
      ((path = [] ∧ IsRoot cap seed key) ∨
        ∃ front index parent, path = front ++ [index] ∧ ofPath cap seed front = .ok parent ∧
          IsChild cap parent index key)) ∧
    (∀ key index, childMaterial key index = Blake2b.keyedHash 64 (.ofFixed key.chainCode)
      [key.secretKey.toBytes.toList ++ Bytes.bigEndian 4 index.toNat]) ∧
    (∀ key index e, derive cap key index = .error e ↔ deriveError? cap key index = some e) ∧
    ∀ e, ofSeed cap seed = .error e ↔ seedError? cap seed = some e := by
  refine ⟨fun path key h ↦ ?_, childMaterial_eq, fun _ _ _ ↦ derive_eq_error_iff,
    fun _ ↦ ofSeed_eq_error_iff⟩
  have hdepth := depth_of_ofPath h
  have hlength : path.length ≤ 255 := hdepth ▸ Nat.le_of_lt_succ key.depth.toNat_lt
  exact ⟨hdepth, hlength, childIndex_of_ofPath h, key.secretKey.val_pos,
    Nat.le_pred_of_lt key.secretKey.scalar.val_lt, ofPath_cases h⟩

set_option maxRecDepth 10000 in
theorem isOk_ofPath_ones : (ofPath .commit (List.replicate 16 1) [7]).isOk = true := by
  decide +kernel

set_option maxRecDepth 10000 in
/-- A child of the root key of sixteen ones, and seeds that give no root. -/
theorem keys_along_paths_ones :
    (∃ key parent, ofPath .commit (List.replicate 16 1) [7] = .ok key ∧
      ofSeed .commit (List.replicate 16 1) = .ok parent ∧ key.depth.toNat = 1 ∧
      key.childIndex = 7 ∧ IsChild .commit parent 7 key) ∧
    ofSeed .verifyOnly (List.replicate 16 1) = .error (.curve .incapableContext) ∧
    ofSeed .verifyOnly (List.replicate 17 1) = .error (.invalidSeedSize 17) := by
  refine ⟨?_, ?_, ?_⟩
  · obtain ⟨key, hkey⟩ := exists_of_isOk isOk_ofPath_ones
    obtain ⟨hdepth, -, hindex, -, -, hcases⟩ :=
      (keys_along_paths .commit (List.replicate 16 1)).1 _ _ hkey
    obtain ⟨hnil, -⟩ | ⟨front, index, parent, hpath, hparent, hchild⟩ := hcases
    · cases hnil
    · have hends : [] ++ [7] = front ++ [index] := hpath
      obtain ⟨rfl, hlast⟩ := List.append_inj' hends rfl
      cases hlast
      rw [ofPath_nil] at hparent
      exact ⟨key, parent, hkey, hparent, hdepth, hindex, hchild⟩
  · exact ((keys_along_paths .verifyOnly _).2.2.2 _).mpr (by decide +kernel)
  · exact ((keys_along_paths .verifyOnly _).2.2.2 _).mpr (by decide +kernel)

end ExtendedKey

end ConfidentialTx
