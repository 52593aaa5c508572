import Mathlib
import ConfidentialTx.Proofs.Keychain.Derivation

namespace ConfidentialTx

namespace SecretKey

variable {bs : Bytes} {key : SecretKey}

theorem scalar_of_ofScalar? {a : Scalar} (h : ofScalar? a = some key) : key.scalar = a := by
  unfold ofScalar? at h
  split at h
  · cases h
  · cases h
    rfl

theorem ofBytes_eq_ok_iff : ofBytes bs = .ok key ↔ key.toBytes.toList = bs := by
  constructor
  · intro h
    unfold ofBytes at h
    split at h
    · cases h
    · rename_i b hb
      split at h
      · cases h
      · rename_i sum hsum
        cases h
        obtain ⟨a, ha, hkey⟩ := Option.bind_eq_some_iff.mp hsum
        rw [toBytes, scalar_of_ofScalar? hkey, ← Scalar.ofBytes?_eq_some_iff.mp ha]
        exact FixedBytes.ofList?_eq_some_iff.mp hb
  · intro h
    rw [← h]
    exact ofBytes_toBytes key

end SecretKey

namespace ExtendedKey

variable {cap : Capability} {key : ExtendedKey} {bs : Bytes}

theorem split_of_length (h : bs.length = size) :
    bs.headD 0 :: (bs.drop 1).take 10 ++ (bs.drop 11).take 4 ++ (bs.drop 15).take 32 ++
      bs.drop 47 = bs := by
  have hne : bs ≠ [] := by
    rintro rfl
    cases h
  have hcut (start count : Nat) :
      (bs.drop start).take count ++ bs.drop (start + count) = bs.drop start := by
    rw [← List.drop_drop, List.take_append_drop]
  rw [List.append_assoc, hcut 15 32, List.append_assoc, hcut 11 4, List.cons_append, hcut 1 10,
    List.drop_one]
  cases bs with
  | nil => exact absurd rfl hne
  | cons b bs => rfl

theorem length_fields (h : bs.length = size) :
    ((bs.drop 1).take 10).length = 10 ∧ ((bs.drop 11).take 4).length = 4 ∧
      ((bs.drop 15).take 32).length = 32 ∧ (bs.drop 47).length = 32 := by
  simp only [List.length_take, List.length_drop, h]
  decide

theorem length_toBytes (key : ExtendedKey) : key.toBytes.length = size := by
  simp only [toBytes, List.cons_append, List.length_cons, List.length_append,
    Bytes.length_bigEndian, FixedBytes.length_toList]
  rfl

theorem drop_toBytes (key : ExtendedKey) :
    key.toBytes.drop 1 = key.rootKeyId.bytes.toList ++ (Bytes.bigEndian 4 key.childIndex.toNat ++
      (key.chainCode.toList ++ key.secretKey.toBytes.toList)) ∧
    key.toBytes.drop 11 = Bytes.bigEndian 4 key.childIndex.toNat ++
      (key.chainCode.toList ++ key.secretKey.toBytes.toList) ∧
    key.toBytes.drop 15 = key.chainCode.toList ++ key.secretKey.toBytes.toList ∧
    key.toBytes.drop 47 = key.secretKey.toBytes.toList := by
  have hid : key.toBytes.drop 1 = key.rootKeyId.bytes.toList ++
      (Bytes.bigEndian 4 key.childIndex.toNat ++
        (key.chainCode.toList ++ key.secretKey.toBytes.toList)) := by
    simp only [toBytes, List.cons_append, List.append_assoc]
    rfl
  have hindex := congrArg (List.drop 10) hid
  rw [List.drop_drop, List.drop_left' key.rootKeyId.bytes.length_toList] at hindex
  have hchain := congrArg (List.drop 4) hindex
  rw [List.drop_drop, List.drop_left' (Bytes.length_bigEndian 4 _)] at hchain
  have hsecret := congrArg (List.drop 32) hchain
  rw [List.drop_drop, List.drop_left' key.chainCode.length_toList] at hsecret
  exact ⟨hid, hindex, hchain, hsecret⟩

theorem ofBytes_toBytes (key : ExtendedKey) : ofBytes key.toBytes = .ok key := by
  obtain ⟨hid, hindex, hchain, hsecret⟩ := key.drop_toBytes
  have hread : UInt32.ofNat (Bytes.toNat (Bytes.bigEndian 4 key.childIndex.toNat)) =
      key.childIndex := by
    rw [Bytes.toNat_bigEndian, Nat.pow_eq, Nat.mod_eq_of_lt key.childIndex.toNat_lt,
      UInt32.ofNat_toNat]
  rw [ofBytes, if_neg (not_not_intro key.length_toBytes), hsecret, SecretKey.ofBytes_toBytes, hid,
    hindex, hchain, List.take_left' key.rootKeyId.bytes.length_toList,
    List.take_left' (Bytes.length_bigEndian 4 _), List.take_left' key.chainCode.length_toList]
  simp only [hread, Identifier.ofBytes, FixedBytes.fit_toList]
  rfl

theorem toBytes_of_ofBytes (h : ofBytes bs = .ok key) : key.toBytes = bs := by
  unfold ofBytes at h
  split at h
  · cases h
  · rename_i hlength
    obtain ⟨hid, hindex, hchain, -⟩ := length_fields (not_not.mp hlength)
    split at h
    · cases h
    · rename_i secret hsecret
      cases h
      have hwritten : Bytes.bigEndian 4 (UInt32.ofNat (Bytes.toNat ((bs.drop 11).take 4))).toNat =
          (bs.drop 11).take 4 := by
        have hlt := Bytes.toNat_lt ((bs.drop 11).take 4)
        rw [hindex] at hlt
        rw [UInt32.toNat_ofNat_of_lt' hlt]
        have hdigits := Bytes.bigEndian_toNat ((bs.drop 11).take 4)
        rwa [hindex] at hdigits
      simp only [toBytes, hwritten, Identifier.ofBytes, FixedBytes.toList_fit hid,
        FixedBytes.toList_fit hchain, SecretKey.ofBytes_eq_ok_iff.mp hsecret]
      exact split_of_length (not_not.mp hlength)

/-- The strings that are read. -/
structure IsStored (bs : Bytes) : Prop where
  length_eq : bs.length = size
  secret_pos : 1 ≤ Bytes.toNat (bs.drop 47)
  secret_le : Bytes.toNat (bs.drop 47) ≤ groupOrder - 1

theorem isStored_toBytes (key : ExtendedKey) : IsStored key.toBytes := by
  have hsecret : Bytes.toNat (key.toBytes.drop 47) = key.secretKey.scalar.val := by
    rw [key.drop_toBytes.2.2.2]
    exact Scalar.toNat_toBytes _
  refine ⟨key.length_toBytes, ?_, ?_⟩
  · rw [hsecret]
    exact key.secretKey.val_pos
  · rw [hsecret]
    exact Nat.le_pred_of_lt key.secretKey.scalar.val_lt

theorem exists_ofBytes_iff : (∃ key, ofBytes bs = .ok key) ↔ IsStored bs := by
  constructor
  · rintro ⟨key, h⟩
    rw [← toBytes_of_ofBytes h]
    exact key.isStored_toBytes
  · intro h
    obtain ⟨secret, hsecret, -⟩ := SecretKey.exists_ofBytes (length_fields h.length_eq).2.2.2
      (Nat.pos_iff_ne_zero.mp h.secret_pos) (Nat.lt_of_le_pred (by decide) h.secret_le)
    rw [ofBytes, if_neg (not_not_intro h.length_eq), hsecret]
    exact ⟨_, rfl⟩

theorem ofBytes_of_length (h : bs.length ≠ size) :
    ofBytes bs = .error (.invalidSliceSize bs.length size) :=
  if_pos h

theorem ofBytes_of_not_isStored (hlength : bs.length = size) (h : ¬IsStored bs) :
    ofBytes bs = .error .invalidSecretKey := by
  cases hread : ofBytes bs with
  | ok key => exact absurd (exists_ofBytes_iff.mp ⟨key, hread⟩) h
  | error e =>
    rw [ofBytes, if_neg (not_not_intro hlength)] at hread
    split at hread
    · exact hread.symm
    · cases hread

/-- Keys and stored forms belong to each other one to one. All other strings are refused, for their
length before their secret, and a key that is read back has the descendants of the key that was
written, wherever on a path it is stored. -/
theorem stored_one_to_one :
    (∀ bs, (∃ key, ofBytes bs = .ok key) ↔ IsStored bs) ∧
    (∀ bs, bs.length ≠ size → ofBytes bs = .error (.invalidSliceSize bs.length size)) ∧
    (∀ bs, bs.length = size → ¬IsStored bs → ofBytes bs = .error .invalidSecretKey) ∧
    (∀ bs key, ofBytes bs = .ok key → key.toBytes = bs) ∧
    (∀ key : ExtendedKey, ofBytes key.toBytes = .ok key) ∧
    (∀ cap (key : ExtendedKey) path,
      (ofBytes key.toBytes >>= fun stored ↦ stored.descend cap path) = key.descend cap path) ∧
    ∀ cap seed front path,
      (ofPath cap seed front >>= fun key ↦ ofBytes key.toBytes >>= fun stored ↦
        stored.descend cap path) = ofPath cap seed (front ++ path) := by
  have hdescend (cap : Capability) (key : ExtendedKey) (path : List UInt32) :
      (ofBytes key.toBytes >>= fun stored ↦ stored.descend cap path) = key.descend cap path := by
    rw [ofBytes_toBytes, ok_bind]
  refine ⟨fun _ ↦ exists_ofBytes_iff, fun _ ↦ ofBytes_of_length, fun _ ↦ ofBytes_of_not_isStored,
    fun _ _ ↦ toBytes_of_ofBytes, ofBytes_toBytes, hdescend, ?_⟩
  intro cap seed front path
  simp only [hdescend, ofPath, descend_append, bind_assoc]

/-- A form whose secret is five, one that is a byte short, and one whose secret is zero. -/
theorem stored_one_to_one_five :
    (∃ key, ofBytes (1 :: List.replicate 77 0 ++ [5]) = .ok key ∧
      key.toBytes = 1 :: List.replicate 77 0 ++ [5]) ∧
    ofBytes (1 :: List.replicate 77 0) = .error (.invalidSliceSize 78 79) ∧
    ofBytes (1 :: List.replicate 78 0) = .error .invalidSecretKey := by
  obtain ⟨hread, hlength, hsecret, hwrite, -⟩ := stored_one_to_one
  refine ⟨?_, hlength _ (by decide), hsecret _ (by decide) fun h ↦ ?_⟩
  · obtain ⟨key, hkey⟩ := (hread (1 :: List.replicate 77 0 ++ [5])).mpr
      ⟨by decide, by decide, by decide⟩
    exact ⟨key, hkey, hwrite _ _ hkey⟩
  · exact absurd h.secret_pos (by decide)

end ExtendedKey

end ConfidentialTx
