import Mathlib
import ConfidentialTx.Keychain.Operations
import ConfidentialTx.Proofs.Keychain.Blinding

namespace ConfidentialTx

namespace KeyRoot

variable {root : KeyRoot} {cache : KeyCache} {indices passed : Set UInt32}

def Distinct (root : KeyRoot) (indices : Set UInt32) : Prop :=
  ∀ i ∈ indices, ∀ j ∈ indices, ∀ key key' id,
    root.child i = .ok (key, id) → root.child j = .ok (key', id) → i = j

theorem Distinct.mono {fewer : Set UInt32} (h : root.Distinct indices) (hsub : fewer ⊆ indices) :
    root.Distinct fewer :=
  fun i hi j hj ↦ h i (hsub hi) j (hsub hj)

/-- The children that can be named once these indices have been passed: a search comes to all below
the limit. -/
def nameable (root : KeyRoot) (passed : Set UInt32) : Set UInt32 :=
  passed ∪ {i | i < root.config.keySearchLimit}

open Classical in
/-- The secret key that an identifier names: that of the root, or of one of these children. -/
noncomputable def keyAmong (root : KeyRoot) (indices : Set UInt32) (id : Identifier) :
    Except KeychainError SecretKey :=
  if id = root.id then .ok root.key.secretKey
  else if h : ∃ key, ∃ i ∈ indices, root.child i = .ok (key, id) then .ok h.choose.secretKey
  else .error (.unknownKeyId id)

theorem keyAmong_of_child {i : UInt32} {id : Identifier} {key : ExtendedKey}
    (hdistinct : root.Distinct indices) (hi : i ∈ indices) (hchild : root.child i = .ok (key, id))
    (hroot : id ≠ root.id) : root.keyAmong indices id = .ok key.secretKey := by
  have hex : ∃ key, ∃ i ∈ indices, root.child i = .ok (key, id) := ⟨key, i, hi, hchild⟩
  obtain ⟨j, hj, hchosen⟩ := hex.choose_spec
  obtain rfl := hdistinct i hi j hj _ _ _ hchild hchosen
  rw [hchild, Except.ok.injEq, Prod.mk.injEq] at hchosen
  rw [keyAmong, if_neg hroot, dif_pos hex, ← hchosen.1]

theorem keyAmong_of_no_child {id : Identifier} (hroot : id ≠ root.id)
    (h : ∀ i ∈ indices, ∀ key, root.child i ≠ .ok (key, id)) :
    root.keyAmong indices id = .error (.unknownKeyId id) := by
  have hnone : ¬∃ key, ∃ i ∈ indices, root.child i = .ok (key, id) := by
    rintro ⟨key, i, hi, hchild⟩
    exact h i hi key hchild
  rw [keyAmong, if_neg hroot, dif_neg hnone]

theorem lookup_eq_unknown {id : Identifier} {count : Nat} {index : UInt32}
    (hlimit : index.toNat + count < UInt32.size)
    (h : ∀ i, index ≤ i → i.toNat < index.toNat + count →
      ∃ key found, root.child i = .ok (key, found) ∧ found ≠ id) :
    root.lookup id count index = .error (.unknownKeyId id) := by
  induction count generalizing index with
  | zero => rfl
  | succ count ih =>
    obtain ⟨key, found, hchild, hne⟩ := h index (UInt32.le_refl index) (by omega)
    have hstep := @toNat_add_one index (by omega)
    simp only [lookup, hchild, if_neg hne]
    refine ih (by omega) fun i hi hcount ↦ h i ?_ (by omega)
    rw [UInt32.le_iff_toNat_le] at hi ⊢
    omega

/-- The cache holds the children of all indices passed, and no others than can be named. -/
structure Tracks (root : KeyRoot) (passed : Set UInt32) (cache : KeyCache) : Prop where
  sound : cache.Sound root
  holds : ∀ i ∈ passed, ∃ id, cache.id? i = some id
  within : ∀ i id, cache.id? i = some id → i ∈ root.nameable passed

namespace Tracks

theorem empty (root : KeyRoot) : root.Tracks ∅ .empty where
  sound := KeyCache.sound_empty
  holds _ h := h.elim
  within _ _ h := by cases h

theorem distinctChildren (h : root.Tracks passed cache)
    (hdistinct : root.Distinct (root.nameable passed)) : root.DistinctChildren cache := by
  have hknown : ∀ i, root.Known cache i → i ∈ root.nameable passed := by
    rintro i (⟨id, hid⟩ | hi)
    · exact h.within i id hid
    · exact .inr hi
  intro i j hi hj
  exact hdistinct i (hknown i hi) j (hknown j hj)

/-- What the keychain answers is what the indices passed determine. -/
theorem names_eq (h : root.Tracks passed cache)
    (hderived : ∀ i < root.config.keySearchLimit, ∃ child, root.child i = .ok child)
    (hdistinct : root.Distinct (root.nameable passed)) :
    root.names cache = root.keyAmong (root.nameable passed) := by
  funext id
  rw [names, (resolve_spec h.sound id).1, find]
  by_cases hroot : id = root.id
  · rw [if_pos hroot, keyAmong, if_pos hroot]
  rw [if_neg hroot]
  cases hkey : cache.key? id with
  | some key =>
    obtain ⟨i, hi, hchild⟩ := h.sound.key id key hkey
    exact (keyAmong_of_child hdistinct (h.within i id hi) hchild hroot).symm
  | none =>
    by_cases hex : ∃ i < root.config.keySearchLimit, ∃ key, root.child i = .ok (key, id)
    · obtain ⟨i, hi, key, hchild⟩ := hex
      have hsearched : root.Searched i :=
        ⟨hi, fun j hj ↦ hderived j (UInt32.lt_of_le_of_lt hj hi)⟩
      rw [keyAmong_of_child hdistinct (.inr hi) hchild hroot]
      exact lookup_of_searched (h.distinctChildren hdistinct) hchild hsearched
    · have hnone : ∀ i ∈ root.nameable passed, ∀ key, root.child i ≠ .ok (key, id) := by
        rintro i (hi | hi) key hchild
        · obtain ⟨id', hid⟩ := h.holds i hi
          obtain ⟨⟨key', hchild'⟩, held, hheld⟩ := h.sound.index i id' hid
          rw [hchild] at hchild'
          cases hchild'
          rw [hkey] at hheld
          cases hheld
        · exact hex ⟨i, hi, key, hchild⟩
      rw [keyAmong_of_no_child hroot hnone]
      refine lookup_eq_unknown ?_ fun i _ hi ↦ ?_
      · simpa using root.config.keySearchLimit.toNat_lt
      · have hlimit : i < root.config.keySearchLimit := by
          rw [UInt32.lt_iff_toNat_lt]
          simpa using hi
        obtain ⟨⟨key, found⟩, hchild⟩ := hderived i hlimit
        refine ⟨key, found, hchild, ?_⟩
        rintro rfl
        exact hnone i (.inr hlimit) key hchild

theorem grown {after : KeyCache} (h : root.Tracks passed cache) (hsound : after.Sound root)
    (hgrown : root.Grown cache after) : root.Tracks passed after where
  sound := hsound
  holds i hi := by
    obtain ⟨id, hid⟩ := h.holds i hi
    exact ⟨id, hgrown.keeps i id hid⟩
  within i id hid := by
    rcases hgrown.adds i id hid with hold | hsearched
    · exact h.within i id hold
    · exact .inr hsearched.1

theorem resolving {ε α : Type} {x : Keyed ε α} (h : root.Tracks passed cache)
    (hderived : ∀ i < root.config.keySearchLimit, ∃ child, root.child i = .ok child)
    (hdistinct : root.Distinct (root.nameable passed)) (hx : x.Resolving) :
    x.result root cache = x.answer root (root.keyAmong (root.nameable passed)) ∧
    root.Tracks passed (x.run.run root cache).value.2 := by
  obtain ⟨hresult, hgrown⟩ := KeyProgram.run_spec hx h.sound (h.distinctChildren hdistinct)
    h.sound (.refl root cache)
  rw [h.names_eq hderived hdistinct] at hresult
  exact ⟨hresult, h.grown (KeyProgram.run_sound _ h.sound) hgrown⟩

end Tracks

/-- An index whose child cannot be derived is not passed. -/
def pass (root : KeyRoot) (index : UInt32) (passed : Set UInt32) : Set UInt32 :=
  {i | i ∈ passed ∨ i = index ∧ ∃ child, root.child index = .ok child}

theorem Tracks.derive (h : root.Tracks passed cache) (index : UInt32) :
    (root.derive index cache).value.1 = (root.child index).map Prod.snd ∧
    root.Tracks (root.pass index passed) (root.derive index cache).value.2 := by
  refine ⟨derive_eq_child h.sound, derive_sound h.sound index, ?_, fun i id hi ↦ ?_⟩
  · rintro i (hi | ⟨rfl, ⟨key, id⟩, hchild⟩)
    · obtain ⟨id, hid⟩ := h.holds i hi
      exact ⟨id, root.keeps_derive index cache i id hid⟩
    · exact ⟨id, id?_derive h.sound hchild⟩
  · rcases id?_of_derive hi with hold | ⟨hindex, key, hchild⟩
    · exact (h.within i id hold).imp_left .inl
    · exact .inl (.inr ⟨hindex, _, hchild⟩)

end KeyRoot

namespace Keychain

inductive Call
  | deriveKeyId (index : UInt32)
  | commit (value : UInt64) (id : Identifier)
  | commitWithKeyIndex (value : UInt64) (index : UInt32)
  | switchCommit (id : Identifier)
  | switchCommitHash (id : Identifier)
  | rangeProof (value : UInt64) (id : Identifier) (c : Commitment) (message : Bytes)
  | rewindRangeProof (id : Identifier) (c : Commitment) (proof : RangeProof)
  | sign (msg : Message) (id : Identifier)
  | blindSum (sum : BlindSum)

inductive Answer
  | identifier (id : Identifier)
  | commitment (c : Commitment)
  | switchCommitHash (hash : SwitchCommitHash)
  | proof (proof : RangeProof)
  | info (info : ProofInfo)
  | signature (sig : Signature)
  | factor (blind : BlindingFactor)

def net (sum : BlindSum) (positive negative : List SecretKey) : ZMod groupOrder :=
  ((positive.map fun key ↦ key.scalar.toZMod).sum +
      (sum.positiveFactors.map fun b ↦ b.scalar.toZMod).sum) -
    ((negative.map fun key ↦ key.scalar.toZMod).sum +
      (sum.negativeFactors.map fun b ↦ b.scalar.toZMod).sum)

namespace Call

def program : Call → Keyed KeychainError Answer
  | deriveKeyId index => return .identifier (← Keychain.deriveKeyId index)
  | commit value id => return .commitment (← Keychain.commit value id)
  | commitWithKeyIndex value index =>
    return .commitment (← Keychain.commitWithKeyIndex value index)
  | switchCommit id => return .commitment (← Keychain.switchCommit id)
  | switchCommitHash id => return .switchCommitHash (← Keychain.switchCommitHash id)
  | rangeProof value id c message => return .proof (← Keychain.rangeProof value id c message)
  | rewindRangeProof id c proof => return .info (← Keychain.rewindRangeProof id c proof)
  | sign msg id => return .signature (← Keychain.sign msg id)
  | blindSum sum => return .factor (← Keychain.blindSum sum)

/-- The index that a call passes. -/
def index? : Call → Option UInt32
  | deriveKeyId index | commitWithKeyIndex _ index => some index
  | commit .. | switchCommit _ | switchCommitHash _ | rangeProof .. | rewindRangeProof ..
  | sign .. | blindSum _ => none

/-- The indices that the calls pass, but for those whose children cannot be derived. -/
def passedBy (root : KeyRoot) (calls : List Call) : Set UInt32 :=
  {i | (∃ child, root.child i = .ok child) ∧ ∃ call ∈ calls, call.index? = some i}

/-- What the call returns when the children of these indices are known. Nothing but the root key
and the set decides it. -/
noncomputable def answer (root : KeyRoot) (passed : Set UInt32) :
    Call → Except KeychainError Answer
  | deriveKeyId index => do
    let (_, id) ← root.child index
    return .identifier id
  | commit value id => do
    let key ← root.keyAmong (root.nameable passed) id
    return .commitment (← (Commitment.commit .commit value key).mapError .ofCurve)
  | commitWithKeyIndex value index => do
    let (_, id) ← root.child index
    let key ← root.keyAmong (root.nameable passed) id
    return .commitment (← (Commitment.commit .commit value key).mapError .ofCurve)
  | switchCommit id => do
    let key ← root.keyAmong (root.nameable passed) id
    return .commitment (← (Commitment.commitSwitch .commit key).mapError .ofCurve)
  | switchCommitHash id => do
    let key ← root.keyAmong (root.nameable passed) id
    let c ← (Commitment.commitSwitch .commit key).mapError .ofCurve
    return .switchCommitHash (.ofCommitment c key.toBytes)
  | rangeProof value id c message => do
    let key ← root.keyAmong (root.nameable passed) id
    return .proof (← (RangeProof.prove .commit value key c message).mapError .ofCurve)
  | rewindRangeProof id c proof => do
    let key ← root.keyAmong (root.nameable passed) id
    return .info (← (RangeProof.rewind .commit c proof key).mapError .ofCurve)
  | sign msg id => do
    let key ← root.keyAmong (root.nameable passed) id
    return .signature (← (Signature.sign .commit msg key).mapError .ofCurve)
  | blindSum sum => do
    let positive ← sum.positiveKeyIds.mapM (root.keyAmong (root.nameable passed))
    let negative ← sum.negativeKeyIds.mapM (root.keyAmong (root.nameable passed))
    return .factor ⟨.ofZMod (net sum positive negative)⟩

end Call

def cacheAfter (root : KeyRoot) (calls : List Call) : KeyCache :=
  calls.foldl (fun cache call ↦ (call.program.run.run root cache).value.2) .empty

variable {root : KeyRoot} {cache : KeyCache} {passed : Set UInt32}

theorem answer_secretKeys_eq (names : Identifier → Except KeychainError SecretKey)
    (ids : List Identifier) : (secretKeys ids).answer root names = ids.mapM names := by
  induction ids with
  | nil => rfl
  | cons id ids ih =>
    simp only [secretKeys, Keyed.answer_bind, Keyed.answer_secretKey, ih, List.mapM_cons,
      Keyed.answer_pure]
    rfl

theorem answer_withKey {α : Type} (names : Identifier → Except KeychainError SecretKey)
    (id : Identifier) (f : SecretKey → Except CurveError α) (wrap : α → Answer) :
    let x : Keyed KeychainError Answer := do
      let a ← (do let key ← secretKey id; Keyed.ofCurve (f key))
      return wrap a
    x.Resolving ∧ x.answer root names = do
      let key ← names id
      return wrap (← (f key).mapError .ofCurve) := by
  refine ⟨.bind (.bind (Keyed.resolving_secretKey id) fun _ ↦ Keyed.resolving_ofExcept _)
    fun _ ↦ Keyed.resolving_pure _, ?_⟩
  simp only [Keyed.answer_bind, Keyed.answer_secretKey, Keyed.answer_ofCurve, Keyed.answer_pure,
    bind_assoc]
  rfl

theorem answer_blindSum_eq (names : Identifier → Except KeychainError SecretKey) (sum : BlindSum) :
    (blindSum sum).answer root names = do
      let positive ← sum.positiveKeyIds.mapM names
      let negative ← sum.negativeKeyIds.mapM names
      return ⟨.ofZMod (net sum positive negative)⟩ := by
  have hsum (positive negative : List SecretKey) :
      SecretKey.blindSum
          (positive ++ sum.positiveFactors.filterMap fun b ↦ SecretKey.ofScalar? b.scalar)
          (negative ++ sum.negativeFactors.filterMap fun b ↦ SecretKey.ofScalar? b.scalar) =
        .ofZMod (net sum positive negative) := by
    apply Residue.toZMod_injective
    rw [toZMod_blindSum, Residue.toZMod_ofZMod, List.map_append, List.map_append,
      List.sum_append, List.sum_append, sum_factors, sum_factors, net]
  simp only [blindSum, Keyed.answer_bind, answer_secretKeys_eq, Keyed.answer_pure, hsum]
  rfl

theorem answer_program {call : Call} (h : call.index? = none) :
    call.program.Resolving ∧
    call.program.answer root (root.keyAmong (root.nameable passed)) = call.answer root passed := by
  cases call with
  | deriveKeyId index => cases h
  | commitWithKeyIndex value index => cases h
  | commit value id => exact answer_withKey _ id _ _
  | switchCommit id => exact answer_withKey _ id _ _
  | switchCommitHash id =>
    refine ⟨.bind (resolving_switchCommitHash id) fun _ ↦ Keyed.resolving_pure _, ?_⟩
    simp only [Call.program, Keychain.switchCommitHash, Keyed.answer_bind, Keyed.answer_secretKey,
      Keyed.answer_ofCurve, Keyed.answer_pure, bind_assoc]
    rfl
  | rangeProof value id c message => exact answer_withKey _ id _ _
  | rewindRangeProof id c proof => exact answer_withKey _ id _ _
  | sign msg id => exact answer_withKey _ id _ _
  | blindSum sum =>
    refine ⟨.bind (resolving_blindSum sum) fun _ ↦ Keyed.resolving_pure _, ?_⟩
    simp only [Call.program, Keyed.answer_bind, answer_blindSum_eq, Keyed.answer_pure, bind_assoc]
    rfl

theorem run_deriveKeyId_bind {α : Type} (index : UInt32)
    (f : Identifier → Keyed KeychainError α) :
    ((deriveKeyId index >>= f).run.run root cache).value =
      match (root.derive index cache).value.1 with
      | .ok id => ((f id).run.run root (root.derive index cache).value.2).value
      | .error e => (.error e, (root.derive index cache).value.2) := by
  change ((KeyProgram.derive index (ExceptT.bindCont f)).run root cache).value = _
  rw [KeyProgram.run, Logged.value_bind]
  obtain ⟨answer, next⟩ := (root.derive index cache).value
  cases answer with
  | ok id => rfl
  | error e => rfl

theorem deriveKeyId_bind {α : Type} {index : UInt32} {f : Identifier → Keyed KeychainError α}
    (h : root.Tracks passed cache)
    (hderived : ∀ i < root.config.keySearchLimit, ∃ child, root.child i = .ok child)
    (hdistinct : root.Distinct (root.nameable (root.pass index passed)))
    (hf : ∀ id, (f id).Resolving) :
    ((deriveKeyId index >>= f).result root cache = do
      let (_, id) ← root.child index
      (f id).answer root (root.keyAmong (root.nameable (root.pass index passed)))) ∧
    root.Tracks (root.pass index passed)
      ((deriveKeyId index >>= f).run.run root cache).value.2 := by
  obtain ⟨hid, hnext⟩ := h.derive index
  have hrun := @run_deriveKeyId_bind root cache α index f
  rw [hid] at hrun
  rw [Keyed.result, hrun]
  cases hchild : root.child index with
  | error e => exact ⟨rfl, hnext⟩
  | ok child => exact hnext.resolving hderived hdistinct (hf child.2)

namespace Call

variable {before : List Call} {call : Call}

theorem passedBy_append (root : KeyRoot) (before : List Call) (call : Call) :
    passedBy root (before ++ [call]) =
      match call.index? with
      | some index => root.pass index (passedBy root before)
      | none => passedBy root before := by
  have hmem : ∀ i, i ∈ passedBy root (before ++ [call]) ↔
      i ∈ passedBy root before ∨ call.index? = some i ∧ ∃ child, root.child i = .ok child := by
    intro i
    simp only [passedBy, Set.mem_ofPred_eq, List.mem_append, List.mem_singleton, or_and_right,
      exists_or, exists_eq_left, and_or_left]
    rw [and_comm (b := call.index? = some i)]
  ext i
  rw [hmem]
  cases hindex : call.index? with
  | none => simp
  | some index =>
    have heq : some index = some i ↔ i = index := by
      rw [Option.some.injEq, eq_comm]
    rw [heq]
    constructor
    · intro h
      rcases h with h | ⟨rfl, h⟩
      · exact .inl h
      · exact .inr ⟨rfl, h⟩
    · intro h
      rcases h with h | ⟨rfl, h⟩
      · exact .inl h
      · exact .inr ⟨rfl, h⟩

theorem passedBy_subset_append (root : KeyRoot) (before : List Call) (call : Call) :
    passedBy root before ⊆ passedBy root (before ++ [call]) := by
  intro i ⟨hchild, c, hc, hindex⟩
  exact ⟨hchild, c, List.mem_append_left _ hc, hindex⟩

/-- What one call returns, and that it leaves the cache such that the next one can be answered. -/
theorem result_step (h : root.Tracks (passedBy root before) cache)
    (hderived : ∀ i < root.config.keySearchLimit, ∃ child, root.child i = .ok child)
    (hdistinct : root.Distinct (root.nameable (passedBy root (before ++ [call])))) :
    call.program.result root cache = call.answer root (passedBy root (before ++ [call])) ∧
    root.Tracks (passedBy root (before ++ [call])) (call.program.run.run root cache).value.2 := by
  rw [passedBy_append] at hdistinct ⊢
  cases hindex : call.index? with
  | none =>
    rw [hindex] at hdistinct
    obtain ⟨hresolving, hanswer⟩ := @answer_program root (passedBy root before) call hindex
    rw [← hanswer]
    exact h.resolving hderived hdistinct hresolving
  | some index =>
    rw [hindex] at hdistinct
    cases call with
    | deriveKeyId index' =>
      cases hindex
      exact deriveKeyId_bind h hderived hdistinct fun id ↦ Keyed.resolving_pure _
    | commitWithKeyIndex value index' =>
      cases hindex
      have hprogram : (commitWithKeyIndex value index).program =
          Keychain.deriveKeyId index >>= fun id ↦ (commit value id).program := by
        simp only [program, Keychain.commitWithKeyIndex, bind_assoc]
      have hcommit (id : Identifier) := @answer_program root
        (root.pass index (passedBy root before)) (commit value id) rfl
      obtain ⟨hresult, hnext⟩ :=
        deriveKeyId_bind h hderived hdistinct fun id ↦ (hcommit id).1
      rw [hprogram]
      refine ⟨?_, hnext⟩
      rw [hresult]
      simp only [(hcommit _).2]
      rfl
    | _ => cases hindex

end Call

theorem tracks_cacheAfter (before : List Call)
    (hderived : ∀ i < root.config.keySearchLimit, ∃ child, root.child i = .ok child)
    (hdistinct : root.Distinct (root.nameable (Call.passedBy root before))) :
    root.Tracks (Call.passedBy root before) (cacheAfter root before) := by
  induction before using List.reverseRecOn with
  | nil =>
    have hnone : Call.passedBy root [] = ∅ := by simp [Call.passedBy]
    rw [hnone]
    exact .empty root
  | append_singleton before call ih =>
    have hbefore := hdistinct.mono
      (Set.union_subset_union_left _ (Call.passedBy_subset_append root before call))
    have hstep := Call.result_step (ih hbefore) hderived hdistinct
    rw [cacheAfter, List.foldl_append]
    exact hstep.2

/-- Every call returns what the root key and the indices passed so far decide. -/
theorem result_after {before : List Call} {call : Call}
    (hderived : ∀ i < root.config.keySearchLimit, ∃ child, root.child i = .ok child)
    (hdistinct : root.Distinct (root.nameable (Call.passedBy root (before ++ [call])))) :
    call.program.result root (cacheAfter root before) =
      call.answer root (Call.passedBy root (before ++ [call])) := by
  have hbefore := hdistinct.mono
    (Set.union_subset_union_left _ (Call.passedBy_subset_append root before call))
  exact (Call.result_step (tracks_cacheAfter before hderived hbefore) hderived hdistinct).1

def shallow : KeyRoot := ⟨KeyRoot.lone.key, ⟨2⟩⟩

set_option maxRecDepth 10000 in
theorem ids_shallow :
    ((shallow.child 0).toOption.bind fun first ↦
      (shallow.child 1).toOption.map fun second ↦ decide (first.2 = second.2)) = some false := by
  decide +kernel

theorem children_shallow :
    ∃ first second, shallow.child 0 = .ok first ∧ shallow.child 1 = .ok second ∧
      first.2 ≠ second.2 := by
  have h := ids_shallow
  cases hfirst : shallow.child 0 with
  | error e =>
    rw [hfirst] at h
    cases h
  | ok first =>
    cases hsecond : shallow.child 1 with
    | error e =>
      rw [hfirst, hsecond] at h
      cases h
    | ok second =>
      rw [hfirst, hsecond] at h
      exact ⟨first, second, rfl, rfl, of_decide_eq_false (Option.some.inj h)⟩

theorem distinct_of_children {root : KeyRoot} {first second : ExtendedKey × Identifier}
    {indices : Set UInt32} (hfirst : root.child 0 = .ok first) (hsecond : root.child 1 = .ok second)
    (hne : first.2 ≠ second.2) (h : ∀ i ∈ indices, i = 0 ∨ i = 1) : root.Distinct indices := by
  intro i hi j hj key key' id hchild hchild'
  rcases h i hi with rfl | rfl
  · rcases h j hj with rfl | rfl
    · rfl
    · cases hfirst.symm.trans hchild
      cases hsecond.symm.trans hchild'
      exact absurd rfl hne
  · rcases h j hj with rfl | rfl
    · cases hsecond.symm.trans hchild
      cases hfirst.symm.trans hchild'
      exact absurd rfl hne
    · rfl

theorem eq_zero_or_one_of_lt {i : UInt32} (h : i < 2) : i = 0 ∨ i = 1 := by
  have hlt : i.toNat < 2 := UInt32.lt_iff_toNat_lt.mp h
  have hcases : i.toNat = 0 ∨ i.toNat = 1 := by omega
  rcases hcases with hi | hi
  · exact .inl (UInt32.toNat_inj.mp hi)
  · exact .inr (UInt32.toNat_inj.mp hi)

/-- A search for an identifier that no child has, which leaves both children that it comes to in the
cache, a call that passes the index of the first one, and a look-up of the second one by its name. -/
theorem result_after_search :
    let found : Identifier := match shallow.child 1 with | .ok child => child.2 | .error _ => .zero
    let before : List Call := [.switchCommit ⟨.ofNat 1⟩, .commitWithKeyIndex 7 0]
    (Call.commit 7 found).program.result shallow (cacheAfter shallow before) =
      (Call.commit 7 found).answer shallow
        (Call.passedBy shallow (before ++ [.commit 7 found])) := by
  intro found before
  obtain ⟨first, second, hfirst, hsecond, hne⟩ := children_shallow
  apply result_after
  · intro i hi
    rcases eq_zero_or_one_of_lt hi with rfl | rfl
    · exact ⟨first, hfirst⟩
    · exact ⟨second, hsecond⟩
  · refine distinct_of_children hfirst hsecond hne fun i hi ↦ ?_
    rcases hi with ⟨-, call, hcall, hindex⟩ | hi
    · simp only [before, List.cons_append, List.nil_append, List.mem_cons, List.not_mem_nil,
        or_false] at hcall
      rcases hcall with rfl | rfl | rfl
      · cases hindex
      · cases hindex
        exact .inl rfl
      · cases hindex
    · exact eq_zero_or_one_of_lt hi

end Keychain

end ConfidentialTx
