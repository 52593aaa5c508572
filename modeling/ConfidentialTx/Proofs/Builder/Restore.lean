import Mathlib
import ConfidentialTx.Proofs.Builder.Continue
import ConfidentialTx.Proofs.Builder.Recover
import ConfidentialTx.Proofs.Commitment.Opening
import ConfidentialTx.Proofs.Keychain.Replay
import ConfidentialTx.Proofs.RangeProof.Recover
import ConfidentialTx.Proofs.Signature.Completeness

namespace ConfidentialTx

variable {root : KeyRoot} {names : Identifier → Except KeychainError SecretKey}
  {first rest : List Step} {step : Step}

/-- All keychains of a seed have one root key. -/
theorem KeyRoot.ofSeed_of_ofSeed {config config' : KeychainConfig} {seed : Bytes}
    (h : (ofSeed config seed).run.value = .ok root) :
    (ofSeed config' seed).run.value = .ok ⟨root.key, config'⟩ := by
  rw [value_ofSeed] at h ⊢
  obtain ⟨key, hkey, rfl⟩ := map_eq_ok_iff.mp h
  exact map_eq_ok_iff.mpr ⟨key, hkey, rfl⟩

theorem Output.resolving_recoverValue (out : Output) (id : Identifier) :
    (out.recoverValue id).Resolving :=
  .bind (.mapError _ (.bind (Keyed.resolving_secretKey id) fun _ ↦ Keyed.resolving_ofExcept _))
    fun _ ↦ Keyed.resolving_pure _

theorem Output.recoverValue_of_prove {out : Output} {id : Identifier} {key : SecretKey}
    {v : UInt64} {bs : Bytes} (hkey : names id = .ok key)
    (hcommit : Commitment.commit .commit v key = .ok out.commit)
    (hprove : RangeProof.prove .commit v key out.commit [] = .ok out.proof)
    (hsign : RangeProof.sign .full v.toNat (.pedersen v key.scalar) key key [] = .ok bs)
    (hunmarked : 3 * 2 ^ 62 ≤ v.toNat →
      (RangeProof.lastBlock? key (.pedersen v key.scalar) bs).bind RangeProof.markedValue? = none) :
    (out.recoverValue id).answer root names = .ok (some v) := by
  rw [RangeProof.prove_eq (Nat.zero_le _) hcommit hsign, RangeProof.leave] at hprove
  have hrewind := RangeProof.rewind_of_sign_full (Nat.zero_le _) hcommit hsign hunmarked
  rw [Except.ok.inj hprove] at hrewind
  rw [out.recoverValue_of_rewind hkey hrewind]
  rfl

namespace Step

def isInput : Step → Bool
  | input .. => true
  | output .. | withFee _ | withLockHeight _ | initialTx _ | withExcess _ => false

def isOutput : Step → Bool
  | output .. => true
  | input .. | withFee _ | withLockHeight _ | initialTx _ | withExcess _ => false

theorem isSome_spent (step : Step) : (step.spent root names).isSome = step.isInput := by
  cases step <;> rfl

theorem isSome_created (step : Step) : (step.created root names).isSome = step.isOutput := by
  cases step <;> rfl

/-- Nothing else keeps an output from being made: there is a proof even if the signer fails. -/
theorem exists_makeOutput {v : UInt64} {id : Identifier} {key : SecretKey} {c : Commitment}
    (hkey : names id = .ok key) (hcommit : Commitment.commit .commit v key = .ok c) :
    ∃ out, (makeOutput v id).answer root names = .ok out := by
  obtain ⟨s, hswitch⟩ := Commitment.exists_commitSwitch key
  have hprove : RangeProof.prove .commit v key c [] = .ok (RangeProof.leave _) :=
    RangeProof.prove_eq (Nat.zero_le _) hcommit rfl
  simp only [makeOutput, Keyed.answer_bind, answer_commit, Keychain.switchCommitHash,
    Keychain.rangeProof, Keyed.answer_secretKey, Keyed.answer_ofCurve, Keyed.answer_pure, hkey,
    hcommit, hswitch, hprove, Except.mapError, ok_bind]
  exact ⟨_, rfl⟩

theorem changes_split {g : Transaction → Transaction}
    (h : changes root names (first ++ step :: rest) = .ok g) (hkeep : ∀ tx, .initialTx tx ∉ rest) :
    ∃ (before change : Transaction → Transaction) (ins : List Input) (outs : List Output),
      step.change root names = .ok change ∧
      ins.length = rest.countP isInput ∧ outs.length = rest.countP isOutput ∧
      ∀ tx, (g tx).inputs = (change (before tx)).inputs ++ ins ∧
        (g tx).outputs = (change (before tx)).outputs ++ outs := by
  rw [changes_append] at h
  obtain ⟨before, -, h⟩ := bind_eq_ok_iff.mp h
  obtain ⟨others, hothers, h⟩ := bind_eq_ok_iff.mp h
  cases h
  obtain ⟨change, hchange, hothers⟩ := bind_eq_ok_iff.mp hothers
  obtain ⟨later, hlater, hothers⟩ := bind_eq_ok_iff.mp hothers
  cases hothers
  obtain ⟨ins, outs, hins, houts, hparts⟩ := changes_parts hlater hkeep
  refine ⟨before, change, ins, outs, hchange, ?_, ?_, fun tx ↦ hparts _⟩
  · have hlength := congrArg List.length hins
    rw [List.length_filterMap_eq_countP, List.length_map] at hlength
    simpa only [isSome_spent] using hlength.symm
  · have hlength := congrArg List.length houts
    rw [List.length_filterMap_eq_countP, List.length_map] at hlength
    simpa only [isSome_created] using hlength.symm

end Step

namespace Transaction

variable {tx : Transaction} {blind : BlindingFactor} {v : UInt64} {id : Identifier}

theorem output_of_build
    (hbuild : (build (first ++ .output v id :: rest)).answer root names = .ok (tx, blind))
    (hkeep : ∀ tx, .initialTx tx ∉ rest) :
    ∃ out front back, (Step.makeOutput v id).answer root names = .ok out ∧
      tx.outputs = front ++ out :: back ∧ back.length = rest.countP Step.isOutput := by
  obtain ⟨g, hg, hsigned⟩ := answer_build_eq_ok hbuild
  obtain ⟨⟨-, sig, -, -, rfl⟩, -⟩ := signed_eq_ok hsigned
  obtain ⟨before, change, ins, outs, hchange, -, hlength, hparts⟩ := Step.changes_split hg hkeep
  obtain ⟨out, hout, rfl⟩ := map_eq_ok_iff.mp hchange
  refine ⟨out, (before .empty).outputs, outs, hout, ?_, hlength⟩
  rw [List.append_cons]
  exact (hparts .empty).2

theorem input_of_build {key : SecretKey} {c : Commitment} (hkey : names id = .ok key)
    (hcommit : Commitment.commit .commit v key = .ok c)
    (hbuild : (build (first ++ .input v id :: rest)).answer root names = .ok (tx, blind))
    (hkeep : ∀ tx, .initialTx tx ∉ rest) :
    ∃ front back, tx.inputs = front ++ ⟨c⟩ :: back ∧ back.length = rest.countP Step.isInput := by
  obtain ⟨g, hg, hsigned⟩ := answer_build_eq_ok hbuild
  obtain ⟨⟨-, sig, -, -, rfl⟩, -⟩ := signed_eq_ok hsigned
  obtain ⟨before, change, ins, outs, hchange, hlength, -, hparts⟩ := Step.changes_split hg hkeep
  obtain ⟨c', hc, rfl⟩ := map_eq_ok_iff.mp hchange
  rw [Step.answer_commit, hkey, ok_bind, hcommit] at hc
  cases hc
  refine ⟨(before .empty).inputs, ins, ?_, hlength⟩
  rw [List.append_cons]
  exact (hparts .empty).1

/-- What a keychain made is seen in the cache that it was left with. -/
theorem output_of_run {cache after : KeyCache} {i limit : UInt32} {key : ExtendedKey}
    (hreach : root.Reaches cache) (hchild : root.child i = .ok (key, id))
    (hderived : ∀ j < i, ∃ child, root.child j = .ok child) (hlimit : i < limit)
    (hroot : id ≠ root.id) (hdistinct : root.Distinct ({j | j < limit} ∪ after.held))
    (hkeep : ∀ tx, .initialTx tx ∉ rest)
    (hbuild : ((build (first ++ .output v id :: rest)).run.run root cache).value =
      (.ok (tx, blind), after)) :
    ∃ out front back, Commitment.commit .commit v key.secretKey = .ok out.commit ∧
      RangeProof.prove .commit v key.secretKey out.commit [] = .ok out.proof ∧
      tx.outputs = front ++ out :: back ∧ back.length = rest.countP Step.isOutput := by
  have hresolving := resolving_build (first ++ .output v id :: rest)
  have hafter := KeyProgram.run_sound (build (first ++ .output v id :: rest)).run hreach.sound
  have hanswer := Keyed.result_eq_answer hresolving hreach.sound
  rw [Keyed.result, hbuild] at hanswer
  rw [hbuild] at hafter
  obtain ⟨out, front, back, hout, houtputs, hback⟩ :=
    output_of_build (hanswer (hdistinct.mono Set.subset_union_right)).symm hkeep
  obtain ⟨secret, hsecret, -, hcommit, -, hprove⟩ := Step.answer_makeOutput_eq_ok hout
  obtain rfl := KeyRoot.find_eq_key hafter hdistinct hlimit hderived hchild hroot hsecret
  exact ⟨out, front, back, hcommit, hprove, houtputs, hback⟩

/-- An output of a build is recovered from the seed alone: a new keychain that searches far enough
reads its value and spends it, whatever had been derived when it was made. -/
theorem restored_of_build {seed : Bytes} {config : KeychainConfig} {cache after : KeyCache}
    {i limit : UInt32} {key : ExtendedKey}
    (hseed : (KeyRoot.ofSeed config seed).run.value = .ok root) (hreach : root.Reaches cache)
    (hchild : root.child i = .ok (key, id)) (hderived : ∀ j < i, ∃ child, root.child j = .ok child)
    (hlimit : i < limit) (hroot : id ≠ root.id)
    (hdistinct : root.Distinct ({j | j < limit} ∪ after.held))
    (hkeep : ∀ tx, .initialTx tx ∉ rest)
    (hbuild : ((build (first ++ .output v id :: rest)).run.run root cache).value =
      (.ok (tx, blind), after)) :
    ∃ restored out front back,
      (KeyRoot.ofSeed ⟨limit⟩ seed).run.value = .ok restored ∧
      tx.outputs = front ++ out :: back ∧ back.length = rest.countP Step.isOutput ∧
      ∀ cache', restored.Later .empty cache' →
        (∀ bs, RangeProof.sign .full v.toNat (.pedersen v key.secretKey.scalar) key.secretKey
            key.secretKey [] = .ok bs →
          (3 * 2 ^ 62 ≤ v.toNat →
            (RangeProof.lastBlock? key.secretKey (.pedersen v key.secretKey.scalar) bs).bind
              RangeProof.markedValue? = none) →
          (out.recoverValue id).result restored cache' = .ok (some v)) ∧
        ∀ first' rest' tx' blind', (∀ tx, .initialTx tx ∉ rest') →
          (build (first' ++ .input v id :: rest')).result restored cache' = .ok (tx', blind') →
          ∃ front' back', tx'.inputs = front' ++ ⟨out.commit⟩ :: back' ∧
            back'.length = rest'.countP Step.isInput := by
  obtain ⟨out, front, back, hcommit, hprove, houtputs, hback⟩ :=
    output_of_run hreach hchild hderived hlimit hroot hdistinct hkeep hbuild
  let restored : KeyRoot := ⟨root.key, ⟨limit⟩⟩
  have hbelow : restored.Distinct {j | j < restored.config.keySearchLimit} :=
    hdistinct.mono Set.subset_union_left
  have hchildren := KeyRoot.distinctChildren_empty hbelow
  have hname : restored.names .empty id = .ok key.secretKey :=
    KeyRoot.names_empty hbelow hlimit hderived hchild hroot
  refine ⟨restored, out, front, back, KeyRoot.ofSeed_of_ofSeed hseed, houtputs, hback, ?_⟩
  intro cache' hlater
  refine ⟨?_, ?_⟩
  · intro bs hsign hunmarked
    rw [hlater.result_eq (out.resolving_recoverValue id) restored.reaches_empty hchildren]
    exact Output.recoverValue_of_prove hname hcommit hprove hsign hunmarked
  · intro first' rest' tx' blind' hkeep' hspend
    rw [hlater.result_eq (resolving_build _) restored.reaches_empty hchildren] at hspend
    exact input_of_build hname hcommit hspend hkeep'

def onesKey : ExtendedKey where
  depth := 0
  childIndex := 0
  rootKeyId := ⟨.ofNat 0xf88881e632b3cae59838⟩
  chainCode := .ofNat 0xa9b42210d93ee5fc96ccb7cbc499dec29de8d8235edee0fc9c24de33f123f9d7
  secretKey :=
    ⟨⟨0x7a37ca93fd84c0bab6a71e4e1eaa68949f34708e4fc6c1956893fac9bf496919, by decide⟩, by decide⟩

def onesChild : ExtendedKey where
  depth := 1
  childIndex := 0
  rootKeyId := ⟨.ofNat 0xf88881e632b3cae59838⟩
  chainCode := .ofNat 0xc53a835090db024dd1f9bf0362330e44bdc59a05dd73750bcc331dd7848c1e55
  secretKey :=
    ⟨⟨0xb2fa21ab3a52c3789b2e1a34d181dd7af362bfccb8a1c9a5a76d606924b2ed06, by decide⟩, by decide⟩

def onesId : Identifier := ⟨.ofNat 0x833b16d8b0a0accffa30⟩

/-- A keychain without a search, and its cache with the first child. -/
def onesRoot : KeyRoot := ⟨onesKey, .default⟩

def onesCache : KeyCache := KeyCache.empty.insert 0 onesId onesChild

set_option maxRecDepth 10000 in
theorem ofSeed_ones : ExtendedKey.ofSeed .commit (List.replicate 16 1) = .ok onesKey := by
  decide +kernel

set_option maxRecDepth 10000 in
theorem child_onesRoot : onesRoot.child 0 = .ok (onesChild, onesId) := by
  decide +kernel

theorem reaches_onesCache : onesRoot.Reaches onesCache := by
  refine ⟨_, (Keychain.deriveKeyId 0).run, ?_⟩
  change (KeyProgram.run onesRoot (.derive 0 .done) .empty).value.2 = _
  rw [KeyProgram.run, Logged.value_bind, KeyRoot.derive_new rfl child_onesRoot]
  rfl

theorem held_of_grown {after : KeyCache} (h : onesRoot.Grown onesCache after) :
    ∀ i ∈ after.held, i = 0 := by
  intro i hi
  obtain ⟨id, hid⟩ := hi
  rcases h.adds i id hid with hold | ⟨hlimit, -⟩
  · by_contra hne
    rw [onesCache, KeyCache.id?_insert_of_ne _ _ _ hne] at hold
    cases hold
  · exact absurd hlimit (by simp [onesRoot, KeychainConfig.default])

theorem distinct_of_eq_zero {indices : Set UInt32} (h : ∀ i ∈ indices, i = 0) :
    onesRoot.Distinct indices := by
  intro i hi j hj _ _ _ _ _
  rw [h i hi, h j hj]

theorem names_onesCache : onesRoot.names onesCache onesId = .ok onesChild.secretKey := by
  have hroot : onesId ≠ onesRoot.id := by decide +kernel
  rw [KeyRoot.names, (KeyRoot.resolve_spec reaches_onesCache.sound onesId).1, KeyRoot.find,
    if_neg hroot, onesCache, KeyCache.key?_insert_self]

theorem distinctChildren_onesCache : onesRoot.DistinctChildren onesCache := by
  have hknown : ∀ i, onesRoot.Known onesCache i → i = 0 := by
    intro i hi
    rcases hi with hheld | hlimit
    · exact held_of_grown (.refl onesRoot onesCache) i hheld
    · exact absurd hlimit (by simp [onesRoot, KeychainConfig.default])
  intro i j hi hj _ _ _ _ _
  rw [hknown i hi, hknown j hj]

set_option maxRecDepth 10000 in
theorem ends_ones : Signature.Ends (kernelMessage 3 0) onesChild.secretKey := by
  refine ⟨0, ?_, ?_⟩
  · decide
  · decide +kernel

theorem answer_build_ones : ∃ tx blind,
    (build [.output 5 onesId, .withFee 3]).answer onesRoot (onesRoot.names onesCache) =
      .ok (tx, blind) := by
  have hcommit : (Commitment.commit .commit 5 onesChild.secretKey).isOk = true := by
    decide +kernel
  obtain ⟨c, hc⟩ := exists_of_isOk hcommit
  obtain ⟨sig, hsig⟩ := @Signature.exists_sign .commit _ _ rfl ends_ones
  obtain ⟨out, hout⟩ := @Step.exists_makeOutput onesRoot _ _ _ _ _ names_onesCache hc
  have hchanges : Step.changes onesRoot (onesRoot.names onesCache)
      [.output 5 onesId, .withFee 3] = .ok fun tx ↦ { tx.addOutput out with fee := 3 } := by
    rw [Step.changes, Step.change, hout]
    rfl
  have hshare : ([.output 5 onesId, .withFee 3].map
      (Step.contribution (onesRoot.names onesCache))).sum = onesChild.secretKey.scalar.toZMod := by
    simp [Step.contribution, share_of_names names_onesCache]
  rw [answer_build, hchanges, hshare, ok_bind, signed, Residue.ofZMod_toZMod,
    BlindingFactor.toSecretKey_of_scalar, ok_bind]
  change ∃ tx blind, ((Signature.sign .commit (kernelMessage 3 0) _).mapError _ >>= _).mapError _ =
    _
  rw [hsig]
  exact ⟨_, _, rfl⟩

theorem exists_build_ones :
    ∃ tx blind after, ((build [.output 5 onesId, .withFee 3]).run.run onesRoot onesCache).value =
      (.ok (tx, blind), after) ∧ ∀ i ∈ after.held, i = 0 := by
  have hgrown := KeyProgram.run_grown (resolving_build [.output 5 onesId, .withFee 3])
    reaches_onesCache.sound
  have hresult := (KeyRoot.Later.refl onesRoot onesCache).result_eq
    (resolving_build [.output 5 onesId, .withFee 3]) reaches_onesCache distinctChildren_onesCache
  obtain ⟨tx, blind, hanswer⟩ := answer_build_ones
  rw [hanswer, Keyed.result] at hresult
  generalize ((build [.output 5 onesId, .withFee 3]).run.run onesRoot onesCache).value = final
    at hgrown hresult ⊢
  obtain ⟨answer, after⟩ := final
  exact ⟨tx, blind, after, by rw [← hresult], held_of_grown hgrown⟩

/-- The output is the last of its transaction, and its key, which was at hand when it was made, has to
be searched for when it is recovered and spent. That the signer succeeds stays a condition;
`RangeProof.exists_sign_exact` is a short run that does. -/
theorem restored_of_build_ones :
    ∃ restored tx blind after out,
      ((build [.output 5 onesId, .withFee 3]).run.run onesRoot onesCache).value =
        (.ok (tx, blind), after) ∧
      (KeyRoot.ofSeed ⟨1⟩ (List.replicate 16 1)).run.value = .ok restored ∧
      tx.outputs.getLast? = some out ∧
      (∀ bs, RangeProof.sign .full (5 : UInt64).toNat (.pedersen 5 onesChild.secretKey.scalar)
          onesChild.secretKey onesChild.secretKey [] = .ok bs →
        (out.recoverValue onesId).result restored .empty = .ok (some 5)) ∧
      ∀ tx' blind', (build [.input 5 onesId, .withFee 5]).result restored .empty =
          .ok (tx', blind') →
        tx'.inputs.getLast? = some ⟨out.commit⟩ := by
  obtain ⟨tx, blind, after, hbuild, hheld⟩ := exists_build_ones
  have hseed : (KeyRoot.ofSeed .default (List.replicate 16 1)).run.value = .ok onesRoot := by
    rw [KeyRoot.value_ofSeed, ofSeed_ones]
    rfl
  have hroot : onesId ≠ onesRoot.id := by decide +kernel
  have hderived : ∀ j < (0 : UInt32), ∃ child, onesRoot.child j = .ok child := by
    intro j hj
    exact absurd hj UInt32.not_lt_zero
  have hdistinct : onesRoot.Distinct ({j | j < 1} ∪ after.held) := by
    apply distinct_of_eq_zero
    intro i hi
    rcases hi with hi | hi
    · exact UInt32.toNat_inj.mp (Nat.lt_one_iff.mp (UInt32.lt_iff_toNat_lt.mp hi))
    · exact hheld i hi
  obtain ⟨restored, out, front, back, hrestored, houtputs, hback, hlater⟩ :=
    @restored_of_build onesRoot [] [.withFee 3] tx blind 5 onesId _ _ _ _ _ _ _ hseed
      reaches_onesCache child_onesRoot hderived (by decide) hroot hdistinct (by simp) hbuild
  obtain ⟨hrecover, hspend⟩ := hlater .empty (.refl restored .empty)
  have hsmall : ¬3 * 2 ^ 62 ≤ (5 : UInt64).toNat := by decide
  refine ⟨restored, tx, blind, after, out, hbuild, hrestored, ?_, ?_, ?_⟩
  · rw [houtputs, List.length_eq_zero_iff.mp hback, List.getLast?_concat]
  · intro bs hsign
    exact hrecover bs hsign fun hlarge ↦ absurd hlarge hsmall
  · intro tx' blind' hspent
    obtain ⟨front', back', hinputs, hback'⟩ :=
      hspend [] [.withFee 5] tx' blind' (by simp) hspent
    rw [hinputs, List.length_eq_zero_iff.mp hback', List.getLast?_concat]

end Transaction

end ConfidentialTx
