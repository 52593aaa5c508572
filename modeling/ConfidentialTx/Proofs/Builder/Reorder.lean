import Mathlib
import ConfidentialTx.Proofs.Builder.Parts

namespace ConfidentialTx

variable {root : KeyRoot} {names : Identifier → Except KeychainError SecretKey} {cache : KeyCache}
  {steps steps' : List Step}

namespace Step

theorem exists_changes_iff :
    (∃ g, changes root names steps = .ok g) ↔ ∀ step ∈ steps, ∃ g, step.change root names = .ok g := by
  induction steps with
  | nil => exact ⟨fun _ ↦ List.forall_mem_nil _, fun _ ↦ ⟨id, rfl⟩⟩
  | cons step steps ih =>
    rw [List.forall_mem_cons, ← ih]
    constructor
    · intro h
      obtain ⟨g, hg⟩ := h
      obtain ⟨first, hfirst, hg⟩ := bind_eq_ok_iff.mp hg
      obtain ⟨rest, hrest, -⟩ := bind_eq_ok_iff.mp hg
      exact ⟨⟨first, hfirst⟩, rest, hrest⟩
    · intro h
      obtain ⟨⟨first, hfirst⟩, rest, hrest⟩ := h
      exact ⟨rest ∘ first, by rw [changes, hfirst, ok_bind, hrest]; rfl⟩

theorem exists_changes_of_perm {g : Transaction → Transaction} (hperm : steps.Perm steps')
    (hsteps : changes root names steps = .ok g) : ∃ g', changes root names steps' = .ok g' := by
  rw [exists_changes_iff]
  intro step hstep
  exact exists_changes_iff.mp ⟨g, hsteps⟩ step (hperm.mem_iff.mpr hstep)

theorem kernel_eq_of_last {g g' : Transaction → Transaction} (hperm : steps.Perm steps')
    (hkeeps : ∀ tx, .initialTx tx ∉ steps)
    (hfee : (steps.filterMap fee?).getLast? = (steps'.filterMap fee?).getLast?)
    (hlockHeight : (steps.filterMap lockHeight?).getLast? =
      (steps'.filterMap lockHeight?).getLast?)
    (hsteps : changes root names steps = .ok g) (hsteps' : changes root names steps' = .ok g')
    (tx : Transaction) : (g' tx).fee = (g tx).fee ∧ (g' tx).lockHeight = (g tx).lockHeight := by
  have hkeeps' : ∀ tx, .initialTx tx ∉ steps' := fun tx htx ↦ hkeeps tx (hperm.mem_iff.mpr htx)
  have h := kernel_changes hsteps tx
  have h' := kernel_changes hsteps' tx
  rw [foldl_feeAfter hkeeps, foldl_lockHeightAfter hkeeps] at h
  rw [foldl_feeAfter hkeeps', foldl_lockHeightAfter hkeeps', ← hfee, ← hlockHeight] at h'
  exact ⟨h'.1.trans h.1.symm, h'.2.trans h.2.symm⟩

theorem parts_perm {g g' : Transaction → Transaction} (hperm : steps.Perm steps')
    (hkeeps : ∀ tx, .initialTx tx ∉ steps) (hsteps : changes root names steps = .ok g)
    (hsteps' : changes root names steps' = .ok g') (tx : Transaction) :
    (g' tx).inputs.Perm (g tx).inputs ∧ (g' tx).outputs.Perm (g tx).outputs := by
  have hkeeps' : ∀ tx, .initialTx tx ∉ steps' := fun tx htx ↦ hkeeps tx (hperm.mem_iff.mpr htx)
  obtain ⟨ins, outs, hins, houts, hparts⟩ := changes_parts hsteps hkeeps
  obtain ⟨ins', outs', hins', houts', hparts'⟩ := changes_parts hsteps' hkeeps'
  have hspent : (ins'.map Except.ok : List (Except KeychainError Input)).Perm
      (ins.map Except.ok) := by
    rw [← hins, ← hins']
    exact (hperm.filterMap _).symm
  have hcreated : (outs'.map Except.ok : List (Except KeychainError Output)).Perm
      (outs.map Except.ok) := by
    rw [← houts, ← houts']
    exact (hperm.filterMap _).symm
  rw [List.map_perm_map_iff fun _ _ h ↦ Except.ok.inj h] at hspent hcreated
  rw [(hparts tx).1, (hparts tx).2, (hparts' tx).1, (hparts' tx).2]
  exact ⟨hspent.append_left _, hcreated.append_left _⟩

end Step

namespace Transaction

variable {tx : Transaction} {blind : BlindingFactor}

/-- The signature looks at the fee and the lock height only. -/
theorem signed_of_message_eq {made made' : Transaction} {b : ZMod groupOrder}
    (hmessage : made'.message = made.message) (h : made.signed b = .ok (tx, blind)) :
    made'.signed b = .ok ({ made' with excessSig := tx.excessSig }, blind) := by
  obtain ⟨key, hkey, h⟩ := bind_eq_ok_iff.mp h
  obtain ⟨sig, hsig, h⟩ := bind_eq_ok_iff.mp h
  cases h
  rw [signed, hkey, ok_bind, hmessage, hsig]
  rfl

/-- If steps build a transaction, then the same steps in another order build the same one up to the
order of its inputs and of its outputs, as long as they set the same fee and lock height last. -/
theorem build_perm (hreach : root.Reaches cache) (hdistinct : root.DistinctChildren cache)
    (hperm : steps.Perm steps') (hkeeps : ∀ tx, .initialTx tx ∉ steps)
    (hfee : (steps.filterMap Step.fee?).getLast? = (steps'.filterMap Step.fee?).getLast?)
    (hlockHeight : (steps.filterMap Step.lockHeight?).getLast? =
      (steps'.filterMap Step.lockHeight?).getLast?)
    (hbuild : (build steps).result root cache = .ok (tx, blind)) :
    ∃ tx', (build steps').result root cache = .ok (tx', blind) ∧
      tx'.fee = tx.fee ∧ tx'.lockHeight = tx.lockHeight ∧ tx'.excessSig = tx.excessSig ∧
      tx'.inputs.Perm tx.inputs ∧ tx'.outputs.Perm tx.outputs := by
  have hlater := KeyRoot.Later.refl root cache
  rw [hlater.result_eq (resolving_build steps) hreach hdistinct] at hbuild
  rw [hlater.result_eq (resolving_build steps') hreach hdistinct]
  obtain ⟨g, hg, hsigned⟩ := answer_build_eq_ok hbuild
  obtain ⟨g', hg'⟩ := Step.exists_changes_of_perm hperm hg
  obtain ⟨hsameFee, hsameHeight⟩ :=
    Step.kernel_eq_of_last hperm hkeeps hfee hlockHeight hg hg' .empty
  obtain ⟨hinputs, houtputs⟩ := Step.parts_perm hperm hkeeps hg hg' .empty
  have hmessage : (g' .empty).message = (g .empty).message := by
    rw [message, message, hsameFee, hsameHeight]
  have hsum : (steps'.map (Step.contribution (root.names cache))).sum =
      (steps.map (Step.contribution (root.names cache))).sum :=
    (hperm.map _).sum_eq.symm
  have hsigned' := signed_of_message_eq hmessage hsigned
  obtain ⟨⟨-, sig, -, -, rfl⟩, -⟩ := signed_eq_ok hsigned
  refine ⟨{ g' .empty with excessSig := sig.toCompact }, ?_, hsameFee, hsameHeight, rfl, hinputs,
    houtputs⟩
  rw [answer_build, hg', ok_bind, hsum, hsigned']
  rfl

/-- Three steps under one key trade places, and so do two fees that a third one overrides. -/
theorem build_perm_ones :
    ∃ tx blind tx', (build [.output 5 onesId, .withFee 8, .input 5 onesId, .withFee 9,
        .output 5 onesId, .withFee 3]).result onesRoot onesCache = .ok (tx, blind) ∧
      (build [.input 5 onesId, .withFee 9, .output 5 onesId, .withFee 8, .output 5 onesId,
        .withFee 3]).result onesRoot onesCache = .ok (tx', blind) ∧
      tx'.excessSig = tx.excessSig ∧ tx'.outputs.Perm tx.outputs := by
  let front : List Step := [.output 5 onesId, .withFee 8]
  let back : List Step := [.input 5 onesId, .withFee 9]
  let last : List Step := [.output 5 onesId, .withFee 3]
  have hnet : ((front ++ back ++ last).map (Step.contribution (onesRoot.names onesCache))).sum =
      onesChild.secretKey.scalar.toZMod := by
    simp [front, back, last, Step.contribution, share_of_names names_onesCache]
  have hcommittable : ∀ step ∈ front ++ back ++ last,
      step.Committable (onesRoot.names onesCache) := by
    simp only [front, back, last, List.cons_append, List.nil_append, List.forall_mem_cons]
    exact ⟨committable_ones, trivial, committable_ones, trivial, committable_ones, trivial,
      List.forall_mem_nil _⟩
  have hfound : ∀ step ∈ front ++ back ++ last, step.Found (onesRoot.names onesCache) := by
    simp [front, back, last, Step.Found, Step.keyId?, names_onesCache]
  have hne : onesChild.secretKey.scalar.toZMod ≠ 0 := by
    rw [ne_eq, Residue.toZMod_eq_zero]
    exact onesChild.secretKey.ne_zero
  obtain ⟨⟨tx, blind⟩, hanswer⟩ := @exists_build onesRoot _ _ hcommittable hfound (hnet ▸ hne)
    (signingEnds_ones hnet rfl rfl)
  rw [← (KeyRoot.Later.refl onesRoot onesCache).result_eq (resolving_build _) reaches_onesCache
    distinctChildren_onesCache] at hanswer
  have hperm : (front ++ back ++ last).Perm (back ++ front ++ last) :=
    List.perm_append_comm.append_right last
  obtain ⟨tx', hbuild', -, -, hsig, -, houtputs⟩ :=
    build_perm reaches_onesCache distinctChildren_onesCache hperm (by simp [front, back, last])
      rfl rfl hanswer
  exact ⟨tx, blind, tx', hanswer, hbuild', hsig, houtputs⟩

end Transaction

end ConfidentialTx
