import Mathlib
import ConfidentialTx.Proofs.Builder.Recover
import ConfidentialTx.Proofs.RangeProof.Prefix
import ConfidentialTx.Proofs.Transaction.CutThrough

namespace ConfidentialTx

variable {cap : Capability} {a b : Output} {s t : Transaction}

namespace Output

theorem beq_iff : (a == b) = true ↔ a.features = b.features ∧ a.commit = b.commit ∧
    a.switchCommitHash = b.switchCommitHash ∧ a.proof.buffer = b.proof.buffer := by
  simp only [BEq.beq, Bool.and_eq_true, decide_eq_true_eq, and_assoc]

theorem verifyProof_eq_ok_iff {o : Output} :
    o.verifyProof cap = .ok () ↔ ∃ range, RangeProof.verify cap o.commit o.proof = .ok range := by
  unfold verifyProof
  cases RangeProof.verify cap o.commit o.proof <;> simp

theorem verifyProof_of_ne {o : Output} (h : o.verifyProof cap ≠ .ok ()) :
    o.verifyProof cap = .error .invalidRangeProof := by
  unfold verifyProof at h ⊢
  split
  · rename_i range hrange
    rw [hrange] at h
    exact absurd rfl h
  · rfl

theorem proof_eq_of_beq (h : (a == b) = true) (hsize : a.proof.size = b.proof.size) :
    a.proof = b.proof := by
  obtain ⟨-, -, -, hbuffer⟩ := beq_iff.mp h
  rw [show a.proof = ⟨a.proof.buffer, a.proof.size⟩ from rfl, hbuffer, hsize]

theorem size_eq_of_verifyProof {cap' : Capability} (h : (a == b) = true)
    (ha : a.verifyProof cap = .ok ()) (hb : b.verifyProof cap' = .ok ()) :
    a.proof.size = b.proof.size := by
  obtain ⟨-, -, -, hbuffer⟩ := beq_iff.mp h
  obtain ⟨range, hrange⟩ := verifyProof_eq_ok_iff.mp ha
  obtain ⟨range', hrange'⟩ := verifyProof_eq_ok_iff.mp hb
  obtain ⟨-, -, hsize, parts, _, hparts, -, -⟩ := RangeProof.verify_eq_ok_iff.mp hrange
  obtain ⟨-, -, hsize', parts', _, hparts', -, -⟩ := RangeProof.verify_eq_ok_iff.mp hrange'
  exact RangeProof.size_eq_of_ofBytes? hbuffer (RangeProof.size_le_of_checkSize hsize)
    (RangeProof.size_le_of_checkSize hsize') hparts hparts'

def resize (o : Output) (size : Nat) : Output := { o with proof := { o.proof with size } }

theorem beq_resize (o : Output) (size : Nat) : (o == o.resize size) = true :=
  beq_iff.mpr ⟨rfl, rfl, rfl, rfl⟩

/-- Checks tell the outputs apart at most by the sizes of their proofs. -/
def Alike (cap : Capability) (a b : Output) : Prop :=
  a.proof.size = b.proof.size ∨ a.verifyProof cap ≠ .ok () ∧ b.verifyProof cap ≠ .ok ()

theorem verifyProof_eq_iff (h : (a == b) = true) :
    a.verifyProof cap = b.verifyProof cap ↔ Alike cap a b := by
  constructor
  · intro hsame
    by_cases hok : a.verifyProof cap = .ok ()
    · exact .inl (size_eq_of_verifyProof h hok (hsame ▸ hok))
    · exact .inr ⟨hok, hsame ▸ hok⟩
  · rintro (hsize | ⟨ha, hb⟩)
    · obtain ⟨-, hcommit, -, -⟩ := beq_iff.mp h
      rw [verifyProof, verifyProof, hcommit, proof_eq_of_beq h hsize]
    · rw [verifyProof_of_ne ha, verifyProof_of_ne hb]

theorem rewind_eq_of_alike (h : (a == b) = true) (halike : Alike .commit a b)
    (hsize : RangeProof.checkSize a.proof = RangeProof.checkSize b.proof) (nonce : SecretKey) :
    RangeProof.rewind .commit a.commit a.proof nonce =
      RangeProof.rewind .commit b.commit b.proof nonce := by
  obtain ⟨-, hcommit, -, -⟩ := beq_iff.mp h
  rcases halike with hsame | ⟨ha, hb⟩
  · rw [hcommit, proof_eq_of_beq h hsame]
  · by_cases hc : a.commit.IsPoint
    · have hneA : ∀ range, RangeProof.verify .commit a.commit a.proof ≠ .ok range :=
        fun range hrange ↦ ha (verifyProof_eq_ok_iff.mpr ⟨range, hrange⟩)
      have hneB : ∀ range, RangeProof.verify .commit b.commit b.proof ≠ .ok range :=
        fun range hrange ↦ hb (verifyProof_eq_ok_iff.mpr ⟨range, hrange⟩)
      cases hcheck : RangeProof.checkSize a.proof with
      | ok u =>
        rw [RangeProof.rewind_of_verify_ne hc hcheck hneA,
          RangeProof.rewind_of_verify_ne (hcommit ▸ hc) (hsize ▸ hcheck) hneB]
      | error e =>
        simp only [RangeProof.rewind, hcommit, hcheck, ← hsize, error_bind]
    · simp only [RangeProof.rewind, ← hcommit, Commitment.toPoint_of_not_isPoint hc, error_bind]

/-- The programs are the same, and so is what they do to any keychain. -/
theorem recoverValue_eq_of_alike (h : (a == b) = true) (halike : Alike .commit a b)
    (hsize : RangeProof.checkSize a.proof = RangeProof.checkSize b.proof) (id : Identifier) :
    a.recoverValue id = b.recoverValue id := by
  simp only [recoverValue, Keychain.rewindRangeProof, rewind_eq_of_alike h halike hsize]

theorem result_recoverValue (o : Output) (root : KeyRoot) (cache : KeyCache) (id : Identifier) :
    (o.recoverValue id).result root cache = (o.recoverValue id).answer root (root.names cache) := by
  change ((KeyProgram.resolve id _).run root cache).value.1 =
    (KeyProgram.resolve id _).answer root (root.names cache)
  rw [KeyProgram.run, Logged.value_bind, KeyProgram.answer]
  have hname : root.names cache id = (root.resolve id cache).value.1 := rfl
  rw [hname]
  generalize (root.resolve id cache).value = found
  obtain ⟨answer, next⟩ := found
  cases answer with
  | error e => rfl
  | ok key =>
    change ((KeyProgram.bind _ (.done ((Except.mapError KeychainError.ofCurve
      (RangeProof.rewind .commit o.commit o.proof key)).mapError _))).run root next).value.1 =
      (KeyProgram.bind _ (.done ((Except.mapError KeychainError.ofCurve
        (RangeProof.rewind .commit o.commit o.proof key)).mapError _))).answer root _
    cases RangeProof.rewind .commit o.commit o.proof key with
    | error e => rfl
    | ok info => rfl

theorem verifyProof_of_recoverValue {o : Output} {root : KeyRoot} {cache : KeyCache}
    {id : Identifier} {v : UInt64} (h : (o.recoverValue id).result root cache = .ok (some v)) :
    o.verifyProof .commit = .ok () := by
  rw [result_recoverValue] at h
  cases hname : root.names cache id with
  | error e =>
    rw [recoverValue, Keyed.answer_bind, Keyed.answer_mapError, Keychain.rewindRangeProof,
      Keyed.answer_bind, Keyed.answer_secretKey, hname] at h
    cases h
  | ok key =>
    obtain ⟨info, hinfo, hsuccess, -⟩ := recoverValue_eq_some hname h
    obtain ⟨hc, hsize, -⟩ := RangeProof.rewind_eq_ok hinfo
    by_contra hne
    have hfailed := RangeProof.rewind_of_verify_ne hc hsize
      (fun range hrange ↦ hne (verifyProof_eq_ok_iff.mpr ⟨range, hrange⟩)) key
    rw [hinfo, Except.ok.injEq] at hfailed
    rw [hfailed] at hsuccess
    cases hsuccess

end Output

theorem Committed.checkProofs_congr {outs outs' : List Output}
    (h : List.Forall₂ (fun a b ↦ (a == b) = true ∧ a.verifyProof cap = b.verifyProof cap) outs outs') :
    checkProofs cap (outs.map fun o ↦ (o.commit, o.proof)) =
      checkProofs cap (outs'.map fun o ↦ (o.commit, o.proof)) := by
  induction h with
  | nil => rfl
  | @cons a b _ _ hhead _ ih =>
    obtain ⟨hbeq, hverify⟩ := hhead
    obtain ⟨-, hcommit, -, -⟩ := Output.beq_iff.mp hbeq
    have hiff : (∃ range, RangeProof.verify cap a.commit a.proof = .ok range) ↔
        ∃ range, RangeProof.verify cap b.commit b.proof = .ok range := by
      rw [← Output.verifyProof_eq_ok_iff, hverify, Output.verifyProof_eq_ok_iff]
    simp only [List.map_cons, checkProofs]
    cases ha : RangeProof.verify cap a.commit a.proof with
    | ok range =>
      obtain ⟨range', hb⟩ := hiff.mp ⟨range, ha⟩
      simp only [hb, ih]
    | error e =>
      cases hb : RangeProof.verify cap b.commit b.proof with
      | ok range =>
        obtain ⟨range', ha'⟩ := hiff.mpr ⟨range, hb⟩
        rw [ha] at ha'
        cases ha'
      | error e' => simp only [hcommit]

theorem Output.forall₂_of_beq {outs outs' : List Output} (h : (outs == outs') = true) :
    List.Forall₂ (fun a b ↦ (a == b) = true) outs outs' := by
  induction outs generalizing outs' with
  | nil => cases outs' with
    | nil => exact .nil
    | cons => cases h
  | cons a outs ih => cases outs' with
    | nil => cases h
    | cons b outs' =>
      rw [List.cons_beq_cons, Bool.and_eq_true] at h
      exact .cons h.1 (ih h.2)

namespace Transaction

theorem beq_iff : (s == t) = true ↔ s.inputs = t.inputs ∧ (s.outputs == t.outputs) = true ∧
    s.fee = t.fee ∧ s.lockHeight = t.lockHeight ∧ s.excessSig = t.excessSig := by
  change (s.inputs == t.inputs && s.outputs == t.outputs && s.fee == t.fee &&
    s.lockHeight == t.lockHeight && s.excessSig == t.excessSig) = true ↔ _
  simp only [Bool.and_eq_true, beq_iff_eq, and_assoc]

theorem validate_congr (h : (s == t) = true)
    (hproofs : ∀ a b, (a, b) ∈ s.outputs.zip t.outputs → a.verifyProof cap = b.verifyProof cap) :
    s.validate cap = t.validate cap := by
  obtain ⟨hinputs, houtputs, hfee, hheight, hsig⟩ := beq_iff.mp h
  have hbeq := Output.forall₂_of_beq houtputs
  have hcommits : s.outputs.map (·.commit) = t.outputs.map (·.commit) := by
    rw [← List.forall₂_eq_eq_eq, List.forall₂_map_left_iff, List.forall₂_map_right_iff]
    exact hbeq.imp fun _ _ hab ↦ (Output.beq_iff.mp hab).2.1
  obtain ⟨hlength, hzip⟩ := List.forall₂_iff_zip.mp hbeq
  have hchecks := Committed.checkProofs_congr
    (List.forall₂_iff_zip.mpr ⟨hlength, fun hab ↦ ⟨hzip hab, hproofs _ _ hab⟩⟩)
  have hcommitted : s.committed = { t.committed with proofs := s.committed.proofs } := by
    rw [committed, committed, hcommits, hinputs, overage, overage, hfee]
  have hsum : s.committed.sum cap = t.committed.sum cap := by
    rw [hcommitted, Committed.sum, Committed.sum]
    change (Committed.checkProofs cap (s.outputs.map fun o ↦ (o.commit, o.proof)) >>= _) = _
    rw [hchecks]
    rfl
  simp only [validate, verifySig, hsum, hsig, hfee, hheight, hinputs, hlength]

/-- A keychain whose root key is the nonce of the proof. -/
def exactRoot : KeyRoot := ⟨⟨0, 0, .zero, FixedBytes.zero, RangeProof.exactNonce⟩, .default⟩

theorem result_exactOutput :
    (exactOutput.recoverValue .zero).result exactRoot .empty = .ok (some 5) := by
  have hname : exactRoot.names .empty .zero = .ok RangeProof.exactNonce := by
    have hroot : Identifier.zero = exactRoot.id := rfl
    rw [KeyRoot.names, KeyRoot.resolve, if_pos hroot]
    rfl
  rw [Output.result_recoverValue]
  exact exactOutput.recoverValue_of_rewind hname RangeProof.rewind_exactProof

/-- Where sizes agree, or neither proof holds, equal outputs and equal transactions pass the same checks
with the same results. Where only one proof holds its size is not that of the other. -/
theorem beq_checks :
    (∀ a b : Output, (a == b) = true →
      (∀ cap, a.verifyProof cap = b.verifyProof cap ↔ Output.Alike cap a b) ∧
      (Output.Alike .commit a b → RangeProof.checkSize a.proof = RangeProof.checkSize b.proof →
        ∀ id, a.recoverValue id = b.recoverValue id) ∧
      ∀ (root : KeyRoot) (cache : KeyCache) (id : Identifier) (v : UInt64),
        (a.recoverValue id).result root cache = .ok (some v) →
        ((b.recoverValue id).result root cache = .ok (some v) ↔ a.proof.size = b.proof.size)) ∧
    ∀ s t : Transaction, (s == t) = true → ∀ cap,
      (∀ a b, (a, b) ∈ s.outputs.zip t.outputs → Output.Alike cap a b) →
      s.validate cap = t.validate cap := by
  refine ⟨?_, ?_⟩
  · intro a b h
    refine ⟨fun cap ↦ Output.verifyProof_eq_iff h, Output.recoverValue_eq_of_alike h, ?_⟩
    intro root cache id v hv
    constructor
    · intro hv'
      exact Output.size_eq_of_verifyProof h (Output.verifyProof_of_recoverValue hv)
        (Output.verifyProof_of_recoverValue hv')
    · intro hsize
      have hcheck : RangeProof.checkSize a.proof = RangeProof.checkSize b.proof := by
        rw [RangeProof.checkSize, RangeProof.checkSize, hsize]
      rw [← Output.recoverValue_eq_of_alike h (.inl hsize) hcheck, hv]
  · intro s t h cap halike
    obtain ⟨-, houtputs, -⟩ := beq_iff.mp h
    obtain ⟨-, hzip⟩ := List.forall₂_iff_zip.mp (Output.forall₂_of_beq houtputs)
    apply validate_congr h
    intro a b hab
    exact (Output.verifyProof_eq_iff (hzip hab)).mpr (halike a b hab)

theorem verifyProof_exactOutput : exactOutput.verifyProof .commit = .ok () :=
  Output.verifyProof_eq_ok_iff.mpr ⟨_, verify_exactProof⟩

theorem verifyProof_resize_exactOutput {size : Nat} (h : size ≠ 73) :
    (exactOutput.resize size).verifyProof .commit ≠ .ok () := by
  intro hresize
  have hsize := Output.size_eq_of_verifyProof (exactOutput.beq_resize size)
    verifyProof_exactOutput hresize
  exact h hsize.symm

theorem beq_checks_resize :
    exactOutput.verifyProof .commit ≠ (exactOutput.resize 1).verifyProof .commit ∧
    (exactOutput.resize 1).recoverValue .zero = (exactOutput.resize 2).recoverValue .zero ∧
    ((exactOutput.resize 1).recoverValue .zero).result exactRoot .empty ≠ .ok (some 5) ∧
    { payFee with outputs := [exactOutput.resize 1] }.validate .commit =
      { payFee with outputs := [exactOutput.resize 2] }.validate .commit := by
  obtain ⟨houtputs, htransactions⟩ := beq_checks
  have hne₁ := @verifyProof_resize_exactOutput 1 (by decide)
  have hne₂ := @verifyProof_resize_exactOutput 2 (by decide)
  obtain ⟨hverify, -, hvalue⟩ := houtputs exactOutput (exactOutput.resize 1) (exactOutput.beq_resize 1)
  obtain ⟨-, hrecover, -⟩ := houtputs (exactOutput.resize 1) (exactOutput.resize 2)
    (exactOutput.beq_resize 2)
  refine ⟨?_, hrecover (.inr ⟨hne₁, hne₂⟩) rfl .zero, ?_, ?_⟩
  · intro hsame
    rcases (hverify .commit).mp hsame with hsize | ⟨hnot, -⟩
    · cases hsize
    · exact hnot verifyProof_exactOutput
  · intro hresult
    cases (hvalue exactRoot .empty .zero 5 result_exactOutput).mp hresult
  · apply htransactions
    · refine beq_iff.mpr ⟨rfl, ?_, rfl, rfl, rfl⟩
      have hbeq : (exactOutput.resize 1 == exactOutput.resize 2) = true :=
        (exactOutput.resize 1).beq_resize 2
      rw [List.cons_beq_cons, hbeq]
      rfl
    · intro a b hab
      rw [List.zip_cons_cons, List.zip_nil_left, List.mem_singleton, Prod.mk.injEq] at hab
      obtain ⟨rfl, rfl⟩ := hab
      exact .inr ⟨hne₁, hne₂⟩

/-- The first byte of a proof is no proof, though outputs with the one and the other are equal. -/
theorem not_forall_beq_checks :
    ¬((∀ a b : Output, (a == b) = true →
        (∀ cap, a.verifyProof cap = b.verifyProof cap) ∧
        ∀ (root : KeyRoot) (cache : KeyCache) (id : Identifier),
          (a.recoverValue id).result root cache = (b.recoverValue id).result root cache) ∧
      ∀ s t : Transaction, (s == t) = true → ∀ cap,
        (s.validate cap).result = (t.validate cap).result) := by
  rintro ⟨houtputs, -⟩
  obtain ⟨hverify, -⟩ := houtputs exactOutput (exactOutput.resize 1) (exactOutput.beq_resize 1)
  apply @verifyProof_resize_exactOutput 1 (by decide)
  rw [← hverify .commit, verifyProof_exactOutput]

end Transaction

end ConfidentialTx
