import Mathlib
import ConfidentialTx.RangeProof.Rewind
import ConfidentialTx.Proofs.Commitment.Sum
import ConfidentialTx.Proofs.Results

namespace ConfidentialTx.RangeProof

/-- Parts and opening that a nonce uncovers in a proof that holds for a point. -/
structure Uncovers (nonce : SecretKey) (point : Point) (bs : Bytes) (parts : Parts)
    (opening : Opening) : Prop where
  reads : Parts.ofBytes? bs = some parts
  opens : ∃ es, parts.verify point = some es ∧ openParts parts es nonce point = some opening

theorem size_le_of_checkSize {proof : RangeProof} (h : checkSize proof = .ok ()) :
    proof.size ≤ maxSize := by
  by_contra hlarge
  rw [checkSize, if_pos (.inr (Nat.lt_of_not_le hlarge))] at h
  cases h

theorem checkSize_of_le {proof : RangeProof} (hsize : 1 ≤ proof.size)
    (hmax : proof.size ≤ maxSize) : checkSize proof = .ok () := by
  rw [checkSize, if_neg]
  omega

variable {c : Commitment} {proof : RangeProof} {nonce : SecretKey} {point : Point} {bs : Bytes}
  {parts : Parts} {opening : Opening}

theorem verify_of_parts {es : List (List Scalar)} (hc : c.IsPoint)
    (hsize : checkSize proof = .ok ()) (hparts : Parts.ofBytes? proof.bytes = some parts)
    (hverify : parts.verify (.ofGroup c.element) = some es) :
    verify .commit c proof = .ok parts.range := by
  have hfilter : (Parts.ofBytes? proof.bytes).filter
      (fun parts ↦ (parts.verify (.ofGroup c.element)).isSome) = some parts := by
    rw [hparts]
    simp [hverify]
  simp only [verify, Capability.requireCommit_commit, Commitment.toPoint_of_isPoint hc, hsize, ok_bind,
    hfilter]

theorem verify_eq_ok_iff {cap : Capability} {range : ProofRange} :
    verify cap c proof = .ok range ↔ cap = .commit ∧ c.IsPoint ∧ checkSize proof = .ok () ∧
      ∃ parts es, Parts.ofBytes? proof.bytes = some parts ∧
        parts.verify (.ofGroup c.element) = some es ∧ parts.range = range := by
  constructor
  · intro h
    obtain ⟨hcap, h⟩ := Capability.requireCommit_bind_eq_ok_iff.mp h
    obtain ⟨point, hpoint, h⟩ := bind_eq_ok_iff.mp h
    obtain ⟨_, hsize, h⟩ := bind_eq_ok_iff.mp h
    obtain ⟨hc, rfl⟩ := Commitment.isPoint_of_toPoint hpoint
    refine ⟨hcap, hc, hsize, ?_⟩
    split at h
    · rename_i parts hparts
      obtain ⟨hparts, hsome⟩ := Option.filter_eq_some_iff.mp hparts
      obtain ⟨es, hverify⟩ := Option.isSome_iff_exists.mp hsome
      exact ⟨parts, es, hparts, hverify, Except.ok.inj h⟩
    · cases h
  · rintro ⟨rfl, hc, hsize, parts, es, hparts, hverify, rfl⟩
    exact verify_of_parts hc hsize hparts hverify

theorem verify_of_ne (hc : c.IsPoint) (hsize : checkSize proof = .ok ())
    (h : ∀ range, verify .commit c proof ≠ .ok range) :
    verify .commit c proof = .error .invalidRangeProof := by
  simp only [verify, Capability.requireCommit_commit, Commitment.toPoint_of_isPoint hc, hsize,
    ok_bind] at h ⊢
  split
  · rename_i parts hparts
    rw [hparts] at h
    exact absurd rfl (h parts.range)
  · rfl

/-- Once commitment and size have passed, nothing that goes wrong is an error. -/
theorem rewind_eq (hc : c.IsPoint) (hsize : checkSize proof = .ok ()) (nonce : SecretKey) :
    rewind .commit c proof nonce =
      .ok ((rewindPoint (.ofGroup c.element) nonce proof.bytes).getD .failed) := by
  simp only [rewind, Capability.requireCommit_commit, Commitment.toPoint_of_isPoint hc, hsize,
    ok_bind]
  rfl

theorem rewind_eq_ok {info : ProofInfo} (h : rewind .commit c proof nonce = .ok info) :
    c.IsPoint ∧ checkSize proof = .ok () ∧
      info = (rewindPoint (.ofGroup c.element) nonce proof.bytes).getD .failed := by
  obtain ⟨_, -, h⟩ := bind_eq_ok_iff.mp h
  obtain ⟨point, hpoint, h⟩ := bind_eq_ok_iff.mp h
  obtain ⟨_, hsize, h⟩ := bind_eq_ok_iff.mp h
  obtain ⟨hc, rfl⟩ := Commitment.isPoint_of_toPoint hpoint
  exact ⟨hc, hsize, (Except.ok.inj h).symm⟩

theorem rewindPoint_of_uncovers (h : Uncovers nonce point bs parts opening)
    (hpoint : .pedersen (parts.valueOf opening.number) opening.blind = point) :
    rewindPoint point nonce bs = some ⟨true, parts.valueOf opening.number,
      dropTrailingZeros opening.message, parts.range.min, parts.range.max⟩ := by
  obtain ⟨es, hverify, hopen⟩ := h.opens
  simp only [rewindPoint, h.reads, hverify, hopen, hpoint, Option.bind_eq_bind, Option.bind_some]
  simp

theorem uncovers_of_rewindPoint {info : ProofInfo} (h : rewindPoint point nonce bs = some info) :
    ∃ parts opening, Uncovers nonce point bs parts opening ∧
      .pedersen (parts.valueOf opening.number) opening.blind = point ∧
      info = ⟨true, parts.valueOf opening.number, dropTrailingZeros opening.message,
        parts.range.min, parts.range.max⟩ := by
  obtain ⟨parts, hparts, h⟩ := Option.bind_eq_some_iff.mp h
  obtain ⟨es, hverify, h⟩ := Option.bind_eq_some_iff.mp h
  obtain ⟨opening, hopen, h⟩ := Option.bind_eq_some_iff.mp h
  obtain ⟨_, hguard, h⟩ := Option.bind_eq_some_iff.mp h
  have hpoint : .pedersen (parts.valueOf opening.number) opening.blind = point := by
    by_contra hne
    simp [hne] at hguard
  exact ⟨parts, opening, ⟨hparts, es, hverify, hopen⟩, hpoint, (Option.some.inj h).symm⟩

theorem verify_of_rewind {info : ProofInfo} (h : rewind .commit c proof nonce = .ok info)
    (hsuccess : info.success = true) : verify .commit c proof = .ok ⟨info.min, info.max⟩ := by
  obtain ⟨hc, hsize, rfl⟩ := rewind_eq_ok h
  cases hrewind : rewindPoint (.ofGroup c.element) nonce proof.bytes with
  | none =>
    rw [hrewind] at hsuccess
    cases hsuccess
  | some info =>
    obtain ⟨parts, opening, huncovers, -, rfl⟩ := uncovers_of_rewindPoint hrewind
    obtain ⟨es, hverify, -⟩ := huncovers.opens
    exact verify_of_parts hc hsize huncovers.reads hverify

theorem rewind_of_verify_ne (hc : c.IsPoint) (hsize : checkSize proof = .ok ())
    (h : ∀ range, verify .commit c proof ≠ .ok range) (nonce : SecretKey) :
    rewind .commit c proof nonce = .ok .failed := by
  rw [rewind_eq hc hsize]
  cases hrewind : rewindPoint (.ofGroup c.element) nonce proof.bytes with
  | none => rfl
  | some info =>
    obtain ⟨parts, opening, huncovers, -, -⟩ := uncovers_of_rewindPoint hrewind
    obtain ⟨es, hverify, -⟩ := huncovers.opens
    exact absurd (verify_of_parts hc hsize huncovers.reads hverify) (h parts.range)

theorem encodes_of_pedersen {v : UInt64} {r : Scalar} (hc : c.IsPoint)
    (h : .pedersen v r = Point.ofGroup c.element) :
    c.Encodes (.opening v.toNat r.toZMod) := by
  rw [Point.pedersen_eq, Point.ofGroup_inj] at h
  rw [h]
  exact hc.encodes

/-- A value that comes out is one that the commitment holds. -/
theorem rewind_sound (hc : c.IsPoint) (hsize : 1 ≤ proof.size) (hmax : proof.size ≤ maxSize)
    (nonce : SecretKey) :
    ∃ info, rewind .commit c proof nonce = .ok info ∧
      (info.success = true →
        verify .commit c proof = .ok ⟨info.min, info.max⟩ ∧
        ∃ parts opening, Uncovers nonce (.ofGroup c.element) proof.bytes parts opening ∧
          info.value = parts.valueOf opening.number ∧
          c.Encodes (.opening info.value.toNat opening.blind.toZMod)) ∧
      (info.success = false → info = .failed) ∧
      ((∀ range, verify .commit c proof ≠ .ok range) → info = .failed) := by
  have hcheck := checkSize_of_le hsize hmax
  refine ⟨_, rewind_eq hc hcheck nonce, ?_⟩
  cases hrewind : rewindPoint (.ofGroup c.element) nonce proof.bytes with
  | none =>
    refine ⟨?_, fun _ ↦ rfl, fun _ ↦ rfl⟩
    intro h
    cases h
  | some info =>
    obtain ⟨parts, opening, huncovers, hpoint, rfl⟩ := uncovers_of_rewindPoint hrewind
    obtain ⟨es, hverify, hopen⟩ := huncovers.opens
    have hrange := verify_of_parts hc hcheck huncovers.reads hverify
    have hencodes := encodes_of_pedersen hc hpoint
    refine ⟨fun _ ↦ ⟨hrange, parts, opening, huncovers, rfl, hencodes⟩, ?_, ?_⟩
    · intro h
      cases h
    · intro h
      exact absurd hrange (h _)

theorem scalar_one_ne_zero : (1 : Scalar) ≠ 0 := by decide

def exactBlind : SecretKey := ⟨1, scalar_one_ne_zero⟩

def exactCommit : Commitment :=
  ⟨.ofNat 0x09feb481aa394dde3cf6f97e281734e7911e75cfa77b6ecc5fb15d6cc09592949a⟩

/-- A proof that the value is 5, with a single key. The nonce that it was made with is not the
blinding factor. -/
def exactProof : RangeProof :=
  ⟨.fit (Bytes.bigEndian 73
    0x200000000000000005f9d2b4252b57267e50fb6a712ed5e369071824c78092bc0efcb9b2d2480cfe1385284af89b7a0327edba04118996ac1251667beac486c407ba2dc6e55547e683), 73⟩

def exactNonce : SecretKey := ⟨2, by decide⟩

set_option maxRecDepth 10000 in
theorem commit_exactBlind : Commitment.commit .commit 5 exactBlind = .ok exactCommit := by
  decide +kernel

set_option maxRecDepth 10000 in
theorem rewind_exactProof :
    rewind .commit exactCommit exactProof exactNonce = .ok ⟨true, 5, [], 5, 5⟩ := by
  decide +kernel

theorem isPoint_exactCommit : exactCommit.IsPoint :=
  (rewind_eq_ok rewind_exactProof).1

theorem rewind_sound_exactProof :
    verify .commit exactCommit exactProof = .ok ⟨5, 5⟩ ∧
    ∃ parts opening,
      Uncovers exactNonce (.ofGroup exactCommit.element) exactProof.bytes parts opening ∧
      (5 : UInt64) = parts.valueOf opening.number ∧
      exactCommit.Encodes (.opening (5 : UInt64).toNat opening.blind.toZMod) := by
  have hsize : 1 ≤ exactProof.size := Nat.le_add_left 1 72
  have hmax : exactProof.size ≤ maxSize := by decide
  obtain ⟨info, hinfo, hsound, -⟩ := rewind_sound isPoint_exactCommit hsize hmax exactNonce
  rw [rewind_exactProof, Except.ok.injEq] at hinfo
  subst hinfo
  exact hsound rfl

end ConfidentialTx.RangeProof
