import Mathlib
import ConfidentialTx.Proofs.RangeProof.Rewind
import ConfidentialTx.Proofs.RangeProof.Written

namespace ConfidentialTx.RangeProof

namespace Header

/-- The bytes of a header with these flags: the flags, the mantissa unless the value is exact, and the
smallest value unless it is zero. -/
def size (flags : UInt8) : Nat :=
  1 + (if flags &&& 64 = 0 then 0 else 1) + (if flags &&& 32 = 0 then 0 else 8)

/-- The bytes of a proof: the header, a sign bit and a first coordinate for each ring but the last, the
opening challenge, and a scalar for each key. -/
def proofSize (header : Header) (flags : UInt8) : Nat :=
  size flags + (header.ringSizes.length - 1 + 7) / 8 + 32 * (header.ringSizes.length - 1) + 32 +
    32 * header.ringSizes.sum

/-- The header that stands in front of some bytes, field by field. -/
structure Heads (header : Header) (flags : UInt8) (bs : Bytes) : Prop where
  flags_eq : bs.head? = some flags
  size_le : size flags ≤ bs.length
  exponent_eq : header.exponent = if flags &&& 64 = 0 then 0 else (flags &&& 31).toNat
  mantissa_eq : header.mantissa = if flags &&& 64 = 0 then 0 else (bs.getD 1 0).toNat + 1
  min_eq : header.min =
    if flags &&& 32 = 0 then 0 else Bytes.toNat ((bs.drop (size flags - 8)).take 8)

theorem takeShape_spec {flags : UInt8} {bs rest : Bytes} {exponent mantissa : Nat}
    (h : takeShape flags bs = some (exponent, mantissa, rest)) :
    exponent = (if flags &&& 64 = 0 then 0 else (flags &&& 31).toNat) ∧
      mantissa = (if flags &&& 64 = 0 then 0 else (bs.getD 0 0).toNat + 1) ∧
      (if flags &&& 64 = 0 then 0 else 1) ≤ bs.length ∧
      rest = bs.drop (if flags &&& 64 = 0 then 0 else 1) := by
  unfold takeShape at h
  by_cases hexact : flags &&& 64 = 0
  · simp only [if_pos hexact] at h ⊢
    cases h
    exact ⟨rfl, rfl, Nat.zero_le _, rfl⟩
  · simp only [if_neg hexact] at h ⊢
    cases bs with
    | nil => cases h
    | cons m bs =>
      cases h
      exact ⟨rfl, rfl, Nat.le_add_left 1 _, rfl⟩

theorem takeMin_spec {flags : UInt8} {bs rest : Bytes} {min : Nat}
    (h : takeMin flags bs = some (min, rest)) :
    min = (if flags &&& 32 = 0 then 0 else Bytes.toNat (bs.take 8)) ∧
      (if flags &&& 32 = 0 then 0 else 8) ≤ bs.length ∧
      rest = bs.drop (if flags &&& 32 = 0 then 0 else 8) := by
  unfold takeMin at h
  by_cases habsent : flags &&& 32 = 0
  · simp only [if_pos habsent] at h ⊢
    cases h
    exact ⟨rfl, Nat.zero_le _, rfl⟩
  · simp only [if_neg habsent] at h ⊢
    split at h
    · cases h
    · rename_i hlength
      cases h
      exact ⟨rfl, Nat.le_of_not_lt hlength, rfl⟩

theorem heads_of_decode {bs rest : Bytes} {header : Header} (h : decode bs = some (header, rest)) :
    ∃ flags, header.Heads flags bs ∧ rest = bs.drop (size flags) ∧ header.max < UInt64.size := by
  cases bs with
  | nil => cases h
  | cons flags bs =>
    obtain ⟨⟨exponent, mantissa, bs'⟩, hshape, h⟩ := Option.bind_eq_some_iff.mp h
    obtain ⟨⟨min, bs''⟩, hmin, h⟩ := Option.bind_eq_some_iff.mp h
    obtain ⟨u, hguard, h⟩ := Option.bind_eq_some_iff.mp h
    cases h
    obtain ⟨hexponent, hmantissa, hlength, rfl⟩ := takeShape_spec hshape
    obtain ⟨hvalue, hlength', rfl⟩ := takeMin_spec hmin
    rw [List.length_drop] at hlength'
    refine ⟨flags, ⟨rfl, ?_, hexponent, hmantissa, ?_⟩, ?_, ?_⟩
    · rw [size, List.length_cons]
      omega
    · by_cases habsent : flags &&& 32 = 0
      · rw [hvalue, if_pos habsent, if_pos habsent]
      · rw [hvalue, if_neg habsent, if_neg habsent, size, if_neg habsent, Nat.add_sub_cancel,
          Nat.add_comm 1, List.drop_succ_cons]
    · rw [size, List.drop_drop, Nat.add_assoc, Nat.add_comm 1, List.drop_succ_cons]
    · by_contra hlarge
      simp [guard, hlarge] at hguard

end Header

theorem Parts.exists_heads {bs : Bytes} {parts : Parts} (h : ofBytes? bs = some parts) :
    ∃ flags, parts.header.Heads flags bs ∧ bs.length = parts.header.proofSize flags ∧
      parts.header.max < UInt64.size := by
  obtain ⟨signs, hwritten⟩ := exists_written h
  obtain ⟨more, hmore⟩ : ∃ more, bs = parts.headerBytes ++ more := by
    rw [hwritten.bytes_eq, front]
    exact ⟨_, by simp only [List.append_assoc]; rfl⟩
  have hdecode : Header.decode bs = some (parts.header, more) := by
    rw [hmore]
    exact Header.steady_decode _ _ _ more hwritten.decode_eq
  obtain ⟨flags, hheads, hrest, hmax⟩ := Header.heads_of_decode hdecode
  refine ⟨flags, hheads, ?_, hmax⟩
  have hheader : parts.headerBytes.length = Header.size flags := by
    have hfront := congrArg List.length hmore
    have hback := congrArg List.length hrest
    have hsize := hheads.size_le
    rw [List.length_append] at hfront
    rw [List.length_drop] at hback
    omega
  rw [hwritten.length_eq, startPosition, hheader, pointCount, ringSizes, Header.proofSize]

theorem Parts.range_toNat {parts : Parts} (h : parts.header.max < UInt64.size) :
    parts.range.min.toNat = parts.header.min ∧
      parts.range.max.toNat =
        parts.header.min + (2 ^ parts.header.mantissa - 1) * 10 ^ parts.header.exponent := by
  have hmax : parts.header.max =
      parts.header.min + (2 ^ parts.header.mantissa - 1) * 10 ^ parts.header.exponent := by
    rw [Header.max, Header.scale, Nat.one_shiftLeft]
    rfl
  have hmin : parts.header.min < UInt64.size := lt_of_le_of_lt (hmax ▸ Nat.le_add_right _ _) h
  exact ⟨UInt64.toNat_ofNat_of_lt' hmin, (UInt64.toNat_ofNat_of_lt' h).trans hmax⟩

/-- Proofs of one size that agree up to it. What follows in the buffers may differ. -/
structure AgreeUpToSize (a b : RangeProof) : Prop where
  size_eq : b.size = a.size
  agrees : ∀ i < a.size, b.buffer.toList[i]? = a.buffer.toList[i]?

namespace AgreeUpToSize

variable {a b : RangeProof}

theorem bytes_eq (h : AgreeUpToSize a b) : b.bytes = a.bytes := by
  refine List.ext_getElem? fun i ↦ ?_
  rw [bytes, bytes, h.size_eq]
  by_cases hi : i < a.size
  · rw [List.getElem?_take_of_lt hi, List.getElem?_take_of_lt hi, h.agrees i hi]
  · rw [List.getElem?_take_eq_none (by omega), List.getElem?_take_eq_none (by omega)]

theorem verify_eq (h : AgreeUpToSize a b) (cap : Capability) (c : Commitment) :
    verify cap c b = verify cap c a := by
  simp only [verify, checkSize, h.size_eq, h.bytes_eq]

theorem rewind_eq (h : AgreeUpToSize a b) (cap : Capability) (c : Commitment) (nonce : SecretKey) :
    rewind cap c b nonce = rewind cap c a nonce := by
  simp only [rewind, checkSize, h.size_eq, h.bytes_eq]

end AgreeUpToSize

theorem verify_of_not_isPoint {c : Commitment} (hc : ¬c.IsPoint) (proof : RangeProof) :
    verify .commit c proof = .error .invalidCommitment := by
  simp only [verify, Capability.requireCommit_commit, Commitment.toPoint_of_not_isPoint hc, ok_bind,
    error_bind]

theorem checkSize_outcome (proof : RangeProof) :
    checkSize proof = .ok () ∨ checkSize proof = .error .invalidRangeProof := by
  unfold checkSize
  split
  · exact .inr rfl
  · exact .inl rfl

theorem verify_of_checkSize_error {c : Commitment} {proof : RangeProof} (hc : c.IsPoint)
    (h : checkSize proof = .error .invalidRangeProof) :
    verify .commit c proof = .error .invalidRangeProof := by
  simp only [verify, Capability.requireCommit_commit, Commitment.toPoint_of_isPoint hc, h, ok_bind,
    error_bind]

theorem verify_outcome (c : Commitment) (proof : RangeProof) :
    (∃ range, verify .commit c proof = .ok range) ∨
      verify .commit c proof = .error .invalidCommitment ∨
      verify .commit c proof = .error .invalidRangeProof := by
  by_cases hc : c.IsPoint
  · rcases checkSize_outcome proof with hsize | hsize
    · by_cases hholds : ∃ range, verify .commit c proof = .ok range
      · exact .inl hholds
      · exact .inr (.inr (verify_of_ne hc hsize fun range h ↦ hholds ⟨range, h⟩))
    · exact .inr (.inr (verify_of_checkSize_error hc hsize))
  · exact .inr (.inl (verify_of_not_isPoint hc proof))

theorem heads_of_verify {c : Commitment} {proof : RangeProof} {range : ProofRange}
    (h : verify .commit c proof = .ok range) :
    ∃ header flags, Header.Heads header flags proof.bytes ∧ proof.size = header.proofSize flags ∧
      range.min.toNat = header.min ∧
      range.max.toNat = header.min + (2 ^ header.mantissa - 1) * 10 ^ header.exponent := by
  obtain ⟨-, -, hsize, parts, es, hparts, -, rfl⟩ := verify_eq_ok_iff.mp h
  obtain ⟨flags, hheads, hlength, hmax⟩ := Parts.exists_heads hparts
  have hbytes : proof.bytes.length = proof.size := by
    rw [bytes, List.length_take, proof.buffer.length_toList]
    exact Nat.min_eq_left (size_le_of_checkSize hsize)
  exact ⟨parts.header, flags, hheads, hbytes.symm.trans hlength, Parts.range_toNat hmax⟩

/-- Checking ends in one of three ways and, as rewinding does, sees no byte from the size of the proof
on. A proof that holds is as long as its header says, and its range is as wide. -/
theorem verify_extent (c : Commitment) (proof : RangeProof) :
    ((∃ range, verify .commit c proof = .ok range) ∨
      verify .commit c proof = .error .invalidCommitment ∨
      verify .commit c proof = .error .invalidRangeProof) ∧
    (∀ other, AgreeUpToSize proof other →
      verify .commit c other = verify .commit c proof ∧
        ∀ nonce, rewind .commit c other nonce = rewind .commit c proof nonce) ∧
    ∀ range, verify .commit c proof = .ok range →
      ∃ header flags, Header.Heads header flags proof.bytes ∧ proof.size = header.proofSize flags ∧
        range.min.toNat = header.min ∧ range.min ≤ range.max ∧
        range.max.toNat - range.min.toNat = (2 ^ header.mantissa - 1) * 10 ^ header.exponent ∧
        (flags &&& 64 = 0 → range.max = range.min) := by
  refine ⟨verify_outcome c proof, fun other hagree ↦ ?_, fun range hrange ↦ ?_⟩
  · exact ⟨hagree.verify_eq .commit c, hagree.rewind_eq .commit c⟩
  · obtain ⟨header, flags, hheads, hsize, hmin, hmax⟩ := heads_of_verify hrange
    refine ⟨header, flags, hheads, hsize, hmin, ?_, ?_, fun hexact ↦ ?_⟩
    · rw [UInt64.le_iff_toNat_le, hmin, hmax]
      exact Nat.le_add_right _ _
    · rw [hmin, hmax, Nat.add_sub_cancel_left]
    · have hmantissa : header.mantissa = 0 := by
        rw [hheads.mantissa_eq, if_pos hexact]
      refine UInt64.toNat_inj.mp ?_
      rw [hmax, hmin, hmantissa, Nat.pow_zero, Nat.sub_self, Nat.zero_mul, Nat.add_zero]

/-- The proof of an exact value, with a byte changed behind its end. -/
theorem verify_extent_exactProof :
    verify .commit exactCommit exactProof = .ok ⟨5, 5⟩ ∧
      verify .commit exactCommit (exactProof.flip 100 1) = .ok ⟨5, 5⟩ ∧
      rewind .commit exactCommit (exactProof.flip 100 1) exactNonce = .ok ⟨true, 5, [], 5, 5⟩ ∧
      ∃ header flags, Header.Heads header flags exactProof.bytes ∧
        73 = header.proofSize flags ∧ header.min = 5 ∧
        0 = (2 ^ header.mantissa - 1) * 10 ^ header.exponent := by
  have haccept := verify_of_rewind rewind_exactProof rfl
  obtain ⟨-, hbehind, hheader⟩ := verify_extent exactCommit exactProof
  have hagree : AgreeUpToSize exactProof (exactProof.flip 100 1) := by
    refine ⟨rfl, fun i hi ↦ List.getElem?_modify_ne _ _ ?_⟩
    exact (hi.trans (by decide)).ne'
  obtain ⟨hverify, hrewind⟩ := hbehind _ hagree
  obtain ⟨header, flags, hheads, hsize, hmin, -, hwidth, -⟩ := hheader _ haccept
  exact ⟨haccept, hverify.trans haccept, (hrewind _).trans rewind_exactProof, header, flags, hheads,
    hsize, hmin.symm, hwidth⟩

end ConfidentialTx.RangeProof
