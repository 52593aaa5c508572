import Mathlib
import ConfidentialTx.Proofs.RangeProof.Digits
import ConfidentialTx.Proofs.RangeProof.Layout
import ConfidentialTx.Proofs.RangeProof.Rewind
import ConfidentialTx.Proofs.RangeProof.Ring

namespace ConfidentialTx.RangeProof

theorem Header.ringSizes_ne_nil (header : Header) : header.ringSizes ≠ [] := by
  unfold ringSizes
  split
  · simp
  · rw [ne_eq, List.append_eq_nil_iff, List.replicate_eq_nil_iff]
    split
    · simp
    · simp
      omega

def digitPoints (header : Header) (v : Nat) (secrets : List Scalar) : List Point :=
  secrets.zipIdx.map fun (secret, i) ↦
    Point.mulAdd (.reduce ((digit v i * header.scale) <<< (2 * i))) Generator.value
      secret Generator.base

def ownedRings (header : Header) (v : Nat) (secrets : List Scalar)
    (responses : List (List Scalar)) : List OwnedRing :=
  let sizes := header.ringSizes
  let steps := ringSteps sizes.length (Generator.value.mul (.reduce header.scale))
  (sizes.zip ((digitPoints header v secrets).zip (steps.zip (secrets.zip responses)))).zipIdx.map
    fun ((size, first, step, secret, responses), i) ↦
      { keys := ringKeys size first step
        responses
        place := digit v i
        secret
        nonce := responses.getD (digit v i) 0 }

/-- The secrets of the rings: the last one is that of the commitment less the others. -/
def ringSecrets (draws : Draws) (sizes : List Nat) (blind : SecretKey) : List Scalar :=
  draws.secrets.modify (sizes.length - 1) (· + blind.scalar)

theorem orLeave_eq_ok_iff {α : Type} {written : Bytes} {x : Option α} {a : α} :
    orLeave written x = .ok a ↔ x = some a := by
  cases x <;> simp [orLeave]

/-- The course of a signer that does not fail. -/
theorem sign_eq_ok {header : Header} {v : Nat} {commit : Point} {blind nonce : SecretKey}
    {message bs : Bytes} (h : sign header v commit blind nonce message = .ok bs) :
    ∃ draws masked start responses secrets points,
      Draws.make nonce commit header.encode header.ringSizes = some draws ∧
      maskedResponses draws.pads (hiddenBlocks header.ringSizes v message) = some masked ∧
      secrets = ringSecrets draws header.ringSizes blind ∧ secrets.getLast? ≠ some 0 ∧
      points = (digitPoints header v secrets).dropLast ∧
      (∀ p ∈ digitPoints header v secrets, p ≠ 0) ∧
      openRings (proofDigest commit header.encode (points.map pointBytes))
        (ownedRings header v secrets masked) = some start ∧
      closeRings (proofDigest commit header.encode (points.map pointBytes)) start
        (ownedRings header v secrets masked) = some responses ∧
      bs = header.encode ++ packSigns (header.ringSizes.length - 1) points ++
        (points.map acrossBytes).flatten ++ start.toList ++
        responses.flatten.flatMap fun s ↦ s.toBytes.toList := by
  obtain ⟨draws, hdraws, h⟩ := bind_eq_ok_iff.mp h
  obtain ⟨masked, hmasked, h⟩ := bind_eq_ok_iff.mp h
  simp only at h
  split at h
  · cases h
  rename_i hlast
  split at h
  · cases h
  rename_i hzero
  have hne : ∀ p ∈ digitPoints header v (ringSecrets draws header.ringSizes blind), p ≠ 0 := by
    rintro p hp rfl
    exact hzero (List.contains_iff_mem.mpr hp)
  have hall : (digitPoints header v (ringSecrets draws header.ringSizes blind)).dropLast.takeWhile
      (fun p ↦ decide (p ≠ 0)) =
      (digitPoints header v (ringSecrets draws header.ringSizes blind)).dropLast := by
    rw [List.takeWhile_eq_self_iff]
    intro p hp
    exact decide_eq_true (hne p (List.mem_of_mem_dropLast hp))
  obtain ⟨start, hstart, h⟩ := bind_eq_ok_iff.mp h
  obtain ⟨responses, hresponses, h⟩ := bind_eq_ok_iff.mp h
  rw [orLeave_eq_ok_iff] at hdraws hmasked hstart hresponses
  refine ⟨draws, masked, start, responses, _, _, hdraws, hmasked, rfl, hlast, rfl, hne, ?_, ?_, ?_⟩
  · rw [← hall]
    exact hstart
  · rw [← hall]
    exact hresponses
  · rw [← hall]
    exact (Except.ok.inj h).symm

theorem modify_length_append {α : Type} (as : List α) (a : α) (f : α → α) :
    (as ++ [a]).modify as.length f = as ++ [f a] := by
  induction as with
  | nil => rfl
  | cons b as ih => exact congrArg (b :: ·) ih

theorem ringSecrets_spec {nonce blind : SecretKey} {commit : Point} {bs : Bytes} {sizes : List Nat}
    {draws : Draws} (hsizes : sizes ≠ []) (hdraws : Draws.make nonce commit bs sizes = some draws)
    (hlast : (ringSecrets draws sizes blind).getLast? ≠ some 0) :
    (ringSecrets draws sizes blind).length = sizes.length ∧
    (∀ s ∈ ringSecrets draws sizes blind, s ≠ 0) ∧
    ((ringSecrets draws sizes blind).map Residue.toZMod).sum = blind.scalar.toZMod := by
  obtain ⟨-, drawn, last, hsecrets, hlength, hne, hsum⟩ := Draws.takeRings_spec hsizes hdraws
  have hmodify : ringSecrets draws sizes blind = drawn ++ [last + blind.scalar] := by
    rw [ringSecrets, hsecrets, ← hlength, Nat.add_sub_cancel, modify_length_append]
  rw [hmodify] at hlast ⊢
  rw [List.getLast?_concat, ne_eq, Option.some.injEq] at hlast
  refine ⟨by rw [List.length_append, List.length_singleton, hlength], ?_, ?_⟩
  · exact List.forall_mem_append.mpr ⟨hne, List.forall_mem_singleton.mpr hlast⟩
  · rw [List.map_append, List.sum_append, List.map_singleton, List.sum_singleton,
      Residue.toZMod_add, ← add_assoc, hsum, Residue.toZMod_zero, neg_zero, zero_add]

def digitElements (header : Header) (v : Nat) (secrets : List Scalar) : List CurveGroup :=
  secrets.zipIdx.map fun (secret, i) ↦
    .opening ((digit v i * 4 ^ i * header.scale : ℕ) : ZMod groupOrder) secret.toZMod

theorem digitPoints_eq (header : Header) (v : Nat) (secrets : List Scalar) :
    digitPoints header v secrets = (digitElements header v secrets).map Point.ofGroup := by
  rw [digitElements, List.map_map]
  refine List.map_congr_left fun ⟨secret, i⟩ _ ↦ ?_
  have hshift : (digit v i * header.scale) <<< (2 * i) = digit v i * 4 ^ i * header.scale := by
    rw [Nat.shiftLeft_eq, pow_mul, show 2 ^ 2 = 4 from rfl]
    ring
  simp only [Function.comp_apply]
  rw [← CurveGroup.ofGroup_value, ← CurveGroup.ofGroup_base, Point.mulAdd_eq_smul, Scalar.reduce, Residue.toZMod_reduce, hshift, CurveGroup.opening]

theorem sum_openings (a : ℕ → ZMod groupOrder) (secrets : List Scalar) (count : ℕ) :
    ((secrets.zipIdx count).map fun (secret, i) ↦
        CurveGroup.opening (a i) secret.toZMod).sum =
      .opening ((List.range' count secrets.length).map a).sum (secrets.map Residue.toZMod).sum := by
  induction secrets generalizing count with
  | nil => exact CurveGroup.opening_zero.symm
  | cons secret secrets ih =>
    rw [List.zipIdx_cons, List.map_cons, List.sum_cons, ih, List.length_cons, List.range'_succ,
      List.map_cons, List.sum_cons, List.map_cons, List.sum_cons, ← CurveGroup.opening_add]

theorem sum_digitElements {header : Header} {v : Nat} {secrets : List Scalar}
    (hv : v < 4 ^ secrets.length) :
    (digitElements header v secrets).sum =
      .opening ((v * header.scale : ℕ) : ZMod groupOrder) (secrets.map Residue.toZMod).sum := by
  have hsum := sum_openings (fun i ↦ ((digit v i * 4 ^ i * header.scale : ℕ) : ZMod groupOrder))
    secrets 0
  have hdigits : ((List.range' 0 secrets.length).map fun i ↦
      ((digit v i * 4 ^ i * header.scale : ℕ) : ZMod groupOrder)).sum =
        ((v * header.scale : ℕ) : ZMod groupOrder) := by
    have h := sum_digits v secrets.length
    rw [Nat.mod_eq_of_lt hv] at h
    have hscaled : ((List.range secrets.length).map fun i ↦ digit v i * 4 ^ i * header.scale).sum =
        v * header.scale := by
      rw [List.sum_map_mul_right, h]
    rw [← List.range_eq_range', ← hscaled, Nat.cast_list_sum, List.map_map]
    rfl
  rw [digitElements, hsum, hdigits]

theorem length_digitPoints (header : Header) (v : Nat) (secrets : List Scalar) :
    (digitPoints header v secrets).length = secrets.length := by
  rw [digitPoints, List.length_map, List.length_zipIdx]

theorem length_ringSteps (count : Nat) (step : Point) : (ringSteps count step).length = count := by
  induction count generalizing step with
  | zero => rfl
  | succ count ih => exact congrArg (· + 1) (ih _)

variable {header : Header} {v : Nat} {secrets : List Scalar} {masked : List (List Scalar)}

theorem length_ownedRings (hsecrets : secrets.length = header.ringSizes.length)
    (hmasked : masked.map List.length = header.ringSizes) :
    (ownedRings header v secrets masked).length = header.ringSizes.length := by
  have hlength : masked.length = header.ringSizes.length := by
    rw [← hmasked, List.length_map]
  simp only [ownedRings, List.length_map, List.length_zipIdx, List.length_zip, length_digitPoints,
    length_ringSteps, hsecrets, hlength, min_self]

/-- The value point's share leaves the key of the true digit. -/
theorem owned_of_mem (hsecrets : secrets.length = header.ringSizes.length)
    (hmasked : masked.map List.length = header.ringSizes) (hne : ∀ s ∈ secrets, s ≠ 0)
    (hdigits : ∀ i (hi : i < header.ringSizes.length), digit v i < header.ringSizes[i]) :
    ∀ r ∈ ownedRings header v secrets masked, r.Owned := by
  intro r hr
  obtain ⟨i, hi, rfl⟩ := List.mem_iff_getElem.mp hr
  rw [length_ownedRings hsecrets hmasked] at hi
  have hiMasked : i < masked.length := by
    rwa [← hmasked, List.length_map] at hi
  have hiSecrets : i < secrets.length := by
    rwa [hsecrets]
  have hiPoints : i < (digitPoints header v secrets).length := by
    rwa [length_digitPoints]
  have hiSteps : i < (ringSteps header.ringSizes.length
      (Generator.value.mul (.reduce header.scale))).length := by
    rwa [length_ringSteps]
  have hsize : masked[i].length = header.ringSizes[i] := by
    simp only [← hmasked, List.getElem_map]
  have hfirst : (digitPoints header v secrets)[i] =
      .ofGroup (.opening ((digit v i * 4 ^ i * header.scale : ℕ) : ZMod groupOrder)
        secrets[i].toZMod) := by
    simp only [digitPoints_eq, digitElements, List.getElem_map, List.getElem_zipIdx, zero_add]
  have hstep : (ringSteps header.ringSizes.length
      (Generator.value.mul (.reduce header.scale)))[i] =
        .ofGroup ((4 ^ i * header.scale : ZMod groupOrder) • CurveGroup.value) := by
    simp only [← CurveGroup.ofGroup_value, Point.mul_eq_smul, ringSteps_ofGroup, List.getElem_map,
      List.getElem_range, Scalar.reduce, Residue.toZMod_reduce]
    rw [smul_smul]
  simp only [ownedRings, List.getElem_map, List.getElem_zipIdx, List.getElem_zip, zero_add, hfirst,
    hstep, ringKeys_ofGroup]
  refine ⟨?_, ?_, ?_⟩
  · simp only [List.length_map, List.length_range, hsize]
  · simp only [List.getElem?_map, List.getElem?_range (hdigits i hi), Option.map_some,
      ← CurveGroup.ofGroup_base, Point.mul_eq_smul, Option.some.injEq, Point.ofGroup_inj,
      CurveGroup.opening]
    push_cast
    module
  · exact hne _ (List.getElem_mem _)

/-- The verifier's rings are the signer's, with the responses that closed them. -/
theorem rings_eq_closed {commit : Point} {headerBytes : Bytes} {pointBytes : List Bytes}
    {start : FixedBytes 32} {responses : List (List Scalar)} {blind : ZMod groupOrder}
    (hsecrets : secrets.length = header.ringSizes.length)
    (hmasked : masked.map List.length = header.ringSizes)
    (hresponses : responses.length = header.ringSizes.length)
    (hv : v < 4 ^ header.ringSizes.length)
    (hsum : (secrets.map Residue.toZMod).sum = blind)
    (hcommit : commit = .ofGroup
      (.opening ((header.min + v * header.scale : ℕ) : ZMod groupOrder) blind)) :
    Parts.rings ⟨header, headerBytes, pointBytes, (digitPoints header v secrets).dropLast, start,
      responses⟩ commit = closed (ownedRings header v secrets masked) responses := by
  have hfirsts : (digitPoints header v secrets).dropLast ++
      [commit - (digitPoints header v secrets).dropLast.foldl (· + ·)
        (Generator.value.mul (.reduce header.min))] = digitPoints header v secrets := by
    have hne : digitElements header v secrets ≠ [] := by
      rw [← List.length_pos_iff, digitElements, List.length_map, List.length_zipIdx, hsecrets,
        List.length_pos_iff]
      exact header.ringSizes_ne_nil
    have hsplit := List.dropLast_append_getLast hne
    have htotal := congrArg List.sum hsplit
    rw [List.sum_append, List.sum_singleton, sum_digitElements (hsecrets ▸ hv), hsum] at htotal
    have hlast : CurveGroup.opening ((header.min + v * header.scale : ℕ) : ZMod groupOrder) blind -
        ((header.min : ZMod groupOrder) • CurveGroup.value +
          (digitElements header v secrets).dropLast.sum) =
        (digitElements header v secrets).getLast hne := by
      rw [← sub_eq_iff_eq_add'.mpr htotal.symm]
      simp only [CurveGroup.opening]
      push_cast
      module
    rw [hcommit, digitPoints_eq, ← List.map_dropLast, ← CurveGroup.ofGroup_value,
      Point.mul_eq_smul, Scalar.reduce, Residue.toZMod_reduce, Point.foldl_ofGroup,
      ← Point.ofGroup_sub, hlast, ← List.map_singleton, ← List.map_append, hsplit]
  have hlength : masked.length = header.ringSizes.length := by
    rw [← hmasked, List.length_map]
  simp only [Parts.rings, Parts.ringSizes, hfirsts, closed]
  refine List.ext_getElem ?_ fun i hi hi' ↦ ?_
  · simp only [List.length_map, List.length_zip, length_ownedRings hsecrets hmasked,
      length_digitPoints, length_ringSteps, hsecrets, hresponses, min_self]
  · simp only [ownedRings, List.getElem_map, List.getElem_zip, List.getElem_zipIdx]

theorem map_length_close {digest start : FixedBytes 32} {rings : List OwnedRing} (count : Nat)
    {responses : List (List Scalar)}
    (h : (rings.zipIdx count).mapM (fun (r, i) ↦ r.close digest start i) = some responses) :
    responses.map List.length = rings.map (·.responses.length) := by
  induction rings generalizing count responses with
  | nil =>
    cases h
    rfl
  | cons r rings ih =>
    rw [List.zipIdx_cons] at h
    obtain ⟨response, others, hresponse, hothers, rfl⟩ := mapM_cons_eq_some h
    obtain ⟨link, -, hresponse⟩ := Option.bind_eq_some_iff.mp hresponse
    obtain ⟨e, -, hresponse⟩ := Option.bind_eq_some_iff.mp hresponse
    obtain ⟨_, -, hresponse⟩ := Option.bind_eq_some_iff.mp hresponse
    cases hresponse
    rw [List.map_cons, List.map_cons, ih (count + 1) hothers, List.length_set]

theorem map_length_ownedRings (hsecrets : secrets.length = header.ringSizes.length)
    (hmasked : masked.map List.length = header.ringSizes) :
    (ownedRings header v secrets masked).map (·.responses.length) = header.ringSizes := by
  have hlength : masked.length = header.ringSizes.length := by
    rw [← hmasked, List.length_map]
  refine List.ext_getElem ?_ fun i hi hi' ↦ ?_
  · rw [List.length_map, length_ownedRings hsecrets hmasked]
  · simp only [ownedRings, List.getElem_map, List.getElem_zip, List.getElem_zipIdx]
    simp only [← hmasked, List.getElem_map]

/-- A run of the signer that did not fail, with the parts of its proof and the challenges that a
verifier meets. -/
structure Signed (header : Header) (v : Nat) (P : CurveGroup) (blind nonce : SecretKey)
    (message bs : Bytes) (draws : Draws) (masked : List (List Scalar)) (parts : Parts)
    (es : List (List Scalar)) : Prop where
  draws_eq : Draws.make nonce (.ofGroup P) header.encode header.ringSizes = some draws
  masked_eq : maskedResponses draws.pads (hiddenBlocks header.ringSizes v message) = some masked
  masked_shape : masked.map List.length = header.ringSizes
  secrets_length : (ringSecrets draws header.ringSizes blind).length = header.ringSizes.length
  reads : Parts.ofBytes? bs = some parts
  header_eq : parts.header = header
  headerBytes_eq : parts.headerBytes = header.encode
  responses_length : parts.responses.length = header.ringSizes.length
  verifies : parts.verify (.ofGroup P) = some es
  closes : ∀ (i : Nat) (r : OwnedRing),
    (ownedRings header v (ringSecrets draws header.ringSizes blind) masked)[i]? = some r →
      ∃ es' rs, es[i]? = some es' ∧ parts.responses[i]? = some rs ∧ r.Closes es' rs

/-- A proof that a signer makes verifies for the commitment that it was made for. -/
theorem signed_of_sign {P : CurveGroup} {blind nonce : SecretKey} {message bs : Bytes}
    (hdecode : ∀ rest, Header.decode (header.encode ++ rest) = some (header, rest))
    (hdigits : ∀ i (hi : i < header.ringSizes.length), digit v i < header.ringSizes[i])
    (hv : v < 4 ^ header.ringSizes.length)
    (hP : P = .opening ((header.min + v * header.scale : ℕ) : ZMod groupOrder)
      blind.scalar.toZMod)
    (hsign : sign header v (.ofGroup P) blind nonce message = .ok bs) :
    (∃ draws masked parts es, Signed header v P blind nonce message bs draws masked parts es) ∧
    bs.length = header.encode.length + (header.ringSizes.length - 1 + 7) / 8 +
      32 * (header.ringSizes.length - 1) + 32 + 32 * header.ringSizes.sum := by
  obtain ⟨draws, masked, start, responses, secrets, points, hdraws, hmasked, rfl, hlast, rfl, hne,
    hopen, hclose, rfl⟩ := sign_eq_ok hsign
  obtain ⟨hsecrets, hnonzero, hsum⟩ := ringSecrets_spec header.ringSizes_ne_nil hdraws hlast
  obtain ⟨hpads, -⟩ := Draws.takeRings_spec header.ringSizes_ne_nil hdraws
  have hshape : masked.map List.length = header.ringSizes := by
    rw [map_length_maskedResponses (by rw [map_length_hiddenBlocks, hpads]) hmasked, hpads]
  have hsizes : responses.map List.length = header.ringSizes := by
    rw [map_length_close 0 hclose, map_length_ownedRings hsecrets hshape]
  have hresponses : responses.length = header.ringSizes.length := by
    rw [← hsizes, List.length_map]
  have hpoints : ∀ p ∈ (digitPoints header v (ringSecrets draws header.ringSizes blind)).dropLast,
      p ≠ 0 ∧ p.IsOnCurve := by
    intro p hp
    have hmem := List.mem_of_mem_dropLast hp
    refine ⟨hne p hmem, Point.isOnCurve_iff.mpr ?_⟩
    rw [digitPoints_eq] at hmem
    obtain ⟨Q, -, hQ⟩ := List.mem_map.mp hmem
    exact ⟨Q, hQ⟩
  have hcount : (digitPoints header v (ringSecrets draws header.ringSizes blind)).dropLast.length =
      header.ringSizes.length - 1 := by
    rw [List.length_dropLast, length_digitPoints, hsecrets]
  obtain ⟨es, hverify, hcloses⟩ := verifyRings_closed
    (owned_of_mem hsecrets hshape hnonzero hdigits) hopen hclose
  refine ⟨⟨draws, masked, _, es, hdraws, hmasked, hshape, hsecrets,
    Parts.ofBytes?_written hdecode hpoints hcount start hsizes, rfl, rfl, hresponses, ?_, hcloses⟩,
    ?_⟩
  · rw [Parts.verify,
      rings_eq_closed hsecrets hshape hresponses hv hsum (congrArg Point.ofGroup hP)]
    exact hverify
  · simp only [List.length_append, length_packSigns,
      length_flatten_acrossBytes fun p hp ↦ (hpoints p hp).1, hcount, start.length_toList,
      length_flatMap_toBytes, List.length_flatten, hsizes]

theorem ringSizes_full : Header.full.ringSizes = List.replicate 32 4 := rfl

theorem decode_full (rest : Bytes) :
    Header.decode (Header.full.encode ++ rest) = some (.full, rest) := rfl

theorem bytes_fit {bs : Bytes} (h : bs.length ≤ maxSize) :
    bytes ⟨.fit bs, bs.length⟩ = bs := by
  change ((bs ++ List.replicate maxSize 0).take maxSize).take bs.length = bs
  rw [List.take_take, Nat.min_eq_left h, List.take_left]

/-- The proof that a run of the signer leaves. -/
def leave : Except Bytes Bytes → RangeProof
  | .ok proof => ⟨.fit proof, proof.length⟩
  | .error written => ⟨.fit written, maxSize⟩

/-- Once message and commitment have passed there is a proof, even if the signer fails. -/
theorem prove_eq {v : UInt64} {blind : SecretKey} {message : Bytes} {c : Commitment}
    {result : Except Bytes Bytes} (hmessage : message.length ≤ maxMessageSize)
    (hcommit : Commitment.commit .commit v blind = .ok c)
    (hsign : sign .full v.toNat (.pedersen v blind.scalar) blind blind message = result) :
    prove .commit v blind c message = .ok (leave result) := by
  simp only [prove, Capability.requireCommit_commit, ok_bind, if_neg hmessage.not_gt, hcommit, hsign,
    ne_eq, not_true, if_false]
  cases result with
  | ok proof => rfl
  | error written => rfl

theorem digit_lt_full (v i : Nat) (hi : i < Header.full.ringSizes.length) :
    digit v i < Header.full.ringSizes[i] := by
  simp only [ringSizes_full, List.getElem_replicate]
  exact Nat.mod_lt _ (by decide)

theorem signed_full {v : UInt64} {blind nonce : SecretKey} {message bs : Bytes}
    (hsign : sign .full v.toNat (.pedersen v blind.scalar) blind nonce message = .ok bs) :
    (∃ draws masked parts es, Signed .full v.toNat (.opening v.toNat blind.scalar.toZMod) blind nonce
      message bs draws masked parts es) ∧ bs.length = 5126 := by
  rw [Point.pedersen_eq] at hsign
  have hv : v.toNat < 4 ^ Header.full.ringSizes.length := by
    have := v.toNat_lt
    rw [ringSizes_full, List.length_replicate]
    omega
  obtain ⟨hsigned, hlength⟩ :=
    signed_of_sign decode_full (digit_lt_full _) hv (by simp [Header.full, Header.scale]) hsign
  exact ⟨hsigned, hlength⟩

theorem verify_of_sign_full {v : UInt64} {blind nonce : SecretKey} {message bs : Bytes}
    {c : Commitment} (hcommit : Commitment.commit .commit v blind = .ok c)
    (hsign : sign .full v.toNat (.pedersen v blind.scalar) blind nonce message = .ok bs) :
    verify .commit c ⟨.fit bs, bs.length⟩ = .ok ⟨0, .ofNat (2 ^ 64 - 1)⟩ := by
  have hencodes := Commitment.commit_eq_ok_iff.mp hcommit
  obtain ⟨⟨draws, masked, parts, es, hsigned⟩, hlength⟩ := signed_full hsign
  have hsize : checkSize ⟨.fit bs, bs.length⟩ = .ok () :=
    checkSize_of_le (by simp [hlength]) (by simp [hlength, maxSize])
  have hparts : Parts.ofBytes? (bytes ⟨.fit bs, bs.length⟩) = some parts := by
    rw [bytes_fit (by rw [hlength]; decide), hsigned.reads]
  have hverify : parts.verify (.ofGroup c.element) = some es := by
    rw [hencodes.element_eq, hsigned.verifies]
  rw [verify_of_parts ⟨_, hencodes⟩ hsize hparts hverify, Parts.range, hsigned.header_eq]
  rfl

end ConfidentialTx.RangeProof
