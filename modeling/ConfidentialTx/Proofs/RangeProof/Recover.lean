import Mathlib
import ConfidentialTx.Proofs.RangeProof.Complete
import ConfidentialTx.Proofs.RangeProof.Hidden
import ConfidentialTx.Proofs.RangeProof.Message

namespace ConfidentialTx.RangeProof

theorem length_ringKeys (size : Nat) (first step : Point) :
    (ringKeys size first step).length = size := by
  induction size generalizing first with
  | zero => rfl
  | succ size ih => exact congrArg (· + 1) (ih _)

variable {header : Header} {v : Nat} {P : CurveGroup} {blind nonce : SecretKey}
  {message bs : Bytes} {draws : Draws} {masked : List (List Scalar)} {parts : Parts}
  {es : List (List Scalar)}

theorem exists_ownedRing {secrets : List Scalar} {i size : Nat} {s : Scalar} {ms : List Scalar}
    (hsize : header.ringSizes[i]? = some size) (hs : secrets[i]? = some s)
    (hms : masked[i]? = some ms) :
    ∃ r, (ownedRings header v secrets masked)[i]? = some r ∧ r.keys.length = size ∧
      r.responses = ms ∧ r.place = digit v i ∧ r.secret = s ∧
      r.nonce = ms.getD (digit v i) 0 := by
  obtain ⟨hi, -⟩ := List.getElem?_eq_some_iff.mp hsize
  obtain ⟨hi', -⟩ := List.getElem?_eq_some_iff.mp hs
  have hfirst : i < (digitPoints header v secrets).length := by rwa [length_digitPoints]
  have hstep : i < (ringSteps header.ringSizes.length
      (Generator.value.mul (.reduce header.scale))).length := by rwa [length_ringSteps]
  refine ⟨⟨ringKeys size (digitPoints header v secrets)[i] (ringSteps header.ringSizes.length
    (Generator.value.mul (.reduce header.scale)))[i], ms, digit v i, s, ms.getD (digit v i) 0⟩,
    ?_, length_ringKeys .., rfl, rfl, rfl, rfl⟩
  have hzip : (header.ringSizes.zip ((digitPoints header v secrets).zip
      ((ringSteps header.ringSizes.length (Generator.value.mul (.reduce header.scale))).zip
        (secrets.zip masked))))[i]? = some (size, (digitPoints header v secrets)[i],
          (ringSteps header.ringSizes.length (Generator.value.mul (.reduce header.scale)))[i],
          s, ms) := by
    simp only [List.getElem?_zip_eq_some, hsize, hs, hms, List.getElem?_eq_getElem hfirst,
      List.getElem?_eq_getElem hstep, and_self]
  simp only [ownedRings, List.getElem?_map, List.getElem?_zipIdx, hzip, Option.map_some, zero_add]

theorem length_of_mem_hiddenBlocks {sizes : List Nat} {blocks : List Bytes}
    (h : blocks ∈ hiddenBlocks sizes v message) : ∀ b ∈ blocks, b.length = 32 := by
  intro b hb
  obtain ⟨⟨size, ring⟩, -, rfl⟩ := List.mem_map.mp h
  obtain ⟨place, -, rfl⟩ := List.mem_map.mp hb
  split
  · simp [valueMarker]
  · exact Bytes.length_padTake 32 _

theorem exists_of_map_length {α : Type} {rows : List (List α)} {sizes : List Nat} {i size : Nat}
    (h : rows.map List.length = sizes) (hsize : sizes[i]? = some size) :
    ∃ row, rows[i]? = some row ∧ row.length = size := by
  rw [← h, List.getElem?_map] at hsize
  exact Option.map_eq_some_iff.mp hsize

/-- Each ring that the signer leaves hides its blocks. -/
theorem hides_of_signed (h : Signed header v P blind nonce message bs draws masked parts es)
    {i size : Nat} (hsize : header.ringSizes[i]? = some size) (hdigit : digit v i < size) :
    ∃ pads blocks secret es' rs, draws.pads[i]? = some pads ∧ pads.length = size ∧
      (hiddenBlocks header.ringSizes v message)[i]? = some blocks ∧
      (ringSecrets draws header.ringSizes blind)[i]? = some secret ∧
      es[i]? = some es' ∧ parts.responses[i]? = some rs ∧
      Hides (digit v i) secret pads blocks es' rs := by
  obtain ⟨hpads, -⟩ := Draws.takeRings_spec header.ringSizes_ne_nil h.draws_eq
  obtain ⟨hi, -⟩ := List.getElem?_eq_some_iff.mp hsize
  have hiSecrets : i < (ringSecrets draws header.ringSizes blind).length := by
    rwa [h.secrets_length]
  obtain ⟨pads, hpad, hpadsLength⟩ := exists_of_map_length hpads hsize
  obtain ⟨blocks, hblocks, hblocksLength⟩ :=
    exists_of_map_length (map_length_hiddenBlocks header.ringSizes v message) hsize
  obtain ⟨ms, hms, hmsLength⟩ := exists_of_map_length h.masked_shape hsize
  have hsecret := List.getElem?_eq_getElem hiSecrets
  obtain ⟨r, hr, hkeys, hresponses, hplace, hrSecret, hnonce⟩ := exists_ownedRing hsize hsecret hms
  obtain ⟨es', rs, hes, hrs, hcloses⟩ := h.closes i r hr
  obtain ⟨e, he, hne, hanswer⟩ := hcloses.answers
  obtain ⟨ms', hms', hmask⟩ := getElem?_of_mapM h.masked_eq (i := i) (a := (pads, blocks))
    (List.getElem?_zip_eq_some.mpr ⟨hpad, hblocks⟩)
  rw [hms, Option.some.injEq] at hms'
  subst hms'
  have hget : ms[digit v i]? = some (ms.getD (digit v i) 0) := by
    rw [List.getD_eq_getElem?_getD, List.getElem?_eq_getElem (by omega), Option.getD_some]
  refine ⟨pads, blocks, _, es', rs, hpad, hpadsLength, hblocks, hsecret, hes, hrs, ?_, ms, e,
    ms.getD (digit v i) 0, ?_, ?_, hget, ?_, hne, ?_⟩
  · rw [hcloses.length_eq, hkeys, hpadsLength]
  · rw [hmsLength, hpadsLength]
  · exact zipWith_unmask (length_of_mem_hiddenBlocks (List.mem_of_getElem? hblocks))
      (hblocksLength.trans hpadsLength.symm) hmask
  · rw [← hplace, he]
  · rw [hanswer, hresponses, hplace, hnonce, hrSecret]

theorem getElem?_hiddenBlocks {sizes : List Nat} {i size place : Nat}
    (hsize : sizes[i]? = some size) (hplace : place < size) {blocks : List Bytes}
    (hblocks : (hiddenBlocks sizes v message)[i]? = some blocks) :
    blocks[place]? = some (if i + 1 = sizes.length ∧ 1 < size ∧
      place = markerPlace size (digit v i) then valueMarker v
      else Bytes.padTake 32 (message.drop (32 * (4 * i + place)))) := by
  simp only [hiddenBlocks, List.getElem?_map, List.getElem?_zipIdx, hsize, Option.map_some,
    zero_add, Option.some.injEq] at hblocks
  subst hblocks
  simp only [List.getElem?_map, List.getElem?_range hplace, Option.map_some]

theorem ringSecrets_of_lt {sizes : List Nat} {i : Nat} (hi : i < sizes.length - 1) :
    (ringSecrets draws sizes blind)[i]? = draws.secrets[i]? := by
  have hne : sizes.length - 1 ≠ i := by omega
  simp [ringSecrets, hne]

theorem ringSecrets_last (sizes : List Nat) :
    (ringSecrets draws sizes blind)[sizes.length - 1]? =
      draws.secrets[sizes.length - 1]?.map (· + blind.scalar) := by
  rw [ringSecrets, List.getElem?_modify_eq]
  rfl

theorem padTake_drop_of_length_le {count : Nat} (h : message.length ≤ count) :
    Bytes.padTake 32 (message.drop count) = List.replicate 32 0 := by
  rw [List.drop_of_length_le h]
  rfl

/-- The message ends before the last ring, whose closing response tells the blinding factor. -/
theorem last_of_signed (h : Signed header v P blind nonce message bs draws masked parts es)
    {last size : Nat} (hlast : header.ringSizes.length - 1 = last)
    (hsize : header.ringSizes[last]? = some size) (hdigit : digit v last < size)
    (hmessage : message.length ≤ 128 * last) :
    ∃ pads blocks secret es' rs, draws.pads[last]? = some pads ∧ pads.length = size ∧
      (hiddenBlocks header.ringSizes v message)[last]? = some blocks ∧
      draws.secrets[last]? = some secret ∧ es[last]? = some es' ∧
      parts.responses[last]? = some rs ∧
      Hides (digit v last) (secret + blind.scalar) pads blocks es' rs ∧
      ∃ pad e response, pads[digit v last]? = some pad ∧ es'[digit v last]? = some e ∧
        rs[digit v last]? = some response ∧
        recoverSecret (.reduce pad.toNat) e response - secret = blind.scalar := by
  obtain ⟨pads, blocks, secret, es', rs, hpads, hlength, hblocks, hsecret, hes, hrs, hhides⟩ :=
    hides_of_signed h hsize hdigit
  subst hlast
  rw [ringSecrets_last] at hsecret
  obtain ⟨drawn, hdrawn, rfl⟩ := Option.map_eq_some_iff.mp hsecret
  have hnone : ¬(header.ringSizes.length - 1 + 1 = header.ringSizes.length ∧ 1 < size ∧
      digit v (header.ringSizes.length - 1) =
        markerPlace size (digit v (header.ringSizes.length - 1))) := by
    rintro ⟨-, htwo, hplace⟩
    exact (markerPlace_spec htwo).1 hplace.symm
  have hzero := getElem?_hiddenBlocks hsize hdigit hblocks
  rw [if_neg hnone, padTake_drop_of_length_le (by omega)] at hzero
  obtain ⟨pad, e, response, hpad, he, hresponse, hsecret⟩ := recoverSecret_of_hides hhides hzero
  refine ⟨pads, blocks, drawn, es', rs, hpads, hlength, hblocks, hdrawn, hes, hrs, hhides, pad, e,
    response, hpad, he, hresponse, ?_⟩
  apply Residue.toZMod_injective
  rw [hsecret, Residue.toZMod_sub, Residue.toZMod_add, add_sub_cancel_left]

theorem blocks_of_signed (h : Signed header v P blind nonce message bs draws masked parts es)
    (hdigits : ∀ i (hi : i < header.ringSizes.length), digit v i < header.ringSizes[i])
    {last : Nat} (hlast : header.ringSizes.length - 1 = last) (skipped : List Nat) :
    ∃ rest, ((parts.responses.zip (es.zip (draws.pads.zip draws.secrets))).zipIdx.flatMap
      fun ((responses, es, pads, secret), i) ↦
        ringBlocks (digit v i) (if i = last then skipped else []) secret responses es pads) =
      ((hiddenBlocks header.ringSizes v message).take last).flatten ++ rest := by
  let rows := (parts.responses.zip (es.zip (draws.pads.zip draws.secrets))).zipIdx.map
    fun ((responses, es, pads, secret), i) ↦
      ringBlocks (digit v i) (if i = last then skipped else []) secret responses es pads
  have hrows : rows.take last = (hiddenBlocks header.ringSizes v message).take last := by
    refine List.ext_getElem? fun i ↦ ?_
    rw [List.getElem?_take, List.getElem?_take]
    split
    · rename_i hi
      have hi' : i < header.ringSizes.length := by omega
      obtain ⟨pads, blocks, secret, es', rs, hpads, -, hblocks, hsecret, hes, hrs, hhides⟩ :=
        hides_of_signed h (List.getElem?_eq_getElem hi') (hdigits i hi')
      rw [ringSecrets_of_lt (by omega)] at hsecret
      have hzip : (parts.responses.zip (es.zip (draws.pads.zip draws.secrets)))[i]? =
          some (rs, es', pads, secret) := by
        simp only [List.getElem?_zip_eq_some, hrs, hes, hpads, hsecret, and_self]
      simp only [rows, List.getElem?_map, List.getElem?_zipIdx, hzip, Option.map_some, zero_add,
        if_neg hi.ne, ringBlocks_of_hides hhides, hblocks]
    · rfl
  refine ⟨(rows.drop last).flatten, ?_⟩
  rw [← hrows, ← List.flatten_append, List.take_append_drop, List.flatMap_def]

/-- What the pad of the last key takes off the last response of a proof. -/
def lastBlock? (nonce : SecretKey) (point : Point) (bs : Bytes) : Option Bytes := do
  let parts ← Parts.ofBytes? bs
  let draws ← Draws.make nonce point parts.headerBytes parts.ringSizes
  let responses ← parts.responses.getLast?
  let pads ← draws.pads.getLast?
  return unmask (← responses.getLast?) (← pads.getLast?)

theorem openParts_of_signed (h : Signed header v P blind nonce message bs draws masked parts es)
    (hdigits : ∀ i (hi : i < header.ringSizes.length), digit v i < header.ringSizes[i])
    {last size : Nat} (hlast : header.ringSizes.length - 1 = last)
    (hsize : header.ringSizes[last]? = some size) (htwo : 2 ≤ size) (hv : v < 2 ^ 64)
    (hmessage : message.length ≤ 128 * last)
    (hunmarked : digit v last = size - 1 →
      (lastBlock? nonce (.ofGroup P) bs).bind markedValue? = none) :
    ∃ rest, openParts parts es nonce (.ofGroup P) = some ⟨v, blind.scalar,
      (((hiddenBlocks header.ringSizes v message).take last).flatten ++ rest).flatten.take
        maxMessageSize⟩ := by
  obtain ⟨hi, hget⟩ := List.getElem?_eq_some_iff.mp hsize
  have hdigit : digit v last < size := hget ▸ hdigits last hi
  obtain ⟨pads, blocks, secret, es', rs, hpads, hlength, hblocks, hsecret, hes, hrs, hhides, pad, e,
    response, hpad, he, hresponse, hblind⟩ := last_of_signed h hlast hsize hdigit hmessage
  have hmarker : findMarker rs pads = some (markerPlace size (digit v last), v) := by
    subst hlength
    refine findMarker_of_hides hhides htwo hdigit hv ?_ ?_
    · rw [getElem?_hiddenBlocks hsize (markerPlace_spec htwo).2 hblocks, if_pos]
      exact ⟨by omega, htwo, rfl⟩
    · intro hplace response pad hresponse hpad
      have hresponses : parts.responses.getLast? = some rs := by
        rw [List.getLast?_eq_getElem?, h.responses_length, hlast, hrs]
      have hpadLists : draws.pads.getLast? = some pads := by
        obtain ⟨hpadsLength, -⟩ := Draws.takeRings_spec header.ringSizes_ne_nil h.draws_eq
        rw [List.getLast?_eq_getElem?, ← List.length_map (f := List.length), hpadsLength, hlast,
          hpads]
      have hblock : lastBlock? nonce (.ofGroup P) bs = some (unmask response pad) := by
        simp only [lastBlock?, h.reads, Parts.ringSizes, h.header_eq, h.headerBytes_eq, h.draws_eq,
          hresponses, hpadLists, hresponse, hpad, Option.bind_eq_bind, Option.bind_some]
        rfl
      have hnone := hunmarked hplace
      rwa [hblock, Option.bind_some] at hnone
  have hne : header.ringSizes ≠ [1] := by
    intro hone
    rw [hone, List.getElem?_singleton] at hsize
    split at hsize
    · cases hsize
      omega
    · cases hsize
  obtain ⟨rest, hrest⟩ := blocks_of_signed h hdigits hlast
    [markerPlace size (digit v last), digit v last]
  refine ⟨rest, ?_⟩
  simp only [openParts, Parts.ringSizes, h.header_eq, h.headerBytes_eq, h.draws_eq, hlast, hpads,
    hsecret, hes, hrs, hpad, he, hresponse, hmarker, Option.bind_eq_bind, Option.bind_some,
    if_neg hne, hblind, guard, ne_eq, (markerPlace_spec htwo).1, not_false_eq_true, if_true]
  rw [← hrest]
  rfl

theorem rewindPoint_of_signed (h : Signed header v P blind nonce message bs draws masked parts es)
    (hP : P = .opening ((header.min + v * header.scale : ℕ) : ZMod groupOrder)
      blind.scalar.toZMod)
    (hvalue : header.min + v * header.scale < 2 ^ 64) {text : Bytes}
    (hopen : openParts parts es nonce (.ofGroup P) = some ⟨v, blind.scalar, text⟩) :
    rewindPoint (.ofGroup P) nonce bs = some ⟨true, .ofNat (header.min + v * header.scale),
      dropTrailingZeros text, .ofNat header.min, .ofNat header.max⟩ := by
  have hnumber : parts.valueOf v = .ofNat (header.min + v * header.scale) := by
    rw [Parts.valueOf, h.header_eq, add_comm]
  have hpoint : .pedersen (parts.valueOf v) blind.scalar = Point.ofGroup P := by
    rw [Point.pedersen_eq, hnumber, UInt64.toNat_ofNat_of_lt' hvalue, hP]
  rw [rewindPoint_of_uncovers ⟨h.reads, es, h.verifies, hopen⟩ hpoint, hnumber, Parts.range,
    h.header_eq]

/-- Proofs for all 64-bit values, whatever nonce they are made with. -/
theorem rewindPoint_of_sign_full {v : UInt64} (hmessage : message.length ≤ maxMessageSize)
    (hsign : sign .full v.toNat (.pedersen v blind.scalar) blind nonce message = .ok bs)
    (hunmarked : 3 * 2 ^ 62 ≤ v.toNat →
      (lastBlock? nonce (.pedersen v blind.scalar) bs).bind markedValue? = none) :
    rewindPoint (.pedersen v blind.scalar) nonce bs =
      some ⟨true, v, dropTrailingZeros message, 0, .ofNat (2 ^ 64 - 1)⟩ := by
  obtain ⟨⟨draws, masked, parts, es, hsigned⟩, -⟩ := signed_full hsign
  rw [Point.pedersen_eq] at hunmarked ⊢
  have hlast : digit v.toNat 31 = 4 - 1 → 3 * 2 ^ 62 ≤ v.toNat := by
    rw [digit_eq]
    omega
  have hshort : message.length ≤ 128 * 31 := hmessage.trans (by decide)
  have hcount : Header.full.ringSizes.length - 1 = 31 := rfl
  have hsize : Header.full.ringSizes[31]? = some 4 := rfl
  obtain ⟨rest, hopen⟩ := openParts_of_signed hsigned (digit_lt_full _) hcount hsize (by decide)
    v.toNat_lt hshort fun h ↦ hunmarked (hlast h)
  have htext : (((hiddenBlocks Header.full.ringSizes v.toNat message).take 31).flatten ++
      rest).flatten.take maxMessageSize = Bytes.padTake maxMessageSize message := by
    rw [List.flatten_append, ringSizes_full, flatten_hiddenBlocks 31, List.take_append_of_le_length,
      Bytes.take_padTake (by decide)]
    rw [Bytes.length_padTake]
    decide
  have hscale : Header.full.min + v.toNat * Header.full.scale = v.toNat := by
    simp [Header.full, Header.scale]
  rw [htext] at hopen
  rw [rewindPoint_of_signed hsigned (by rw [hscale]) (by rw [hscale]; exact v.toNat_lt) hopen,
    hscale, dropTrailingZeros_padTake hmessage, UInt64.ofNat_toNat]
  rfl

theorem rewind_written {c : Commitment} {info : ProofInfo} (hc : c.Encodes P)
    (hsize : 1 ≤ bs.length) (hmax : bs.length ≤ maxSize)
    (h : rewindPoint (.ofGroup P) nonce bs = some info) :
    rewind .commit c ⟨.fit bs, bs.length⟩ nonce = .ok info := by
  rw [rewind_eq ⟨P, hc⟩ (checkSize_of_le hsize hmax), bytes_fit hmax, hc.element_eq, h,
    Option.getD_some]

theorem rewind_of_sign_full {v : UInt64} {c : Commitment}
    (hmessage : message.length ≤ maxMessageSize)
    (hcommit : Commitment.commit .commit v blind = .ok c)
    (hsign : sign .full v.toNat (.pedersen v blind.scalar) blind nonce message = .ok bs)
    (hunmarked : 3 * 2 ^ 62 ≤ v.toNat →
      (lastBlock? nonce (.pedersen v blind.scalar) bs).bind markedValue? = none) :
    rewind .commit c ⟨.fit bs, bs.length⟩ nonce =
      .ok ⟨true, v, dropTrailingZeros message, 0, .ofNat (2 ^ 64 - 1)⟩ := by
  obtain ⟨-, hlength⟩ := signed_full hsign
  have hrewind := rewindPoint_of_sign_full hmessage hsign hunmarked
  rw [Point.pedersen_eq] at hrewind
  exact rewind_written (Commitment.commit_eq_ok_iff.mp hcommit) (by rw [hlength]; decide)
    (by rw [hlength]; decide) hrewind

/-- What a prover wrote is verified, and the blinding factor reads it back. -/
theorem prove_verify_rewind {v : UInt64} {c : Commitment} (hmessage : message.length ≤ maxMessageSize)
    (hcommit : Commitment.commit .commit v blind = .ok c) :
    ∃ proof, prove .commit v blind c message = .ok proof ∧
      ∀ bs, sign .full v.toNat (.pedersen v blind.scalar) blind blind message = .ok bs →
        proof = ⟨.fit bs, bs.length⟩ ∧
        verify .commit c proof = .ok ⟨0, .ofNat (2 ^ 64 - 1)⟩ ∧
        ((3 * 2 ^ 62 ≤ v.toNat →
            (lastBlock? blind (.pedersen v blind.scalar) bs).bind markedValue? = none) →
          rewind .commit c proof blind =
            .ok ⟨true, v, dropTrailingZeros message, 0, .ofNat (2 ^ 64 - 1)⟩) := by
  obtain ⟨result, hresult⟩ : ∃ result,
      sign .full v.toNat (.pedersen v blind.scalar) blind blind message = result := ⟨_, rfl⟩
  refine ⟨_, prove_eq hmessage hcommit hresult, ?_⟩
  intro bs hsign
  obtain rfl : result = .ok bs := hresult.symm.trans hsign
  exact ⟨rfl, verify_of_sign_full hcommit hsign, rewind_of_sign_full hmessage hcommit hsign⟩

/-- A message with zeros inside and at its end. That the signer succeeds stays a condition, as a run
for all 64-bit values is long; `exists_sign_exact` is a short run that does. -/
theorem prove_verify_rewind_memo :
    let memo : Bytes := [7, 0, 7, 0]
    ∃ proof, prove .commit 5 exactBlind exactCommit memo = .ok proof ∧
      ∀ bs, sign .full (5 : UInt64).toNat (.pedersen 5 exactBlind.scalar) exactBlind exactBlind
          memo = .ok bs →
        verify .commit exactCommit proof = .ok ⟨0, .ofNat (2 ^ 64 - 1)⟩ ∧
        rewind .commit exactCommit proof exactBlind =
          .ok ⟨true, 5, [7, 0, 7], 0, .ofNat (2 ^ 64 - 1)⟩ := by
  intro memo
  have hmemo : memo.length ≤ maxMessageSize := by decide
  have hsmall : ¬3 * 2 ^ 62 ≤ (5 : UInt64).toNat := by decide
  obtain ⟨proof, hprove, hsigned⟩ := prove_verify_rewind hmemo commit_exactBlind
  refine ⟨proof, hprove, ?_⟩
  intro bs hsign
  obtain ⟨-, hverify, hrewind⟩ := hsigned bs hsign
  exact ⟨hverify, hrewind fun hlarge ↦ absurd hlarge hsmall⟩

end ConfidentialTx.RangeProof
