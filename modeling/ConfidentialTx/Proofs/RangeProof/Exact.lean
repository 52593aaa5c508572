import Mathlib
import ConfidentialTx.Proofs.RangeProof.Recover

namespace ConfidentialTx.RangeProof

variable {header : Header} {v : Nat} {P : CurveGroup} {blind nonce : SecretKey} {bs : Bytes}
  {draws : Draws} {masked : List (List Scalar)} {parts : Parts} {es : List (List Scalar)}

theorem openParts_of_signed_exact
    (h : Signed header v P blind nonce [] bs draws masked parts es)
    (hsizes : header.ringSizes = [1]) (hdigit : digit v 0 < 1) :
    openParts parts es nonce (.ofGroup P) = some ⟨0, blind.scalar, []⟩ := by
  have hlast : header.ringSizes.length - 1 = 0 := by rw [hsizes]; rfl
  have hsize : header.ringSizes[0]? = some 1 := by rw [hsizes]; rfl
  obtain ⟨pads, blocks, secret, es', rs, hpads, -, -, hsecret, hes, hrs, -, pad, e, response, hpad,
    he, hresponse, hblind⟩ := last_of_signed h hlast hsize hdigit (Nat.zero_le _)
  have hdraws := h.draws_eq
  rw [Nat.lt_one_iff.mp hdigit] at hpad he hresponse
  rw [hsizes] at hdraws
  simp only [openParts, Parts.ringSizes, h.header_eq, h.headerBytes_eq, hsizes, hdraws,
    List.length_singleton, Nat.sub_self, hpads, hsecret, hes, hrs, hpad, he, hresponse,
    Option.bind_eq_bind, Option.bind_some, hblind, if_true]
  rfl

/-- The header of proofs for one value. -/
def Header.exact (v : UInt64) : Header := ⟨0, 0, v.toNat⟩

theorem decode_exact (v : UInt64) (rest : Bytes) :
    Header.decode ((Header.exact v).encode ++ rest) = some (.exact v, rest) := by
  have hmax : (Header.exact v).max < UInt64.size := by
    simpa [Header.max, Header.exact] using v.toNat_lt
  by_cases hv : v.toNat = 0
  · have hexact : Header.exact v = ⟨0, 0, 0⟩ := by rw [Header.exact, hv]
    rw [hexact]
    rfl
  · have hencode : (Header.exact v).encode ++ rest = 32 :: (Bytes.bigEndian 8 v.toNat ++ rest) := by
      simp only [Header.encode, Header.exact, hv, if_false, if_true]
      rfl
    have hvalue : Bytes.toNat (Bytes.bigEndian 8 v.toNat) = v.toNat := by
      rw [Bytes.toNat_bigEndian]
      exact Nat.mod_eq_of_lt v.toNat_lt
    have hmin : Header.takeMin 32 (Bytes.bigEndian 8 v.toNat ++ rest) = some (v.toNat, rest) := by
      have hlength := Bytes.length_bigEndian 8 v.toNat
      have hlong : ¬(Bytes.bigEndian 8 v.toNat ++ rest).length < 8 := by
        rw [List.length_append, hlength]
        omega
      rw [Header.takeMin, if_neg (by decide), if_neg hlong, List.take_left' hlength,
        List.drop_left' hlength, hvalue]
    have hshape (rest : Bytes) : Header.takeShape 32 rest = some (0, 0, rest) := rfl
    rw [hencode]
    simp only [Header.decode, hshape, hmin, Option.bind_eq_bind, Option.bind_some]
    rw [guard, if_pos ⟨by decide, by decide, by decide, hmax⟩]
    rfl

theorem length_encode_le (header : Header) : header.encode.length ≤ 10 := by
  unfold Header.encode
  split
  · split
    · simp
    · simp
  · split
    · simp
    · simp

/-- The nonce is any key at all. -/
theorem rewind_of_sign_exact {v : UInt64} {c : Commitment}
    (hcommit : Commitment.commit .commit v blind = .ok c)
    (hsign : sign (.exact v) 0 (.pedersen v blind.scalar) blind nonce [] = .ok bs) :
    rewind .commit c ⟨.fit bs, bs.length⟩ nonce = .ok ⟨true, v, [], v, v⟩ := by
  have hsizes : (Header.exact v).ringSizes = [1] := rfl
  have hvalue : (Header.exact v).min + 0 * (Header.exact v).scale = v.toNat := by
    simp [Header.exact]
  rw [Point.pedersen_eq] at hsign
  obtain ⟨⟨draws, masked, parts, es, hsigned⟩, hlength⟩ :=
    signed_of_sign (decode_exact v) (by simp [hsizes, digit]) (by simp [hsizes]) (by rw [hvalue])
      hsign
  have hencode := length_encode_le (.exact v)
  have hle : 1 ≤ bs.length ∧ bs.length ≤ maxSize := by
    rw [hlength, hsizes, maxSize, List.length_singleton, List.sum_singleton]
    omega
  have hopen := openParts_of_signed_exact hsigned hsizes (by decide)
  have hrewind := rewindPoint_of_signed hsigned (by rw [hvalue]) (by rw [hvalue]; exact v.toNat_lt)
    hopen
  have hmax : (Header.exact v).max = v.toNat := by
    simp [Header.max, Header.exact]
  have hmin : (Header.exact v).min = v.toNat := rfl
  rw [hvalue, hmax, hmin, UInt64.ofNat_toNat] at hrewind
  exact rewind_written (Commitment.commit_eq_ok_iff.mp hcommit) hle.1 hle.2 hrewind

set_option maxRecDepth 10000 in
/-- A run of the signer that succeeds. -/
theorem exists_sign_exact :
    ∃ bs, sign (.exact 5) 0 (.pedersen 5 exactBlind.scalar) exactBlind exactNonce [] = .ok bs := by
  have hsign : (sign (.exact 5) 0 (.pedersen 5 exactBlind.scalar) exactBlind exactNonce []).isOk :=
    by decide +kernel
  exact exists_of_isOk hsign

end ConfidentialTx.RangeProof
