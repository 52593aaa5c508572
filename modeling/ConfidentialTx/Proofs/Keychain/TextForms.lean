import Mathlib
import ConfidentialTx.Keychain.Config
import ConfidentialTx.Proofs.Hex
import ConfidentialTx.Proofs.Json
import ConfidentialTx.Proofs.Results

namespace ConfidentialTx

variable {s : String}

namespace Identifier

variable {id : Identifier}

theorem toHex_ofBytes (bs : Bytes) : (ofBytes bs).toHex =
    String.ofList ((bs.flatMap Hex.pair ++ List.replicate 20 '0').take 20) :=
  congrArg String.ofList (Hex.flatMap_pair_padTake 10 bs)

theorem ofHex_eq_ok_iff : ofHex s = .ok id ↔ ∃ bs, Hex.decode s = .ok bs ∧ ofBytes bs = id := by
  unfold ofHex
  cases Hex.decode s <;> simp [Except.map]

theorem ofHex_of_decode_error {e : HexError} (h : Hex.decode s = .error e) :
    ofHex s = .error e := by
  rw [ofHex, h]
  rfl

theorem exists_ofHex_iff :
    (∃ id, ofHex s = .ok id) ↔ s.utf8ByteSize % 2 = 0 ∧ Hex.IsText s := by
  rw [← Hex.exists_decode_iff]
  constructor
  · rintro ⟨id, h⟩
    obtain ⟨bs, hbs, -⟩ := ofHex_eq_ok_iff.mp h
    exact ⟨bs, hbs⟩
  · rintro ⟨bs, hbs⟩
    exact ⟨ofBytes bs, ofHex_eq_ok_iff.mpr ⟨bs, hbs, rfl⟩⟩

/-- The text in lowercase, cut off or filled up to twenty digits. -/
theorem toHex_of_ofHex (h : ofHex s = .ok id) :
    id.toHex = String.ofList ((s.toLower.toList ++ List.replicate 20 '0').take 20) := by
  obtain ⟨bs, hbs, rfl⟩ := ofHex_eq_ok_iff.mp h
  rw [toHex_ofBytes, Hex.flatMap_pair_of_decode hbs]

theorem exists_firstBad_of_not_isText (heven : s.utf8ByteSize % 2 = 0) (h : ¬Hex.IsText s) :
    ∃ b index, Hex.FirstBad s b index ∧ ofHex s = .error (.invalidCharacter b index) := by
  obtain ⟨b, index, hbad⟩ := Hex.exists_firstBad h
  exact ⟨b, index, hbad, ofHex_of_decode_error (Hex.decode_of_firstBad heven hbad)⟩

theorem ofHex_toHex (id : Identifier) : ofHex id.toHex = .ok id := by
  refine ofHex_eq_ok_iff.mpr ⟨_, Hex.decode_encode id.bytes.toList, ?_⟩
  rw [ofBytes, FixedBytes.fit_toList]

theorem ofJson_text (s : String) : ofJson (.text s) =
    (ofHex s).mapError fun e ↦ .custom (KeychainError.invalidHex e).message := rfl

theorem ofJson_text_eq_ok_iff : ofJson (.text s) = .ok id ↔ ofHex s = .ok id := by
  rw [ofJson_text, mapError_eq_ok_iff]

theorem ofJson_toJson (id : Identifier) : ofJson id.toJson = .ok id :=
  ofJson_text_eq_ok_iff.mpr id.ofHex_toHex

theorem ofJson_of_not_text {json : Json} (h : ∀ s, json ≠ .text s) :
    ofJson json = .error (.invalidType json "a hex-encoded key identifier") := by
  cases json with
  | text s => exact absurd rfl (h s)
  | _ => rfl

end Identifier

namespace ContentHash

variable {h : ContentHash}

theorem ofHex_eq_ok_iff : ofHex s = .ok h ↔ Hex.decodeFixed 32 s = .ok h.bytes := by
  unfold ofHex
  cases Hex.decodeFixed 32 s with
  | error e => simp [Except.map]
  | ok bytes =>
    cases h
    simp [Except.map]

theorem exists_ofHex_iff :
    (∃ h, ofHex s = .ok h) ↔ s.length = 64 ∧ Hex.IsText s := by
  have hfixed : (∃ bytes : FixedBytes 32, Hex.decodeFixed 32 s = .ok bytes) ↔ _ :=
    Hex.exists_decodeFixed_iff
  rw [← hfixed]
  constructor
  · rintro ⟨h, hread⟩
    exact ⟨h.bytes, ofHex_eq_ok_iff.mp hread⟩
  · rintro ⟨bytes, hread⟩
    exact ⟨⟨bytes⟩, ofHex_eq_ok_iff.mpr hread⟩

theorem toHex_of_ofHex (hread : ofHex s = .ok h) : h.toHex = s.toLower :=
  Hex.toHex_of_decodeFixed (ofHex_eq_ok_iff.mp hread)

theorem ofHex_toHex (h : ContentHash) : ofHex h.toHex = .ok h :=
  ofHex_eq_ok_iff.mpr (Hex.decodeFixed_toHex h.bytes)

end ContentHash

/-- Which texts are identifiers, what they are written as, and why other texts are none; that an
identifier is read back from its text, its JSON and the text of that; what JSON is an identifier.
Which texts are content hashes, and that these are read back. -/
theorem text_forms :
    (∀ s, (∃ id, Identifier.ofHex s = .ok id) ↔ s.utf8ByteSize % 2 = 0 ∧ Hex.IsText s) ∧
    (∀ s id, Identifier.ofHex s = .ok id →
      id.toHex = String.ofList ((s.toLower.toList ++ List.replicate 20 '0').take 20)) ∧
    (∀ s, s.utf8ByteSize % 2 = 1 → Identifier.ofHex s = .error .oddLength) ∧
    (∀ s, s.utf8ByteSize % 2 = 0 → ¬Hex.IsText s → ∃ b index, Hex.FirstBad s b index ∧
      Identifier.ofHex s = .error (.invalidCharacter b index)) ∧
    (∀ id : Identifier, Identifier.ofHex id.toHex = .ok id ∧ Identifier.ofJson id.toJson = .ok id ∧
      (Json.ofText id.toJson.toText).map Identifier.ofJson = some (.ok id)) ∧
    (∀ s id, Identifier.ofJson (.text s) = .ok id ↔ Identifier.ofHex s = .ok id) ∧
    (∀ s e, Identifier.ofHex s = .error e →
      Identifier.ofJson (.text s) = .error (.custom (KeychainError.invalidHex e).message)) ∧
    (∀ json : Json, (∀ s, json ≠ .text s) → Identifier.ofJson json =
      .error (.invalidType json "a hex-encoded key identifier")) ∧
    (∀ s, (∃ h, ContentHash.ofHex s = .ok h) ↔ s.length = 64 ∧ Hex.IsText s) ∧
    (∀ s h, ContentHash.ofHex s = .ok h → h.toHex = s.toLower) ∧
    ∀ h : ContentHash, ContentHash.ofHex h.toHex = .ok h := by
  refine ⟨fun _ ↦ Identifier.exists_ofHex_iff, fun _ _ ↦ Identifier.toHex_of_ofHex,
    fun _ hodd ↦ Identifier.ofHex_of_decode_error (Hex.decode_of_odd hodd),
    fun _ ↦ Identifier.exists_firstBad_of_not_isText,
    fun id ↦ ⟨id.ofHex_toHex, id.ofJson_toJson, ?_⟩, fun _ _ ↦ Identifier.ofJson_text_eq_ok_iff,
    fun s e h ↦ ?_, fun _ ↦ Identifier.ofJson_of_not_text, fun _ ↦ ContentHash.exists_ofHex_iff,
    fun _ _ ↦ ContentHash.toHex_of_ofHex, ContentHash.ofHex_toHex⟩
  · rw [Identifier.toJson, Json.ofText_toText_text, Option.map_some]
    exact congrArg some id.ofJson_toJson
  · rw [Identifier.ofJson_text, h]
    rfl

/-- Text in mixed case, of odd length, with a letter that is no digit behind the tenth byte, JSON
that is no string, and the digits of a hash. -/
theorem text_forms_cases :
    (∃ id, Identifier.ofHex "0aF1" = .ok id ∧ id.toHex = "0af10000000000000000" ∧
      Identifier.ofJson (.text "0aF1") = .ok id) ∧
    Identifier.ofHex "0a1" = .error .oddLength ∧
    (∃ b index, Hex.FirstBad "0123456789abcdef01234x" b index ∧
      Identifier.ofHex "0123456789abcdef01234x" = .error (.invalidCharacter b index)) ∧
    Identifier.ofJson (.text "0a1") =
      .error (.custom (KeychainError.invalidHex .oddLength).message) ∧
    Identifier.ofJson .null = .error (.invalidType .null "a hex-encoded key identifier") ∧
    ∃ h, ContentHash.ofHex (String.ofList (List.replicate 64 'B')) = .ok h ∧
      h.toHex = String.ofList (List.replicate 64 'b') := by
  obtain ⟨hread, hwrite, hodd, hbad, -, hjson, herror, hother, hhash, hlower, -⟩ := text_forms
  obtain ⟨id, hid⟩ := (hread "0aF1").mpr (by decide +kernel)
  obtain ⟨h, hh⟩ := (hhash (String.ofList (List.replicate 64 'B'))).mpr (by decide +kernel)
  have hshort := hodd "0a1" (by decide +kernel)
  refine ⟨⟨id, hid, (hwrite _ _ hid).trans (by decide +kernel), (hjson _ _).mpr hid⟩, hshort,
    hbad _ (by decide +kernel) (by decide +kernel), herror _ _ hshort, hother _ fun s h ↦ ?_,
    h, hh, (hlower _ _ hh).trans (by decide +kernel)⟩
  cases h

end ConfidentialTx
