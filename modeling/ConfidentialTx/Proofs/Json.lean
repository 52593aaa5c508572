import Mathlib
import ConfidentialTx.Hex
import ConfidentialTx.Json.Reader
import ConfidentialTx.Json.Printer

namespace ConfidentialTx.Json

variable {units : List Nat} {rest : List Char}

theorem hexDigits_control : ∀ n < 0x20,
    hexDigits 4 n = ['0', '0', Hex.digit (n / 16), Hex.digit (n % 16)] ∧
      hexUnit? '0' '0' (Hex.digit (n / 16)) (Hex.digit (n % 16)) = some n := by
  decide

/-- One character as it stands in quotes is one code unit for the reader. -/
theorem readUnits_escapeChar (c : Char) (units : List Nat) (rest : List Char) :
    readUnits units (escapeChar c ++ rest) = readUnits (c.toNat :: units) rest := by
  unfold escapeChar
  split
  · subst c
    rfl
  · split
    · subst c
      rfl
    · split
      · rename_i hcontrol
        obtain ⟨hdigits, hunit⟩ := hexDigits_control c.toNat hcontrol
        rw [hdigits]
        simp only [List.cons_append, List.nil_append, readUnits, hunit]
      · rename_i hquote hslash hcontrol
        rw [List.singleton_append, readUnits, if_neg hcontrol]
        · exact hquote
        · rintro a b c d rest rfl
          exact absurd rfl hslash
        · rintro e rest rfl
          exact absurd rfl hslash

theorem readUnits_quoted (cs : List Char) (units : List Nat) (rest : List Char) :
    readUnits units (cs.flatMap escapeChar ++ '"' :: rest) =
      some (units.reverse ++ cs.map Char.toNat, rest) := by
  induction cs generalizing units with
  | nil => simp [readUnits]
  | cons c cs ih =>
    rw [List.flatMap_cons, List.append_assoc, readUnits_escapeChar, ih, List.reverse_cons,
      List.append_assoc]
    rfl

theorem not_surrogate_toNat (c : Char) : ¬(0xd800 ≤ c.toNat ∧ c.toNat < 0xe000) := by
  have hvalid : c.toNat < 0xd800 ∨ 0xdfff < c.toNat ∧ c.toNat < 0x110000 := c.valid
  omega

theorem joinUnits_chars (done cs : List Char) :
    joinUnits done (cs.map Char.toNat) = some (done.reverse ++ cs) := by
  induction cs generalizing done with
  | nil => simp [joinUnits]
  | cons c cs ih =>
    have hnext : joinUnits done ((c :: cs).map Char.toNat) =
        joinUnits (c :: done) (cs.map Char.toNat) := by
      have hscalar := not_surrogate_toNat c
      have hhalf : isHalf c.toNat = false := decide_eq_false hscalar
      cases cs with
      | nil => simp [joinUnits, hhalf]
      | cons d cs =>
        have hhigh : ¬(0xd800 ≤ c.toNat ∧ c.toNat < 0xdc00 ∧ 0xdc00 ≤ d.toNat ∧
            d.toNat < 0xe000) := by
          omega
        rw [List.map_cons, List.map_cons, joinUnits, if_neg hhigh, hhalf, Char.ofNat_toNat]
        rfl
    rw [hnext, ih, List.reverse_cons, List.append_assoc]
    rfl

theorem readText_quoted (s : String) (rest : List Char) :
    readText (s.toList.flatMap escapeChar ++ '"' :: rest) = some (s, rest) := by
  have hjoin := joinUnits_chars [] s.toList
  rw [List.reverse_nil, List.nil_append] at hjoin
  simp only [readText, readUnits_quoted, List.reverse_nil, List.nil_append, Option.bind_eq_bind,
    Option.bind_some, hjoin, String.ofList_toList]
  rfl

theorem ofText_toText_text (s : String) : ofText (toText (.text s)) = some (.text s) := by
  have hread (limit : Nat) :
      readValue (limit + 1) ('"' :: s.toList.flatMap escapeChar ++ ['"']) = some (.text s, []) := by
    have hskip : skipBlank ('"' :: s.toList.flatMap escapeChar ++ ['"']) =
        '"' :: s.toList.flatMap escapeChar ++ ['"'] := rfl
    rw [readValue, hskip]
    change (readText (s.toList.flatMap escapeChar ++ ['"'])).map _ = _
    rw [readText_quoted]
    rfl
  rw [toText, quoted, ofText, String.toList_ofList, hread]
  rfl

end ConfidentialTx.Json
