import Mathlib
import ConfidentialTx.Hex

namespace ConfidentialTx.Hex

def digits : List Char :=
  "0123456789abcdefABCDEF".toList

/-- Text that consists of digits. -/
def IsText (s : String) : Prop :=
  ∀ c ∈ s.toList, c ∈ digits

def IsDigit (b : UInt8) : Prop :=
  Char.ofNat b.toNat ∈ digits

instance : DecidablePred IsText := fun s ↦ List.decidableBAll (· ∈ digits) s.toList

instance : DecidablePred IsDigit :=
  fun b ↦ inferInstanceAs (Decidable (Char.ofNat b.toNat ∈ digits))

def pair (b : UInt8) : List Char :=
  [digit (b.toNat / 16), digit (b.toNat % 16)]

def lowerDigit (b : UInt8) : Char :=
  (Char.ofNat b.toNat).toLower

theorem encode_eq (bs : Bytes) : encode bs = String.ofList (bs.flatMap pair) := rfl

/-- What the bytes are worth, from the table of all of them. -/
theorem digitValue?_table (b : UInt8) : ((digitValue? b).isSome = true ↔ IsDigit b) ∧
    (∀ n ∈ digitValue? b, n < 16 ∧ digit n = lowerDigit b) ∧ (IsDigit b → b.toNat < 128) := by
  revert b
  decide +kernel

theorem isSome_digitValue?_iff (b : UInt8) : (digitValue? b).isSome = true ↔ IsDigit b :=
  (digitValue?_table b).1

theorem digit_of_digitValue? (b : UInt8) :
    ∀ n ∈ digitValue? b, n < 16 ∧ digit n = lowerDigit b :=
  (digitValue?_table b).2.1

theorem toNat_lt_of_isDigit (b : UInt8) : IsDigit b → b.toNat < 128 :=
  (digitValue?_table b).2.2

theorem digitValue?_digit : ∀ n < 16, digitValue? (digit n).toUInt8 = some n := by
  decide

theorem digit_mem_digits : ∀ n < 16, digit n ∈ digits := by
  decide

theorem byte_of_mem_digits : ∀ c ∈ digits,
    String.utf8EncodeChar c = [c.toUInt8] ∧ IsDigit c.toUInt8 ∧ lowerDigit c.toUInt8 = c.toLower :=
  List.all_iff_forall_prop.mp (by decide)

theorem exists_digitValue? {b : UInt8} (h : IsDigit b) :
    ∃ n, digitValue? b = some n ∧ n < 16 ∧ digit n = lowerDigit b := by
  obtain ⟨n, hn⟩ := Option.isSome_iff_exists.mp ((isSome_digitValue?_iff b).mpr h)
  exact ⟨n, hn, digit_of_digitValue? b n hn⟩

theorem digitValue?_of_not {b : UInt8} (h : ¬IsDigit b) : digitValue? b = none := by
  rwa [← isSome_digitValue?_iff, Option.not_isSome_iff_eq_none] at h

theorem pair_ofNat {high low : Nat} (hhigh : high < 16) (hlow : low < 16) :
    pair (UInt8.ofNat (16 * high + low)) = [digit high, digit low] := by
  have hvalue : (UInt8.ofNat (16 * high + low)).toNat = 16 * high + low :=
    UInt8.toNat_ofNat_of_lt' (show 16 * high + low < 256 by omega)
  have hdiv : (16 * high + low) / 16 = high := by omega
  have hmod : (16 * high + low) % 16 = low := by omega
  rw [pair, hvalue, hdiv, hmod]

theorem decodePairs_of_digits {bs : Bytes} (heven : bs.length % 2 = 0) (h : ∀ b ∈ bs, IsDigit b)
    (index : Nat) :
    ∃ out, decodePairs index bs = .ok out ∧ out.flatMap pair = bs.map lowerDigit := by
  induction bs using List.twoStepInduction generalizing index with
  | nil => exact ⟨[], rfl, rfl⟩
  | singleton b => cases heven
  | cons_cons hi lo bs ih _ =>
    obtain ⟨hhi, h⟩ := List.forall_mem_cons.mp h
    obtain ⟨hlo, h⟩ := List.forall_mem_cons.mp h
    obtain ⟨high, hhigh, hhigh_lt, hhigh_eq⟩ := exists_digitValue? hhi
    obtain ⟨low, hlow, hlow_lt, hlow_eq⟩ := exists_digitValue? hlo
    have hrest : bs.length % 2 = 0 := by
      simp only [List.length_cons] at heven
      omega
    obtain ⟨out, hout, hpairs⟩ := ih hrest h (index + 2)
    refine ⟨UInt8.ofNat (16 * high + low) :: out, ?_, ?_⟩
    · simp only [decodePairs, hhigh, hlow, hout]
      rfl
    · rw [List.flatMap_cons, pair_ofNat hhigh_lt hlow_lt, hpairs, hhigh_eq, hlow_eq]
      rfl

theorem decodePairs_of_not_digit {front back : Bytes} {b : UInt8}
    (heven : (front ++ b :: back).length % 2 = 0) (hfront : ∀ a ∈ front, IsDigit a)
    (hb : ¬IsDigit b) (index : Nat) :
    decodePairs index (front ++ b :: back) =
      .error (.invalidCharacter b (index + front.length)) := by
  induction front using List.twoStepInduction generalizing index with
  | nil =>
    cases back with
    | nil => cases heven
    | cons lo back =>
      simp only [List.nil_append, decodePairs, digitValue?_of_not hb, List.length_nil, Nat.add_zero]
  | singleton hi =>
    obtain ⟨high, hhigh, -⟩ := exists_digitValue? (hfront hi List.mem_cons_self)
    simp only [List.cons_append, List.nil_append, decodePairs, hhigh, digitValue?_of_not hb,
      List.length_singleton]
  | cons_cons hi lo front ih _ =>
    obtain ⟨hhi, hfront⟩ := List.forall_mem_cons.mp hfront
    obtain ⟨hlo, hfront⟩ := List.forall_mem_cons.mp hfront
    obtain ⟨high, hhigh, -⟩ := exists_digitValue? hhi
    obtain ⟨low, hlow, -⟩ := exists_digitValue? hlo
    have hrest : (front ++ b :: back).length % 2 = 0 := by
      simp only [List.cons_append, List.length_cons] at heven
      omega
    simp only [List.cons_append, decodePairs, hhigh, hlow, ih hrest hfront, List.length_cons]
    rw [Nat.add_right_comm, Nat.add_assoc]
    rfl

theorem decodePairs_written (bs : Bytes) (index : Nat) :
    decodePairs index ((bs.flatMap pair).map Char.toUInt8) = .ok bs := by
  induction bs generalizing index with
  | nil => rfl
  | cons b bs ih =>
    have hlt := b.toNat_lt
    have hhigh := digitValue?_digit (b.toNat / 16) (by omega)
    have hlow := digitValue?_digit (b.toNat % 16) (by omega)
    simp only [List.flatMap_cons, pair, List.cons_append, List.nil_append, List.map_cons,
      decodePairs, hhigh, hlow, ih, Nat.div_add_mod, UInt8.ofNat_toNat]
    rfl

theorem textBytes_eq (s : String) : textBytes s = s.toList.flatMap String.utf8EncodeChar := by
  have hbytes : s.toByteArray = s.toList.utf8Encode := by
    rw [← String.toByteArray_ofList, String.ofList_toList]
  rw [textBytes, String.toUTF8_eq_toByteArray, hbytes]
  exact List.toList_data_toByteArray

theorem length_textBytes (s : String) : (textBytes s).length = s.utf8ByteSize := rfl

theorem textBytes_of_isText {s : String} (h : IsText s) :
    textBytes s = s.toList.map Char.toUInt8 := by
  rw [textBytes_eq, List.map_eq_flatMap]
  exact List.flatMap_congr fun c hc ↦ (byte_of_mem_digits c (h c hc)).1

/-- The bytes of other characters than those of one byte are beyond the digits. -/
theorem mem_digits_of_bytes {c : Char} (h : ∀ b ∈ String.utf8EncodeChar c, IsDigit b) :
    c ∈ digits := by
  have hlow : c.val.toNat ≤ 127 := by
    by_contra hlow
    have hhead : ∃ b ∈ String.utf8EncodeChar c, 128 ≤ b.toNat := by
      unfold String.utf8EncodeChar
      simp only [if_neg hlow]
      split
      · refine ⟨_, List.mem_cons_self, ?_⟩
        rw [UInt8.toNat_ofNat']
        omega
      · split
        · refine ⟨_, List.mem_cons_self, ?_⟩
          rw [UInt8.toNat_ofNat']
          omega
        · refine ⟨_, List.mem_cons_self, ?_⟩
          rw [UInt8.toNat_ofNat']
          omega
    obtain ⟨b, hb, hle⟩ := hhead
    exact absurd (toNat_lt_of_isDigit b (h b hb)) (Nat.not_lt_of_le hle)
  have hsize : c.utf8Size = 1 := Char.utf8Size_eq_one_iff.mpr (UInt32.le_iff_toNat_le.mpr hlow)
  rw [String.utf8EncodeChar_eq_singleton hsize] at h
  have hdigit := h _ List.mem_cons_self
  have hvalue : c.val.toUInt8.toNat = c.toNat := by
    rw [UInt32.toNat_toUInt8]
    exact Nat.mod_eq_of_lt (by omega)
  rwa [IsDigit, hvalue, Char.ofNat_toNat] at hdigit

theorem isText_iff {s : String} : IsText s ↔ ∀ b ∈ textBytes s, IsDigit b := by
  constructor
  · intro h b hb
    rw [textBytes_of_isText h] at hb
    obtain ⟨c, hc, rfl⟩ := List.mem_map.mp hb
    exact (byte_of_mem_digits c (h c hc)).2.1
  · intro h c hc
    apply mem_digits_of_bytes
    intro b hb
    apply h
    rw [textBytes_eq]
    exact List.mem_flatMap.mpr ⟨c, hc, hb⟩

theorem map_lowerDigit_textBytes {s : String} (h : IsText s) :
    (textBytes s).map lowerDigit = s.toLower.toList := by
  rw [textBytes_of_isText h, List.map_map, String.toLower, String.toList_map]
  exact List.map_congr_left fun c hc ↦ (byte_of_mem_digits c (h c hc)).2.2

theorem isText_encode (bs : Bytes) : IsText (encode bs) := by
  intro c hc
  rw [encode_eq, String.toList_ofList] at hc
  obtain ⟨b, -, hc⟩ := List.mem_flatMap.mp hc
  have hlt := b.toNat_lt
  simp only [pair, List.mem_cons, List.not_mem_nil, or_false] at hc
  obtain rfl | rfl := hc
  · exact digit_mem_digits _ (by omega)
  · exact digit_mem_digits _ (by omega)

theorem textBytes_encode (bs : Bytes) :
    textBytes (encode bs) = (bs.flatMap pair).map Char.toUInt8 := by
  rw [textBytes_of_isText (isText_encode bs), encode_eq, String.toList_ofList]

theorem length_flatMap_pair (bs : Bytes) : (bs.flatMap pair).length = 2 * bs.length := by
  induction bs with
  | nil => rfl
  | cons b bs ih =>
    rw [List.flatMap_cons, List.length_append, ih, List.length_cons, Nat.mul_succ, Nat.add_comm]
    rfl

variable {s : String} {out : Bytes} {b : UInt8} {index : Nat}

/-- The first byte that is no digit, and its position. -/
def FirstBad (s : String) (b : UInt8) (index : Nat) : Prop :=
  ∃ front back, textBytes s = front ++ b :: back ∧ front.length = index ∧
    (∀ a ∈ front, IsDigit a) ∧ ¬IsDigit b

theorem exists_firstBad (h : ¬IsText s) : ∃ b index, FirstBad s b index := by
  cases hfind : (textBytes s).find? fun b ↦ !decide (IsDigit b) with
  | none =>
    rw [List.find?_eq_none] at hfind
    exact absurd (isText_iff.mpr fun b hb ↦ by simpa using hfind b hb) h
  | some b =>
    obtain ⟨hb, front, back, hsplit, hfront⟩ := List.find?_eq_some_iff_append.mp hfind
    exact ⟨b, front.length, front, back, hsplit, rfl, fun a ha ↦ by simpa using hfront a ha,
      by simpa using hb⟩

theorem decode_of_odd (h : s.utf8ByteSize % 2 = 1) : decode s = .error .oddLength :=
  if_pos h

theorem decode_of_even (h : s.utf8ByteSize % 2 = 0) : decode s = decodePairs 0 (textBytes s) :=
  if_neg (by rw [length_textBytes]; omega)

theorem decode_of_isText (heven : s.utf8ByteSize % 2 = 0) (h : IsText s) :
    ∃ out, decode s = .ok out ∧ out.flatMap pair = s.toLower.toList := by
  rw [decode_of_even heven, ← map_lowerDigit_textBytes h]
  exact decodePairs_of_digits heven (isText_iff.mp h) 0

theorem decode_of_firstBad (heven : s.utf8ByteSize % 2 = 0) (h : FirstBad s b index) :
    decode s = .error (.invalidCharacter b index) := by
  obtain ⟨front, back, hsplit, rfl, hfront, hb⟩ := h
  rw [← length_textBytes, hsplit] at heven
  rw [decode_of_even (by rwa [← length_textBytes, hsplit]), hsplit,
    decodePairs_of_not_digit heven hfront hb, Nat.zero_add]

theorem exists_decode_iff :
    (∃ out, decode s = .ok out) ↔ s.utf8ByteSize % 2 = 0 ∧ IsText s := by
  constructor
  · rintro ⟨out, hout⟩
    have heven : s.utf8ByteSize % 2 = 0 := by
      by_contra hodd
      rw [decode_of_odd (by omega)] at hout
      cases hout
    refine ⟨heven, ?_⟩
    by_contra htext
    obtain ⟨b, index, hbad⟩ := exists_firstBad htext
    rw [decode_of_firstBad heven hbad] at hout
    cases hout
  · rintro ⟨heven, htext⟩
    obtain ⟨out, hout, -⟩ := decode_of_isText heven htext
    exact ⟨out, hout⟩

theorem flatMap_pair_of_decode (h : decode s = .ok out) :
    out.flatMap pair = s.toLower.toList := by
  obtain ⟨heven, htext⟩ := exists_decode_iff.mp ⟨out, h⟩
  obtain ⟨out', hout', hpairs⟩ := decode_of_isText heven htext
  rw [h] at hout'
  cases hout'
  exact hpairs

theorem encode_of_decode (h : decode s = .ok out) : encode out = s.toLower := by
  rw [encode_eq, flatMap_pair_of_decode h, String.ofList_toList]

theorem length_of_decode (h : decode s = .ok out) : s.length = 2 * out.length := by
  have hlength := congrArg List.length (flatMap_pair_of_decode h)
  rw [length_flatMap_pair, String.toLower, String.toList_map, List.length_map] at hlength
  exact hlength.symm

theorem decode_encode (bs : Bytes) : decode (encode bs) = .ok bs := by
  have heven : (encode bs).utf8ByteSize % 2 = 0 := by
    rw [← length_textBytes, textBytes_encode, List.length_map, length_flatMap_pair]
    exact Nat.mul_mod_right 2 bs.length
  rw [decode_of_even heven, textBytes_encode]
  exact decodePairs_written bs 0

theorem utf8ByteSize_of_isText (h : IsText s) : s.utf8ByteSize = s.length := by
  rw [← length_textBytes, textBytes_of_isText h, List.length_map, String.length_toList]

theorem utf8ByteSize_of_decode (h : decode s = .ok out) : s.utf8ByteSize = 2 * out.length := by
  rw [utf8ByteSize_of_isText (exists_decode_iff.mp ⟨out, h⟩).2, length_of_decode h]

theorem decodeFixed_eq_ok_iff {size : Nat} {bytes : FixedBytes size} :
    decodeFixed size s = .ok bytes ↔ decode s = .ok bytes.toList := by
  constructor
  · intro h
    unfold decodeFixed at h
    split at h
    · cases h
    · split at h
      · cases h
      · rename_i hodd hsize
        rw [not_not, length_textBytes] at hsize
        rw [← decode_of_even (by omega)] at h
        cases hdecode : decode s with
        | error e =>
          rw [hdecode] at h
          cases h
        | ok out =>
          rw [hdecode] at h
          cases h
          have hlength : out.length = size := by
            have := utf8ByteSize_of_decode hdecode
            omega
          rw [FixedBytes.toList_fit hlength]
  · intro h
    have hsize : (textBytes s).length = 2 * size := by
      rw [length_textBytes, utf8ByteSize_of_decode h, bytes.length_toList]
    rw [decodeFixed, if_neg (by omega), if_neg (not_not_intro hsize), ← decode_of_even
      (by rw [← length_textBytes]; omega), h, Except.map, FixedBytes.fit_toList]

theorem exists_decodeFixed_iff {size : Nat} :
    (∃ bytes : FixedBytes size, decodeFixed size s = .ok bytes) ↔
      s.length = 2 * size ∧ IsText s := by
  constructor
  · rintro ⟨bytes, h⟩
    have hdecode := decodeFixed_eq_ok_iff.mp h
    refine ⟨?_, (exists_decode_iff.mp ⟨_, hdecode⟩).2⟩
    rw [length_of_decode hdecode, bytes.length_toList]
  · rintro ⟨hlength, htext⟩
    have hsize := utf8ByteSize_of_isText htext
    obtain ⟨out, hout⟩ := exists_decode_iff.mpr ⟨by omega, htext⟩
    have hout_length : out.length = size := by
      have := length_of_decode hout
      omega
    exact ⟨⟨out, hout_length⟩, decodeFixed_eq_ok_iff.mpr hout⟩

theorem decodeFixed_toHex {size : Nat} (bytes : FixedBytes size) :
    decodeFixed size bytes.toHex = .ok bytes :=
  decodeFixed_eq_ok_iff.mpr (decode_encode bytes.toList)

theorem toHex_of_decodeFixed {size : Nat} {bytes : FixedBytes size}
    (h : decodeFixed size s = .ok bytes) : bytes.toHex = s.toLower :=
  encode_of_decode (decodeFixed_eq_ok_iff.mp h)

theorem flatMap_pair_replicate (count : Nat) :
    (List.replicate count (0 : UInt8)).flatMap pair = List.replicate (2 * count) '0' := by
  induction count with
  | zero => rfl
  | succ count ih =>
    rw [List.replicate_succ, List.flatMap_cons, ih]
    rfl

theorem flatMap_pair_take (count : Nat) (bs : Bytes) :
    (bs.take count).flatMap pair = (bs.flatMap pair).take (2 * count) := by
  induction bs generalizing count with
  | nil => rw [List.take_nil, List.flatMap_nil, List.take_nil]
  | cons b bs ih =>
    cases count with
    | zero => rfl
    | succ count =>
      rw [List.take_succ_cons, List.flatMap_cons, List.flatMap_cons, ih]
      rfl

/-- The written form of a number of bytes is cut off or filled up with zeros. -/
theorem flatMap_pair_padTake (count : Nat) (bs : Bytes) :
    (Bytes.padTake count bs).flatMap pair =
      (bs.flatMap pair ++ List.replicate (2 * count) '0').take (2 * count) := by
  rw [Bytes.padTake, flatMap_pair_take, List.flatMap_append, flatMap_pair_replicate]

end ConfidentialTx.Hex
