import Mathlib
import ConfidentialTx.RangeProof.Verify
import ConfidentialTx.Proofs.Commitment.Encoding

namespace ConfidentialTx.RangeProof

def packByte (bits : List Bool) : UInt8 :=
  bits.foldr (fun bit byte ↦ (byte <<< 1) ||| (if bit then 1 else 0)) 0

theorem toNat_shift_or {byte : UInt8} (bit : Bool) (h : byte.toNat < 128) :
    ((byte <<< 1) ||| (if bit then 1 else 0)).toNat = 2 * byte.toNat + bit.toNat := by
  have hshift : (byte <<< 1).toNat = 2 * byte.toNat := by
    rw [UInt8.toNat_shiftLeft]
    change byte.toNat <<< 1 % 2 ^ 8 = _
    rw [Nat.shiftLeft_eq, Nat.mod_eq_of_lt (by omega)]
    omega
  rw [UInt8.toNat_or, hshift]
  cases bit with
  | false => simp
  | true =>
    have hor := Nat.two_pow_add_eq_or_of_lt (i := 1) (b := 1) (by decide) byte.toNat
    simp only [pow_one] at hor
    exact hor.symm

theorem toNat_packByte_lt {bits : List Bool} (h : bits.length ≤ 8) :
    (packByte bits).toNat < 2 ^ bits.length := by
  induction bits with
  | nil => decide
  | cons bit bits ih =>
    rw [List.length_cons] at h
    have hlt := ih (by omega)
    have hpow : 2 ^ bits.length ≤ 2 ^ 7 := Nat.pow_le_pow_right (by decide) (by omega)
    rw [packByte, List.foldr_cons, ← packByte, toNat_shift_or bit (by omega), List.length_cons,
      pow_succ]
    have := bit.toNat_le
    omega

theorem testBit_packByte {bits : List Bool} (h : bits.length ≤ 8) (i : Nat) :
    (packByte bits).toNat.testBit i = bits.getD i false := by
  induction bits generalizing i with
  | nil => simp [packByte]
  | cons bit bits ih =>
    rw [List.length_cons] at h
    have hlength : bits.length ≤ 8 := by omega
    have hlt := toNat_packByte_lt hlength
    have hpow : 2 ^ bits.length ≤ 2 ^ 7 := Nat.pow_le_pow_right (by decide) (by omega)
    rw [packByte, List.foldr_cons, ← packByte, toNat_shift_or bit (by omega)]
    cases i with
    | zero => cases bit <;> simp [Nat.testBit_zero]
    | succ i =>
      rw [Nat.testBit_succ, List.getD_cons_succ, ← ih (by omega)]
      congr 1
      have := bit.toNat_le
      omega

def byteBits (byte : UInt8) : List Bool := (List.range 8).map fun i ↦ byte.toNat.testBit i

theorem byteBits_packByte (bits : List Bool) :
    byteBits (packByte (bits.take 8)) = (List.range 8).map fun i ↦ bits.getD i false := by
  refine List.map_congr_left fun i hi ↦ ?_
  rw [testBit_packByte (List.length_take_le 8 bits), List.getD_eq_getElem?_getD,
    List.getElem?_take_of_lt (List.mem_range.mp hi), ← List.getD_eq_getElem?_getD]

def packBits (count : Nat) (bits : List Bool) : Bytes :=
  (List.range count).map fun i ↦ packByte ((bits.drop (8 * i)).take 8)

theorem flatMap_byteBits_packBits (count : Nat) (bits : List Bool) :
    (packBits count bits).flatMap byteBits =
      (List.range (8 * count)).map fun i ↦ bits.getD i false := by
  induction count generalizing bits with
  | zero => rfl
  | succ count ih =>
    have hrest : (List.range count).map (fun i ↦ packByte ((bits.drop (8 * (i + 1))).take 8)) =
        packBits count (bits.drop 8) := by
      refine List.map_congr_left fun i _ ↦ ?_
      rw [List.drop_drop, Nat.mul_add, Nat.add_comm (8 * i)]
    rw [packBits, List.range_succ_eq_map, List.map_cons, List.map_map, List.flatMap_cons]
    change byteBits _ ++ ((List.range count).map
      (fun i ↦ packByte ((bits.drop (8 * (i + 1))).take 8))).flatMap byteBits = _
    rw [hrest, ih, Nat.mul_zero, List.drop_zero, byteBits_packByte, Nat.mul_add, Nat.mul_one,
      Nat.add_comm (8 * count), List.range_add, List.map_append, List.map_map]
    refine congrArg₂ (· ++ ·) rfl (List.map_congr_left fun i _ ↦ ?_)
    rw [Function.comp_apply, List.getD_eq_getElem?_getD, List.getD_eq_getElem?_getD,
      List.getElem?_drop]

/-- The bit that tells which of the two points with a first coordinate is meant. -/
def signBit : Point → Bool
  | .infinity => false
  | .affine _ y => !y.isSquare

def acrossBytes (p : Point) : Bytes := (pointBytes p).drop 1

theorem packSigns_eq (count : Nat) (points : List Point) :
    packSigns count points = packBits ((count + 7) / 8) (points.map signBit) := by
  have hhead : (points.map fun p ↦ (pointBytes p).headD 0) =
      (points.map signBit).map fun bit ↦ if bit then (1 : UInt8) else 0 := by
    rw [List.map_map]
    refine List.map_congr_left fun p _ ↦ ?_
    cases p with
    | infinity => rfl
    | affine x y => cases hy : y.isSquare <;> simp [pointBytes, signBit, hy]
  refine List.map_congr_left fun i _ ↦ ?_
  simp only [hhead, packByte, ← List.map_drop, ← List.map_take, List.foldr_map]

theorem length_packSigns (count : Nat) (points : List Point) :
    (packSigns count points).length = (count + 7) / 8 := by
  rw [packSigns_eq, packBits, List.length_map, List.length_range]

theorem length_flatten_acrossBytes {points : List Point} (h : ∀ p ∈ points, p ≠ 0) :
    (points.map acrossBytes).flatten.length = 32 * points.length := by
  induction points with
  | nil => rfl
  | cons p points ih =>
    obtain ⟨hne, hpoints⟩ := List.forall_mem_cons.mp h
    have hp : (acrossBytes p).length = 32 := by
      cases p with
      | infinity => exact absurd rfl hne
      | affine x y => exact x.toBytes.length_toList
    rw [List.map_cons, List.flatten_cons, List.length_append, ih hpoints, hp, List.length_cons]
    omega

theorem length_flatMap_toBytes (ss : List Scalar) :
    (ss.flatMap fun s ↦ s.toBytes.toList).length = 32 * ss.length := by
  induction ss with
  | nil => rfl
  | cons s ss ih =>
    rw [List.flatMap_cons, List.length_append, ih, s.toBytes.length_toList, List.length_cons]
    omega

namespace Parts

theorem unpackSigns_packBits {count : Nat} {bits : List Bool} (h : bits.length ≤ 8 * count) :
    unpackSigns bits.length (packBits count bits) = some bits := by
  have hbits := flatMap_byteBits_packBits count bits
  have htake : ((List.range (8 * count)).map fun i ↦ bits.getD i false).take bits.length = bits := by
    refine List.ext_getElem (by simpa using h) fun i hi hi' ↦ ?_
    simp [List.getElem?_eq_getElem hi']
  have hdrop : (((List.range (8 * count)).map fun i ↦ bits.getD i false).drop bits.length).any id =
      false := by
    rw [List.any_eq_false]
    intro b hb
    obtain ⟨i, hi, rfl⟩ := List.mem_iff_getElem.mp hb
    simp
  change (if (((packBits count bits).flatMap byteBits).drop bits.length).any id then none
    else some (((packBits count bits).flatMap byteBits).take bits.length)) = _
  rw [hbits, hdrop, htake]
  rfl

theorem split?_append {count : Nat} {front : Bytes} (rest : Bytes) (h : front.length = count) :
    split? count (front ++ rest) = some (front, rest) := by
  subst h
  simp [split?]

theorem takePoints_append {points : List Point} (h : ∀ p ∈ points, p ≠ 0 ∧ p.IsOnCurve)
    (rest : Bytes) :
    takePoints (points.map signBit) ((points.map acrossBytes).flatten ++ rest) =
      some (points.map fun p ↦ (RangeProof.pointBytes p, p), rest) := by
  induction points with
  | nil => rfl
  | cons p points ih =>
    obtain ⟨⟨hne, hon⟩, hpoints⟩ := List.forall_mem_cons.mp h
    cases p with
    | infinity => exact absurd rfl hne
    | affine x y =>
      have hread := Point.exists_ofSquareY? hon
      have hx : (acrossBytes (.affine x y)) = x.toBytes.toList := rfl
      simp only [List.map_cons, List.flatten_cons, List.append_assoc, takePoints, hx,
        split?_append _ x.toBytes.length_toList, FixedBytes.fit_toList, Field.ofBytes?_toBytes,
        Option.bind_eq_bind, Option.bind_some, ih hpoints]
      obtain ⟨q, hq, hqp⟩ := Option.map_eq_some_iff.mp hread
      rw [hq, Option.bind_some]
      cases hy : y.isSquare with
      | false =>
        have hq' : -q = .affine x y := by simpa [hy] using hqp
        simp [signBit, RangeProof.pointBytes, hy, hq']
      | true =>
        have hq' : q = .affine x y := by simpa [hy] using hqp
        simp [signBit, RangeProof.pointBytes, hy, hq']

theorem takeScalars_append (ss : List Scalar) (rest : Bytes) :
    takeScalars ss.length ((ss.flatMap fun s ↦ s.toBytes.toList) ++ rest) = some (ss, rest) := by
  induction ss with
  | nil => rfl
  | cons s ss ih =>
    simp only [List.length_cons, List.flatMap_cons, List.append_assoc, takeScalars,
      split?_append _ s.toBytes.length_toList, FixedBytes.fit_toList, Scalar.ofBytes?_toBytes,
      Option.bind_eq_bind, Option.bind_some, ih]
    rfl

theorem takeRings_append (rings : List (List Scalar)) (rest : Bytes) :
    takeRings (rings.map List.length)
        ((rings.flatten.flatMap fun s ↦ s.toBytes.toList) ++ rest) = some (rings, rest) := by
  induction rings with
  | nil => rfl
  | cons ring rings ih =>
    simp only [List.map_cons, List.flatten_cons, List.flatMap_append, List.append_assoc, takeRings,
      takeScalars_append, Option.bind_eq_bind, Option.bind_some, ih]
    rfl

/-- A proof is read back as it was put together. -/
theorem ofBytes?_written {header : Header}
    (hdecode : ∀ rest, Header.decode (header.encode ++ rest) = some (header, rest))
    {points : List Point} (hpoints : ∀ p ∈ points, p ≠ 0 ∧ p.IsOnCurve)
    (hcount : points.length = header.ringSizes.length - 1) (start : FixedBytes 32)
    {responses : List (List Scalar)} (hsizes : responses.map List.length = header.ringSizes) :
    ofBytes? (header.encode ++ packSigns (header.ringSizes.length - 1) points ++
        (points.map acrossBytes).flatten ++ start.toList ++
        responses.flatten.flatMap fun s ↦ s.toBytes.toList) =
      some {
        header
        headerBytes := header.encode
        pointBytes := points.map RangeProof.pointBytes
        points
        start
        responses } := by
  have hsigns := length_packSigns (header.ringSizes.length - 1) points
  have hunpack : unpackSigns (header.ringSizes.length - 1)
      (packSigns (header.ringSizes.length - 1) points) = some (points.map signBit) := by
    have hbits : (points.map signBit).length ≤ 8 * ((header.ringSizes.length - 1 + 7) / 8) := by
      rw [List.length_map]
      omega
    have h := unpackSigns_packBits hbits
    rw [List.length_map, hcount] at h
    rw [packSigns_eq]
    exact h
  have hrings := takeRings_append responses []
  rw [hsizes, List.append_nil] at hrings
  simp only [ofBytes?, List.append_assoc, hdecode, Option.bind_eq_bind, Option.bind_some,
    split?_append _ hsigns, hunpack, takePoints_append hpoints,
    split?_append _ start.length_toList, hrings]
  simp [Function.comp_def]

end Parts

end ConfidentialTx.RangeProof
