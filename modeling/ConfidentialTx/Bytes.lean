namespace ConfidentialTx

abbrev Bytes := List UInt8

namespace Bytes

def bigEndian : Nat → Nat → Bytes
  | 0, _ => []
  | count + 1, n => UInt8.ofNat (n >>> (8 * count)) :: bigEndian count n

def toNat (bs : Bytes) : Nat :=
  bs.foldl (fun n b ↦ 256 * n + b.toNat) 0

def xor (a b : Bytes) : Bytes :=
  List.zipWith (· ^^^ ·) a b

/-- The first `count` bytes, with zeros in place of those that are missing. -/
def padTake (count : Nat) (bs : Bytes) : Bytes :=
  (bs ++ List.replicate count 0).take count

@[simp] theorem length_bigEndian (count n : Nat) : (bigEndian count n).length = count := by
  induction count with
  | zero => rfl
  | succ count ih => simp [bigEndian, ih]

@[simp] theorem length_padTake (count : Nat) (bs : Bytes) : (padTake count bs).length = count := by
  simp [padTake]

theorem padTake_length (bs : Bytes) : padTake bs.length bs = bs := by
  simp [padTake]

theorem foldl_digits (bs : Bytes) (m : Nat) :
    bs.foldl (fun n b ↦ 256 * n + b.toNat) m = Nat.pow 256 bs.length * m + toNat bs := by
  simp only [Nat.pow_eq]
  induction bs generalizing m with
  | nil => simp [toNat]
  | cons b bs ih =>
    have h := ih (256 * 0 + b.toNat)
    rw [toNat, List.foldl_cons, List.foldl_cons, ih, h, List.length_cons, Nat.pow_succ]
    simp [Nat.mul_add, Nat.mul_assoc, Nat.add_assoc]

@[simp] theorem toNat_nil : toNat [] = 0 := rfl

theorem toNat_cons (b : UInt8) (bs : Bytes) :
    toNat (b :: bs) = Nat.pow 256 bs.length * b.toNat + toNat bs := by
  have h := foldl_digits bs (256 * 0 + b.toNat)
  simpa [toNat] using h

theorem toNat_lt (bs : Bytes) : toNat bs < Nat.pow 256 bs.length := by
  simp only [Nat.pow_eq]
  induction bs with
  | nil => simp
  | cons b bs ih =>
    rw [toNat_cons, List.length_cons, Nat.pow_eq, Nat.pow_succ]
    have hb : b.toNat ≤ 255 := by have := b.toNat_lt; omega
    have := Nat.mul_le_mul_left (256 ^ bs.length) hb
    omega

theorem toNat_bigEndian (count n : Nat) :
    toNat (bigEndian count n) = n % Nat.pow 256 count := by
  simp only [Nat.pow_eq]
  induction count with
  | zero => simp [bigEndian, Nat.mod_one]
  | succ count ih =>
    have hshift : n >>> (8 * count) = n / 256 ^ count := by
      rw [Nat.shiftRight_eq_div_pow, Nat.pow_mul]
    rw [bigEndian, toNat_cons, length_bigEndian, ih, hshift, Nat.pow_eq, Nat.pow_succ, Nat.mod_mul]
    simp [UInt8.toNat_ofNat', Nat.add_comm]

theorem toNat_injective {a b : Bytes} (hlen : a.length = b.length) (h : toNat a = toNat b) :
    a = b := by
  induction a generalizing b with
  | nil => cases b with
    | nil => rfl
    | cons => simp at hlen
  | cons x a ih => cases b with
    | nil => simp at hlen
    | cons y b =>
      simp only [List.length_cons, Nat.add_right_cancel_iff] at hlen
      rw [toNat_cons, toNat_cons, hlen] at h
      have ha := hlen ▸ toNat_lt a
      have hb := toNat_lt b
      simp only [Nat.pow_eq] at h ha hb
      have hpos : 0 < 256 ^ b.length := Nat.pow_pos (by decide)
      have hxy : x.toNat = y.toNat := by
        have := congrArg (· / 256 ^ b.length) h
        simpa [Nat.mul_add_div hpos, Nat.div_eq_of_lt ha, Nat.div_eq_of_lt hb] using this
      rw [hxy] at h
      rw [UInt8.toNat_inj.mp hxy, ih hlen (by omega)]

theorem bigEndian_toNat (bs : Bytes) : bigEndian bs.length (toNat bs) = bs := by
  apply toNat_injective (by simp)
  rw [toNat_bigEndian, Nat.mod_eq_of_lt (toNat_lt bs)]

end Bytes

@[ext] structure FixedBytes (size : Nat) where
  toList : Bytes
  length_toList : toList.length = size
  deriving DecidableEq

namespace FixedBytes

variable {size : Nat}

def ofList? (bs : Bytes) : Option (FixedBytes size) :=
  if h : bs.length = size then some ⟨bs, h⟩ else none

def fit (bs : Bytes) : FixedBytes size :=
  ⟨Bytes.padTake size bs, Bytes.length_padTake size bs⟩

def zero : FixedBytes size :=
  ⟨List.replicate size 0, List.length_replicate⟩

def ofNat (n : Nat) : FixedBytes size :=
  ⟨Bytes.bigEndian size n, Bytes.length_bigEndian size n⟩

def toNat (b : FixedBytes size) : Nat :=
  b.toList.toNat

/-- Byte order: strings of one length compare as the numbers that they write. -/
def ble (a b : FixedBytes size) : Bool :=
  a.toNat ≤ b.toNat

instance : Inhabited (FixedBytes size) := ⟨zero⟩

theorem ofList?_toList (b : FixedBytes size) : ofList? b.toList = some b := by
  simp [ofList?, b.length_toList]

theorem ofList?_eq_some_iff {bs : Bytes} {b : FixedBytes size} :
    ofList? bs = some b ↔ b.toList = bs := by
  constructor
  · intro h
    unfold ofList? at h
    split at h
    · cases h; rfl
    · cases h
  · rintro rfl
    exact ofList?_toList b

@[simp] theorem fit_toList (b : FixedBytes size) : fit b.toList = b := by
  ext1
  have h := Bytes.padTake_length b.toList
  rwa [b.length_toList] at h

theorem toList_fit {bs : Bytes} (h : bs.length = size) :
    (fit bs : FixedBytes size).toList = bs := by
  subst h
  exact Bytes.padTake_length bs

theorem toNat_lt (b : FixedBytes size) : b.toNat < Nat.pow 256 size := by
  simpa [toNat, b.length_toList] using Bytes.toNat_lt b.toList

@[simp] theorem ofNat_toNat (b : FixedBytes size) : ofNat b.toNat = b := by
  ext1
  have h := Bytes.bigEndian_toNat b.toList
  rwa [b.length_toList] at h

theorem toNat_ofNat (n : Nat) : (ofNat n : FixedBytes size).toNat = n % Nat.pow 256 size :=
  Bytes.toNat_bigEndian size n

end FixedBytes

end ConfidentialTx
