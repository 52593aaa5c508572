import Mathlib
import ConfidentialTx.Hash.Blake2b

namespace ConfidentialTx.Blake2b

namespace Standard

abbrev Words (count : Nat) := Fin count → UInt64

instance neZero_sixteen : NeZero 16 := ⟨by decide⟩

def primes : Vector Nat 8 := #v[2, 3, 5, 7, 11, 13, 17, 19]

/-- The first 64 bits of the fractional parts of the square roots of the first eight primes. -/
def initial : Words 8 :=
  fun i ↦ UInt64.ofNat (primes.get i * 2 ^ 128).sqrt

/-- The orders in which ten rounds take the words of a block. -/
def rows : List (Vector (Fin 16) 16) :=
  [#v[0, 1, 2, 3, 4, 5, 6, 7, 8, 9, 10, 11, 12, 13, 14, 15],
    #v[14, 10, 4, 8, 9, 15, 13, 6, 1, 12, 0, 2, 11, 7, 5, 3],
    #v[11, 8, 12, 0, 5, 2, 15, 13, 10, 14, 3, 6, 7, 1, 9, 4],
    #v[7, 9, 3, 1, 13, 12, 11, 14, 2, 6, 5, 10, 4, 0, 15, 8],
    #v[9, 0, 5, 7, 2, 4, 10, 15, 14, 1, 11, 12, 6, 8, 3, 13],
    #v[2, 12, 6, 10, 0, 11, 8, 3, 4, 13, 7, 5, 15, 14, 1, 9],
    #v[12, 5, 1, 15, 14, 13, 4, 10, 0, 7, 6, 3, 9, 2, 8, 11],
    #v[13, 11, 7, 14, 12, 1, 3, 9, 5, 0, 15, 4, 8, 6, 2, 10],
    #v[6, 15, 14, 9, 11, 3, 0, 8, 12, 2, 13, 7, 1, 4, 10, 5],
    #v[10, 2, 8, 4, 7, 6, 1, 5, 15, 11, 9, 14, 3, 12, 13, 0]]

def schedule : List (Vector (Fin 16) 16) :=
  rows ++ rows.take 2

def rotate (x : UInt64) (n : Nat) : UInt64 :=
  ⟨x.toBitVec.rotateRight n⟩

def mixing (a b c d : Fin 16) (x y : UInt64) (v : Words 16) : Words 16 :=
  let v := Function.update v a (v a + v b + x)
  let v := Function.update v d (rotate (v d ^^^ v a) 32)
  let v := Function.update v c (v c + v d)
  let v := Function.update v b (rotate (v b ^^^ v c) 24)
  let v := Function.update v a (v a + v b + y)
  let v := Function.update v d (rotate (v d ^^^ v a) 16)
  let v := Function.update v c (v c + v d)
  Function.update v b (rotate (v b ^^^ v c) 63)

def mixingRound (m : Words 16) (s : Vector (Fin 16) 16) (v : Words 16) : Words 16 :=
  let v := mixing 0 4 8 12 (m (s.get 0)) (m (s.get 1)) v
  let v := mixing 1 5 9 13 (m (s.get 2)) (m (s.get 3)) v
  let v := mixing 2 6 10 14 (m (s.get 4)) (m (s.get 5)) v
  let v := mixing 3 7 11 15 (m (s.get 6)) (m (s.get 7)) v
  let v := mixing 0 5 10 15 (m (s.get 8)) (m (s.get 9)) v
  let v := mixing 1 6 11 12 (m (s.get 10)) (m (s.get 11)) v
  let v := mixing 2 7 8 13 (m (s.get 12)) (m (s.get 13)) v
  mixing 3 4 9 14 (m (s.get 14)) (m (s.get 15)) v

/-- The words that the rounds start from. The count takes two words, the lower half first. -/
def working (h : Words 8) (count : Nat) (last : Bool) : Words 16 :=
  let v : Words 16 := Fin.append h initial
  let v := Function.update v 12 (v 12 ^^^ UInt64.ofNat count)
  let v := Function.update v 13 (v 13 ^^^ UInt64.ofNat (count / 2 ^ 64))
  if last then Function.update v 14 (v 14 ^^^ 0xffffffffffffffff) else v

def compression (h : Words 8) (m : Words 16) (count : Nat) (last : Bool) : Words 8 :=
  let v := schedule.foldl (fun v s ↦ mixingRound m s v) (working h count last)
  fun i ↦ h i ^^^ v (i.castAdd 8) ^^^ v (i.natAdd 8)

def words (block : Bytes) : Words 16 :=
  fun i ↦ UInt64.ofNat (Nat.ofDigits 256 (((block.drop (8 * i)).take 8).map UInt8.toNat))

def toBytes (h : Words 8) : Bytes :=
  (List.finRange 8).flatMap fun i ↦ (List.range 8).map fun j ↦ UInt8.ofNat ((h i).toNat / 256 ^ j)

def fill (bs : Bytes) : Bytes :=
  bs ++ List.replicate (128 - bs.length) 0

def block (data : Bytes) (i : Nat) : Bytes :=
  fill ((data.drop (128 * i)).take 128)

/-- No data make one block too. -/
def blockCount (length : Nat) : Nat :=
  max 1 ((length + 127) / 128)

def start (size keySize : Nat) : Words 8 :=
  Function.update initial 0
    (initial 0 ^^^ 0x01010000 ^^^ UInt64.ofNat (keySize * 2 ^ 8) ^^^ UInt64.ofNat size)

/-- The chain after the first blocks, none of which is the last. -/
def before (h : Words 8) (data : Bytes) (count : Nat) : Words 8 :=
  (List.range count).foldl
    (fun h i ↦ compression h (words (block data i)) (128 * (i + 1)) false) h

def chain (h : Words 8) (data : Bytes) : Words 8 :=
  let last := blockCount data.length - 1
  compression (before h data last) (words (block data last)) data.length true

/-- The digest of a message of which a key, if there is one, makes the first block. -/
def digest (size : Nat) (key message : Bytes) : Bytes :=
  let data := if key = [] then message else fill key ++ message
  (toBytes (chain (start size key.length) data)).take size

theorem initial_eq : initial = initialVector.get := by
  have hroot (n w k : Nat) (hle : (w + k * 2 ^ 64) * (w + k * 2 ^ 64) ≤ n)
      (hlt : n < (w + k * 2 ^ 64 + 1) * (w + k * 2 ^ 64 + 1)) :
      UInt64.ofNat n.sqrt = UInt64.ofNat w := by
    rw [← Nat.eq_sqrt.mpr ⟨hle, hlt⟩]
    apply UInt64.toNat_inj.mp
    rw [UInt64.toNat_ofNat', UInt64.toNat_ofNat', Nat.add_mul_mod_self_right]
  funext i
  fin_cases i
  · exact hroot _ 0x6a09e667f3bcc908 1 (by decide) (by decide)
  · exact hroot _ 0xbb67ae8584caa73b 1 (by decide) (by decide)
  · exact hroot _ 0x3c6ef372fe94f82b 2 (by decide) (by decide)
  · exact hroot _ 0xa54ff53a5f1d36f1 2 (by decide) (by decide)
  · exact hroot _ 0x510e527fade682d1 3 (by decide) (by decide)
  · exact hroot _ 0x9b05688c2b3e6c1f 3 (by decide) (by decide)
  · exact hroot _ 0x1f83d9abfb41bd6b 4 (by decide) (by decide)
  · exact hroot _ 0x5be0cd19137e2179 4 (by decide) (by decide)

theorem permutations_eq : permutations = schedule := rfl

theorem update_twice {v : Words 16} {a b c d : Fin 16} {p q r s w x y z : UInt64}
    (hbc : b ≠ c) (hbd : b ≠ d) (hcd : c ≠ d) :
    Function.update (Function.update (Function.update (Function.update (Function.update
      (Function.update (Function.update (Function.update v a p) d q) c r) b s) a w) d z) c y) b x =
      Function.update (Function.update (Function.update (Function.update v a w) b x) c y) d z := by
  funext i
  simp only [Function.update_apply]
  grind

end Standard

open Standard

theorem get_set {count : Nat} (v : Vector UInt64 count) (k : Fin count) (x : UInt64) :
    (v.set k x).get = Function.update v.get k x := by
  funext i
  rw [Vector.get_eq_getElem, Vector.getElem_set, Function.update_apply, Vector.get_eq_getElem]
  simp only [Fin.ext_iff, eq_comm]

theorem get_append (h k : Chain) : ((h ++ k).cast rfl : Work).get = Fin.append h.get k.get := by
  funext i
  refine Fin.addCases (m := 8) (n := 8) (fun j ↦ ?_) (fun j ↦ ?_) i
  · rw [Fin.append_left]
    exact Vector.getElem_append_left j.isLt
  · have hj : 8 + j.val < 8 + 8 := Nat.add_lt_add_left j.isLt 8
    rw [Fin.append_right]
    refine (Vector.getElem_append_right hj (Nat.le_add_right 8 j)).trans ?_
    simp only [Nat.add_sub_cancel_left, Vector.get_eq_getElem]

theorem mix_eq (v : Work) {a b c d : Fin 16} (x y : UInt64) (hlane : [a, b, c, d].Nodup) :
    (mix v (a, b, c, d) x y).get = mixing a b c d x y v.get := by
  have h32 (x : UInt64) : rotate x 32 = rotateRight x 32 := rfl
  have h24 (x : UInt64) : rotate x 24 = rotateRight x 24 := rfl
  have h16 (x : UInt64) : rotate x 16 = rotateRight x 16 := rfl
  have h63 (x : UInt64) : rotate x 63 = rotateRight x 63 := rfl
  obtain ⟨⟨hab, hac, had⟩, ⟨hbc, hbd⟩, hcd⟩ :
      (a ≠ b ∧ a ≠ c ∧ a ≠ d) ∧ (b ≠ c ∧ b ≠ d) ∧ c ≠ d := by
    simpa using hlane
  -- The hasher writes each word once, when both its values are known.
  rw [mixing, update_twice hbc hbd hcd]
  simp only [mix, get_set, h32, h24, h16, h63, Function.update_self, Function.update_of_ne, hab,
    hab.symm, hac, hac.symm, had, had.symm, hbc, hbc.symm, hbd, hbd.symm, hcd, hcd.symm, ne_eq,
    not_false_eq_true, Fin.getElem_fin, Vector.get_eq_getElem]

theorem round_eq (m v : Work) (order : Vector (Fin 16) 16) :
    (round m v order).get = mixingRound m.get order v.get := by
  have hlanes : List.finRange 8 = [0, 1, 2, 3, 4, 5, 6, 7] := by decide
  rw [round, hlanes]
  simp only [List.foldl_cons, List.foldl_nil]
  iterate 8 rw [mix_eq _ _ _ (by decide)]
  rfl

theorem rounds_eq (m v : Work) :
    (permutations.foldl (round m) v).get =
      schedule.foldl (fun v s ↦ mixingRound m.get s v) v.get := by
  rw [permutations_eq]
  generalize schedule = rows
  symm
  apply List.foldl_hom
  intro v s
  exact (round_eq m v s).symm

theorem not_eq_xor (x : UInt64) : ~~~x = x ^^^ 0xffffffffffffffff :=
  UInt64.xor_neg_one.symm

theorem compress_eq (h : Chain) (count : Nat) (last : Bool) (block : Array UInt8) :
    (compress h count last block).get = compression h.get (blockWords block).get count last := by
  obtain ⟨v, hv, hcompress⟩ : ∃ v : Work, v.get = working h.get count last ∧
      compress h count last block = Vector.ofFn fun i ↦
        h[i] ^^^ (permutations.foldl (round (blockWords block)) v)[i.val] ^^^
          (permutations.foldl (round (blockWords block)) v)[i.val + 8] := by
    refine ⟨_, ?_, rfl⟩
    rw [working, initial_eq, ← get_append]
    simp only [← get_set, ← not_eq_xor]
    cases last <;> rfl
  rw [compression, ← hv, ← rounds_eq, hcompress]
  generalize permutations.foldl (round (blockWords block)) v = w
  funext i
  rw [Vector.get_eq_getElem, Vector.getElem_ofFn]
  simp only [Vector.get_eq_getElem, Fin.val_natAdd, Nat.add_comm 8]
  rfl

theorem shiftLeft_or_eq (n : Nat) (b : UInt8) :
    (UInt64.ofNat n <<< 8) ||| b.toUInt64 = UInt64.ofNat (b.toNat + 256 * n) := by
  have hlow : b.toNat % 2 ^ 64 = b.toNat := Nat.mod_eq_of_lt (b.toNat_lt.trans (by decide))
  apply UInt64.toNat_inj.mp
  calc ((UInt64.ofNat n <<< 8) ||| b.toUInt64).toNat
      = (n % 2 ^ 64) <<< 8 % 2 ^ 64 ||| b.toNat := by
        rw [UInt64.toNat_or, UInt64.toNat_shiftLeft, UInt64.toNat_ofNat', UInt8.toNat_toUInt64]
        rfl
    _ = (n <<< 8 ||| b.toNat) % 2 ^ 64 := by
        rw [Nat.or_mod_two_pow, hlow, Nat.shiftLeft_eq, Nat.shiftLeft_eq, Nat.mod_mul_mod]
    _ = (n <<< 8 + b.toNat) % 2 ^ 64 := by
        rw [Nat.shiftLeft_add_eq_or_of_lt b.toNat_lt]
    _ = (UInt64.ofNat (b.toNat + 256 * n)).toNat := by
        rw [UInt64.toNat_ofNat', Nat.shiftLeft_eq, Nat.add_comm, Nat.mul_comm]

theorem littleEndian_eq (bs : Bytes) :
    littleEndian bs = UInt64.ofNat (Nat.ofDigits 256 (bs.map UInt8.toNat)) := by
  induction bs with
  | nil => rfl
  | cons b bs ih =>
    rw [littleEndian, List.foldr_cons, ← littleEndian, ih, shiftLeft_or_eq, List.map_cons,
      Nat.ofDigits_cons]

theorem blockWords_eq (block : Array UInt8) : (blockWords block).get = words block.toList := by
  funext i
  rw [Vector.get_eq_getElem, blockWords, Vector.getElem_ofFn, littleEndian_eq, words,
    Array.toList_extract, List.extract_eq_take_drop, Nat.add_sub_cancel_left]

theorem wordBytes_eq (w : UInt64) :
    wordBytes w = (List.range 8).map fun j ↦ UInt8.ofNat (w.toNat / 256 ^ j) := by
  have hbyte : ∀ j < 8, (w >>> UInt64.ofNat (8 * j)).toUInt8 = UInt8.ofNat (w.toNat / 256 ^ j) := by
    intro j hj
    have hshift : 8 * j % 2 ^ 64 % 64 = 8 * j := by omega
    apply UInt8.toNat_inj.mp
    rw [UInt64.toNat_toUInt8, UInt64.toNat_shiftRight, UInt64.toNat_ofNat', UInt8.toNat_ofNat',
      hshift, Nat.shiftRight_eq_div_pow, Nat.pow_mul]
  rw [← List.map_congr_left fun j hj ↦ hbyte j (List.mem_range.mp hj), wordBytes,
    ← UInt64.shiftRight_zero (a := w)]
  rfl

theorem toBytes_eq (h : Chain) : h.toList.flatMap wordBytes = toBytes h.get := by
  have hlist : h.toList = (List.finRange 8).map h.get := by
    rw [← List.ofFn_eq_map, ← Vector.toList_ofFn]
    exact congrArg Vector.toList Vector.ofFn_getElem.symm
  rw [hlist, List.flatMap_map, toBytes]
  simp only [wordBytes_eq]

namespace Standard

theorem length_toBytes (h : Words 8) : (toBytes h).length = 64 := by
  simp [toBytes]

theorem padTake_eq_fill (bs : Bytes) : Bytes.padTake 128 bs = fill (bs.take 128) := by
  have hzeros : 128 - bs.length = 128 - (bs.take 128).length := by
    rw [List.length_take]
    omega
  rw [Bytes.padTake, List.take_append, List.take_replicate, Nat.min_eq_left (Nat.sub_le 128 _),
    hzeros, fill]

theorem block_append {data : Bytes} {i : Nat} (h : 128 * (i + 1) ≤ data.length) (more : Bytes) :
    block (data ++ more) i = block data i := by
  have hi : 128 ≤ (data.drop (128 * i)).length := by
    rw [List.length_drop]
    omega
  rw [block, block, List.drop_append_of_le_length (by omega), List.take_append_of_le_length hi]

theorem before_append (h : Words 8) {data : Bytes} {count : Nat}
    (hcount : 128 * count ≤ data.length) (more : Bytes) :
    before h (data ++ more) count = before h data count := by
  apply List.foldl_ext
  intro h i hi
  have hlt := List.mem_range.mp hi
  rw [block_append (by omega)]

theorem before_succ (h : Words 8) (data : Bytes) (count : Nat) :
    before h data (count + 1) =
      compression (before h data count) (words (block data count)) (128 * (count + 1)) false := by
  rw [before, List.range_succ, List.foldl_append]
  rfl

theorem blockCount_sub_one (length : Nat) : blockCount length - 1 = (length - 1) / 128 := by
  rw [blockCount]
  omega

end Standard

end ConfidentialTx.Blake2b
