import Mathlib
import ConfidentialTx.Hash.Content
import ConfidentialTx.Proofs.Hash.Standard

namespace ConfidentialTx

theorem Bytes.toNat_eq_ofDigits (bs : Bytes) :
    toNat bs = Nat.ofDigits 256 (bs.reverse.map UInt8.toNat) := by
  induction bs with
  | nil => rfl
  | cons b bs ih =>
    rw [toNat_cons, ih, List.reverse_cons, List.map_append, List.map_singleton, Nat.ofDigits_append,
      Nat.ofDigits_singleton, List.length_map, List.length_reverse, Nat.pow_eq, Nat.add_comm]

namespace Write

def BigEndian (count n : Nat) (bs : Bytes) : Prop :=
  bs.length = count ∧ Nat.ofDigits 256 (bs.reverse.map UInt8.toNat) = n % 256 ^ count

/-- The bytes that a write adds to those before it. -/
def Appends : Write → Bytes → Prop
  | u8 n, bs => bs = [n]
  | u32 n, bs => BigEndian 4 n.toNat bs
  | u64 n, bs => BigEndian 8 n.toNat bs
  | i64 n, bs => BigEndian 8 n.toUInt64.toNat bs
  | raw s, bs => bs = s
  | bytes s, bs => ∃ front, BigEndian 8 s.length front ∧ bs = front ++ s
  | fixed size s, bs => s.length = size ∧ bs = s

theorem bigEndian_eq_iff {count n : Nat} {bs : Bytes} :
    Bytes.bigEndian count n = bs ↔ BigEndian count n bs := by
  rw [BigEndian, ← Bytes.toNat_eq_ofDigits]
  constructor
  · rintro rfl
    exact ⟨Bytes.length_bigEndian count n, Bytes.toNat_bigEndian count n⟩
  · rintro ⟨hlength, hvalue⟩
    apply Bytes.toNat_injective
    · rw [Bytes.length_bigEndian, hlength]
    · rw [Bytes.toNat_bigEndian, hvalue, Nat.pow_eq]

theorem encode_eq_ok_iff (a : Write) (bs : Bytes) : a.encode = .ok bs ↔ a.Appends bs := by
  cases a with
  | u8 n => rw [encode, Except.ok.injEq, Appends, eq_comm]
  | u32 n => rw [encode, Except.ok.injEq, Appends, bigEndian_eq_iff]
  | u64 n => rw [encode, Except.ok.injEq, Appends, bigEndian_eq_iff]
  | i64 n => rw [encode, Except.ok.injEq, Appends, bigEndian_eq_iff]
  | raw s => rw [encode, Except.ok.injEq, Appends, eq_comm]
  | bytes s =>
    simp only [encode, Except.ok.injEq, Appends, ← bigEndian_eq_iff, exists_eq_left']
    exact eq_comm
  | fixed size s =>
    rw [encode, Appends]
    split
    · rename_i hsize
      rw [Except.ok.injEq, eq_comm, and_iff_right hsize]
    · rename_i hsize
      exact iff_of_false (fun h ↦ nomatch h) (fun h ↦ hsize h.1)

end Write

namespace Blake2b

open Standard

namespace Hasher

/-- The hasher has been given the data, and all the blocks before the last one are in its chain. -/
structure Absorbed (h₀ : Words 8) (data : Bytes) (hasher : Hasher) : Prop where
  counted : hasher.counted = 128 * ((data.length - 1) / 128)
  pending : hasher.pending.toList = data.drop hasher.counted
  chain : hasher.chain.get = before h₀ data ((data.length - 1) / 128)

variable {h₀ : Words 8} {data : Bytes} {hasher : Hasher}

theorem absorbed_init (size keySize : Nat) :
    Absorbed (start size keySize) [] (init size keySize) where
  counted := rfl
  pending := rfl
  chain := by
    rw [start, initial_eq, Nat.mul_comm keySize]
    exact get_set initialVector 0 _

namespace Absorbed

theorem size_pending (h : Absorbed h₀ data hasher) :
    hasher.pending.size = data.length - hasher.counted := by
  rw [← Array.length_toList, h.pending, List.length_drop]

theorem size_le (h : Absorbed h₀ data hasher) : hasher.pending.size ≤ blockSize := by
  rw [h.size_pending, h.counted, blockSize]
  omega

theorem last_block (h : Absorbed h₀ data hasher) :
    block data ((data.length - 1) / 128) = fill hasher.pending.toList := by
  have hle : hasher.pending.toList.length ≤ 128 := h.size_le
  rw [block, ← h.counted, ← h.pending, List.take_of_length_le hle]

/-- A full block turns out not to be the last one when a byte comes after it. -/
theorem push_of_full (h : Absorbed h₀ data hasher) (hfull : hasher.pending.size = blockSize)
    (b : UInt8) : Absorbed h₀ (data ++ [b]) (hasher.push b) := by
  have hsize : 128 = data.length - hasher.counted := hfull.symm.trans h.size_pending
  have hcounted := h.counted
  have hlength : hasher.counted + 128 = data.length := by omega
  have hnext : ((data ++ [b]).length - 1) / 128 = (data.length - 1) / 128 + 1 := by
    rw [List.length_append, List.length_singleton]
    omega
  have hlast : block data ((data.length - 1) / 128) = hasher.pending.toList := by
    have hlength : hasher.pending.toList.length = 128 := hfull
    rw [h.last_block, fill, hlength, Nat.sub_self, List.replicate_zero, List.append_nil]
  rw [Hasher.push, if_pos hfull]
  refine ⟨?_, ?_, ?_⟩
  · rw [hnext, Nat.mul_add, ← hcounted]
    rfl
  · change [b] = (data ++ [b]).drop (hasher.counted + 128)
    rw [hlength, List.drop_left]
  · rw [hnext, before_succ, before_append h₀ (by omega), block_append (by omega), hlast,
      Nat.mul_add, ← hcounted, ← h.chain, ← blockWords_eq]
    exact compress_eq hasher.chain _ false hasher.pending

theorem push_of_room (h : Absorbed h₀ data hasher) (hroom : hasher.pending.size ≠ blockSize)
    (b : UInt8) : Absorbed h₀ (data ++ [b]) (hasher.push b) := by
  have hsize : data.length - hasher.counted ≠ 128 := h.size_pending ▸ hroom
  have hcounted := h.counted
  have hsame : ((data ++ [b]).length - 1) / 128 = (data.length - 1) / 128 := by
    rw [List.length_append, List.length_singleton]
    omega
  rw [Hasher.push, if_neg hroom]
  refine ⟨?_, ?_, ?_⟩
  · rw [hsame]
    exact hcounted
  · change (hasher.pending.push b).toList = (data ++ [b]).drop hasher.counted
    rw [Array.toList_push, h.pending, List.drop_append_of_le_length (by omega)]
  · rw [hsame, before_append h₀ (by omega)]
    exact h.chain

theorem push (h : Absorbed h₀ data hasher) (b : UInt8) :
    Absorbed h₀ (data ++ [b]) (hasher.push b) := by
  by_cases hfull : hasher.pending.size = blockSize
  · exact h.push_of_full hfull b
  · exact h.push_of_room hfull b

theorem update (h : Absorbed h₀ data hasher) (bs : Bytes) :
    Absorbed h₀ (data ++ bs) (hasher.update bs) := by
  induction bs generalizing data hasher with
  | nil => rwa [List.append_nil]
  | cons b bs ih =>
    have hrest := ih (h.push b)
    rwa [List.append_assoc] at hrest

theorem finish (h : Absorbed h₀ data hasher) {size : Nat} (hsize : size ≤ 64) :
    (hasher.finish size).toList = (toBytes (Standard.chain h₀ data)).take size := by
  have hpending := h.size_pending
  have hcounted := h.counted
  have hfill : (hasher.pending ++ Array.replicate (blockSize - hasher.pending.size) 0).toList =
      block data ((data.length - 1) / 128) := by
    rw [h.last_block, Array.toList_append, Array.toList_replicate]
    rfl
  have hcount : hasher.counted + hasher.pending.size = data.length := by omega
  have hchain : (compress hasher.chain (hasher.counted + hasher.pending.size) true
      (hasher.pending ++ Array.replicate (blockSize - hasher.pending.size) 0)).get =
        Standard.chain h₀ data := by
    rw [compress_eq, blockWords_eq, hfill, hcount, h.chain, Standard.chain, blockCount_sub_one]
  have hfit (bs : Bytes) (hlength : size ≤ bs.length) :
      (FixedBytes.fit bs : FixedBytes size).toList = bs.take size :=
    List.take_append_of_le_length hlength
  rw [Hasher.finish, toBytes_eq, hchain]
  exact hfit _ (hsize.trans (length_toBytes _).ge)

end Absorbed

theorem finish_update (keySize : Nat) (data : Bytes) {size : Nat} (hsize : size ≤ 64) :
    (((init size keySize).update data).finish size).toList =
      (toBytes (Standard.chain (start size keySize) data)).take size :=
  ((absorbed_init size keySize).update data).finish hsize

/-- Takes as many bytes as the block has room for, and compresses it if there are more. -/
def updateBlocks (hasher : Hasher) (bs : Bytes) : Hasher :=
  let room := blockSize - hasher.pending.size
  if bs.length ≤ room then { hasher with pending := hasher.pending ++ bs.toArray }
  else
    let block := hasher.pending ++ (bs.take room).toArray
    updateBlocks
      { chain := compress hasher.chain (hasher.counted + blockSize) false block
        counted := hasher.counted + blockSize
        pending := #[] }
      (bs.drop room)
termination_by bs.length + hasher.pending.size
decreasing_by
  rw [List.length_drop, Array.size_empty, blockSize]
  omega

theorem update_of_room {bs : Bytes} (hroom : hasher.pending.size + bs.length ≤ blockSize) :
    hasher.update bs = { hasher with pending := hasher.pending ++ bs.toArray } := by
  induction bs generalizing hasher with
  | nil => rw [update_nil, Array.append_empty]
  | cons b bs ih =>
    rw [List.length_cons] at hroom
    have hpush : hasher.push b = { hasher with pending := hasher.pending.push b } :=
      if_neg (by omega)
    rw [update, List.foldl_cons, ← update, hpush, ih (by rw [Array.size_push]; omega)]
    simp

theorem update_of_full (hfull : hasher.pending.size = blockSize) (b : UInt8) (bs : Bytes) :
    hasher.update (b :: bs) =
      update
        { chain := compress hasher.chain (hasher.counted + blockSize) false hasher.pending
          counted := hasher.counted + blockSize
          pending := #[] }
        (b :: bs) := by
  rw [update, update, List.foldl_cons, List.foldl_cons, Hasher.push, if_pos hfull]
  rfl

theorem updateBlocks_eq (hle : hasher.pending.size ≤ blockSize) (bs : Bytes) :
    hasher.updateBlocks bs = hasher.update bs := by
  fun_induction updateBlocks hasher bs with
  | case1 hasher bs room hroom => rw [update_of_room (by omega)]
  | case2 hasher bs room hroom block ih =>
    have htake : (bs.take room).length = room := List.length_take_of_le (Nat.le_of_not_le hroom)
    have hsize : block.size = blockSize := by
      have hadd : block.size = hasher.pending.size + (bs.take room).length := Array.size_append
      rw [hadd, htake]
      exact Nat.add_sub_cancel' hle
    have hfilled : hasher.update (bs.take room) = { hasher with pending := block } :=
      update_of_room (by omega)
    obtain ⟨b, rest, hdrop⟩ : ∃ b rest, bs.drop room = b :: rest :=
      List.exists_cons_of_ne_nil (mt List.drop_eq_nil_iff.mp hroom)
    have hcut := update_append hasher (bs.take room) (bs.drop room)
    rw [List.take_append_drop, hfilled, hdrop, update_of_full hsize] at hcut
    rw [ih (Nat.zero_le blockSize), hdrop, hcut]

theorem pending_update (size keySize : Nat) (bs : Bytes) :
    ((init size keySize).update bs).pending.size ≤ blockSize :=
  ((absorbed_init size keySize).update bs).size_le

theorem foldl_updateBlocks (size keySize : Nat) (parts : List Bytes) :
    parts.foldl updateBlocks (init size keySize) = (init size keySize).update parts.flatten := by
  induction parts using List.reverseRecOn with
  | nil => rfl
  | append_singleton parts bs ih =>
    rw [List.foldl_append, ih, List.foldl_cons, List.foldl_nil,
      updateBlocks_eq (pending_update size keySize _), ← update_append]
    simp

end Hasher

theorem keyedHash_eq {size : Nat} (hsize : size ≤ 64) (key : Key) (parts : List Bytes) :
    (keyedHash size key parts).toList =
      if key.bytes = [] then digest size [] (List.replicate 128 0 ++ parts.flatten)
      else digest size key.bytes parts.flatten := by
  have hkey : key.bytes.take 128 = key.bytes :=
    List.take_of_length_le (key.length_le.trans (by decide))
  rw [keyedHash, Hasher.foldl_update, ← Hasher.update_append, Hasher.finish_update _ _ hsize,
    blockSize, padTake_eq_fill, hkey]
  split
  · rename_i hempty
    rw [hempty]
    rfl
  · rename_i hne
    rw [digest, if_neg hne]

theorem hash_eq {size : Nat} (hsize : size ≤ 64) (parts : List Bytes) :
    (hash size parts).toList = digest size [] parts.flatten := by
  rw [hash, Hasher.foldl_update, Hasher.finish_update _ _ hsize]
  rfl

end Blake2b

namespace HashWriter

open Blake2b

theorem raw_append (w : HashWriter) (a b : Bytes) : (w.raw a).raw b = w.raw (a ++ b) :=
  congrArg mk (Hasher.update_append w.hasher a b).symm

theorem foldlM_write (writes : List Write) (w : HashWriter) :
    writes.foldlM write w = (writes.mapM Write.encode).map fun pieces ↦ w.raw pieces.flatten := by
  induction writes generalizing w with
  | nil => rfl
  | cons a writes ih =>
    rw [List.foldlM_cons, List.mapM_cons]
    cases ha : a.encode with
    | error e =>
      rw [write, ha]
      rfl
    | ok bs =>
      have hwrite : w.write a = .ok (w.raw bs) := by rw [write, ha]; rfl
      rw [hwrite]
      change writes.foldlM write (w.raw bs) = _
      rw [ih]
      cases writes.mapM Write.encode with
      | error e => rfl
      | ok pieces => exact congrArg Except.ok (raw_append w bs pieces.flatten)

theorem digest_of_writes (writes : List Write) :
    (writes.foldlM write empty).map (fun w ↦ w.finish.bytes.toList) =
      (writes.mapM Write.encode).map fun pieces ↦ Standard.digest 32 [] pieces.flatten := by
  rw [foldlM_write]
  cases writes.mapM Write.encode with
  | error e => rfl
  | ok pieces => exact congrArg Except.ok (Hasher.finish_update 0 pieces.flatten (by decide))

end HashWriter

namespace Blake2b

/-- Digests are those of the standard, over the bytes that the pieces make together: keyed ones,
where an empty key is a block of zeros in front of an unkeyed message, unkeyed ones, and those of a
writer, which ends with the first write that is not of its declared length. So it does not matter
how the bytes are cut into pieces, nor whether they are pushed one by one or a block at a time. -/
theorem hash_in_pieces {size : Nat} (hsize : size ≤ 64) :
    (∀ bs : Bytes, bs.length ≤ 64 → ∃ key, Key.ofBytes? bs = some key ∧ ∀ parts : List Bytes,
      (keyedHash size key parts).toList =
        if bs = [] then Standard.digest size [] (List.replicate 128 0 ++ parts.flatten)
        else Standard.digest size bs parts.flatten) ∧
    (∀ parts : List Bytes, (hash size parts).toList = Standard.digest size [] parts.flatten) ∧
    (∀ (a : Write) (bs : Bytes), a.encode = .ok bs ↔ a.Appends bs) ∧
    (∀ writes : List Write,
      (writes.foldlM HashWriter.write HashWriter.empty).map (fun w ↦ w.finish.bytes.toList) =
        (writes.mapM Write.encode).map fun pieces ↦ Standard.digest 32 [] pieces.flatten) ∧
    (∀ parts others : List Bytes, parts.flatten = others.flatten →
      (∀ key, keyedHash size key parts = keyedHash size key others) ∧
        hash size parts = hash size others) ∧
    (∀ (writes others : List Write) (pieces otherPieces : List Bytes),
      writes.mapM Write.encode = .ok pieces → others.mapM Write.encode = .ok otherPieces →
      pieces.flatten = otherPieces.flatten →
      (writes.foldlM HashWriter.write HashWriter.empty).map HashWriter.finish =
        (others.foldlM HashWriter.write HashWriter.empty).map HashWriter.finish) ∧
    ∀ (keySize : Nat) (parts : List Bytes),
      parts.foldl Hasher.updateBlocks (Hasher.init size keySize) =
        parts.foldl Hasher.update (Hasher.init size keySize) := by
  refine ⟨?_, hash_eq hsize, Write.encode_eq_ok_iff, HashWriter.digest_of_writes, ?_, ?_, ?_⟩
  · intro bs hlength
    exact ⟨⟨bs, hlength⟩, dif_pos hlength, keyedHash_eq hsize ⟨bs, hlength⟩⟩
  · intro parts others hsame
    refine ⟨fun key ↦ ?_, ?_⟩
    · rw [keyedHash, keyedHash, Hasher.foldl_update, Hasher.foldl_update, hsame]
    · rw [hash, hash, Hasher.foldl_update, Hasher.foldl_update, hsame]
  · intro writes others pieces otherPieces hwrites hothers hsame
    rw [HashWriter.foldlM_write, HashWriter.foldlM_write, hwrites, hothers]
    exact congrArg (fun bs ↦ Except.ok (HashWriter.empty.raw bs).finish) hsame
  · intro keySize parts
    rw [Hasher.foldl_updateBlocks, Hasher.foldl_update]

/-- A whole block in three pieces, one of them empty, and two numbers written as one string. -/
theorem hash_in_pieces_block :
    20 ≤ 64 ∧
    (∃ key, Key.ofBytes? [1, 2, 3] = some key ∧
      keyedHash 20 key [List.replicate 64 0, [], List.replicate 64 0] =
        keyedHash 20 key [List.replicate 128 0] ∧
      (keyedHash 20 key [List.replicate 128 0]).toList =
        Standard.digest 20 [1, 2, 3] (List.replicate 128 0)) ∧
    ([Write.u8 1, Write.raw [], Write.u8 2].foldlM HashWriter.write HashWriter.empty).map
        HashWriter.finish =
      ([Write.raw [1, 2]].foldlM HashWriter.write HashWriter.empty).map HashWriter.finish := by
  have hsize : 20 ≤ 64 := by decide
  obtain ⟨hkeyed, -, -, -, hparts, hwrites, -⟩ := hash_in_pieces hsize
  obtain ⟨key, hkey, hdigest⟩ := hkeyed [1, 2, 3] (by decide)
  have hblock : [List.replicate 64 (0 : UInt8), [], List.replicate 64 0].flatten =
      [List.replicate 128 0].flatten := by decide
  have hwhole := hdigest [List.replicate 128 0]
  rw [if_neg (by decide), List.flatten_singleton] at hwhole
  exact ⟨hsize, ⟨key, hkey, (hparts _ _ hblock).1 key, hwhole⟩,
    hwrites _ _ [[1], [], [2]] [[1, 2]] rfl rfl rfl⟩

end Blake2b

end ConfidentialTx
