import Mathlib
import ConfidentialTx.RangeProof.Rewind

namespace ConfidentialTx

namespace Bytes

theorem getElem?_padTake (count : Nat) (bs : Bytes) (i : Nat) :
    (padTake count bs)[i]? = if i < count then some (bs.getD i 0) else none := by
  rw [padTake, List.getElem?_take]
  split
  · rename_i hi
    rw [List.getD_eq_getElem?_getD]
    by_cases hbs : i < bs.length
    · rw [List.getElem?_append_left hbs, List.getElem?_eq_getElem hbs, Option.getD_some]
    · rw [List.getElem?_append_right (by omega), List.getElem?_replicate, if_pos (by omega),
        List.getElem?_eq_none (by omega), Option.getD_none]
  · rfl

theorem padTake_add (m n : Nat) (bs : Bytes) :
    padTake (m + n) bs = padTake m bs ++ padTake n (bs.drop m) := by
  refine List.ext_getElem? fun i ↦ ?_
  by_cases hi : i < m
  · rw [List.getElem?_append_left (by rwa [length_padTake]), getElem?_padTake, getElem?_padTake,
      if_pos hi, if_pos (by omega)]
  · have hdrop : (bs.drop m).getD (i - m) 0 = bs.getD i 0 := by
      rw [List.getD_eq_getElem?_getD, List.getD_eq_getElem?_getD, List.getElem?_drop,
        Nat.add_sub_cancel' (by omega)]
    rw [List.getElem?_append_right (by rw [length_padTake]; omega), length_padTake,
      getElem?_padTake, getElem?_padTake, hdrop]
    split
    · rw [if_pos (by omega)]
    · rw [if_neg (by omega)]

theorem take_padTake {m n : Nat} (h : m ≤ n) (bs : Bytes) :
    (padTake n bs).take m = padTake m bs := by
  obtain ⟨k, rfl⟩ := Nat.exists_eq_add_of_le h
  rw [padTake_add, List.take_left' (length_padTake m bs)]

theorem flatten_blocks (size count : Nat) (bs : Bytes) :
    ((List.range count).map fun i ↦ padTake size (bs.drop (size * i))).flatten =
      padTake (size * count) bs := by
  induction count with
  | zero => simp [padTake]
  | succ count ih =>
    rw [List.range_succ, List.map_append, List.flatten_append, ih, List.map_singleton,
      List.flatten_singleton, Nat.mul_succ, padTake_add]

end Bytes

namespace RangeProof

/-- Four keys to a ring: the last ring alone has a block that is not the message's. -/
theorem flatten_hiddenBlocks (count v : Nat) (message : Bytes) :
    ((hiddenBlocks (List.replicate (count + 1) 4) v message).take count).flatten.flatten =
      Bytes.padTake (128 * count) message := by
  have hrows : (hiddenBlocks (List.replicate (count + 1) 4) v message).take count =
      (List.range count).map fun i ↦ (List.range 4).map fun place ↦
        Bytes.padTake 32 ((message.drop (128 * i)).drop (32 * place)) := by
    refine List.ext_getElem (by simp [hiddenBlocks]) fun i hi hi' ↦ ?_
    have hne : i ≠ count := by
      rw [List.length_map, List.length_range] at hi'
      exact hi'.ne
    simp only [hiddenBlocks, List.getElem_take, List.getElem_map, List.getElem_zipIdx,
      List.getElem_replicate, List.getElem_range, List.length_replicate, zero_add,
      Nat.add_right_cancel_iff, hne, false_and, if_false, List.drop_drop]
    refine List.map_congr_left fun place _ ↦ ?_
    congr 2
    ring
  rw [hrows, List.flatten_flatten, List.map_map]
  simp only [Function.comp_def, Bytes.flatten_blocks]

theorem dropTrailingZeros_append_replicate (bs : Bytes) (count : Nat) :
    dropTrailingZeros (bs ++ List.replicate count 0) = dropTrailingZeros bs := by
  unfold dropTrailingZeros
  rw [List.reverse_append, List.reverse_replicate]
  induction count with
  | zero => rfl
  | succ count ih =>
    rw [List.replicate_succ, List.cons_append, List.dropWhile_cons_of_pos (by decide), ih]

theorem dropTrailingZeros_padTake {count : Nat} {message : Bytes} (h : message.length ≤ count) :
    dropTrailingZeros (Bytes.padTake count message) = dropTrailingZeros message := by
  rw [Bytes.padTake, List.take_append, List.take_of_length_le h, List.take_replicate,
    dropTrailingZeros_append_replicate]

end RangeProof

end ConfidentialTx
