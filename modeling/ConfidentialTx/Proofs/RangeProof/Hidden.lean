import Mathlib
import ConfidentialTx.RangeProof.Rewind
import ConfidentialTx.Proofs.Curve.Prime
import ConfidentialTx.Proofs.RangeProof.Digits

namespace ConfidentialTx

theorem Bytes.xor_xor_cancel {pad block : Bytes} (h : block.length ≤ pad.length) :
    xor (xor pad block) pad = block := by
  induction block generalizing pad with
  | nil => simp [xor]
  | cons b block ih =>
    cases pad with
    | nil => cases h
    | cons a pad =>
      have hbyte : a ^^^ b ^^^ a = b := by
        rw [UInt8.xor_comm a b, UInt8.xor_assoc, UInt8.xor_self, UInt8.xor_zero]
      have hrest := ih (Nat.le_of_succ_le_succ h)
      simp only [xor, List.zipWith_cons_cons] at hrest ⊢
      rw [hbyte, hrest]

theorem Bytes.zero_xor {count : Nat} {bs : Bytes} (h : bs.length = count) :
    xor (List.replicate count 0) bs = bs := by
  subst h
  induction bs with
  | nil => rfl
  | cons b bs ih =>
    simp only [xor, List.length_cons, List.replicate_succ, List.zipWith_cons_cons,
      UInt8.zero_xor] at ih ⊢
    rw [ih]

namespace RangeProof

theorem getElem?_of_mapM {α β : Type} {f : α → Option β} {as : List α} {bs : List β}
    (h : as.mapM f = some bs) {i : Nat} {a : α} (ha : as[i]? = some a) :
    ∃ b, bs[i]? = some b ∧ f a = some b := by
  induction as generalizing bs i with
  | nil => cases ha
  | cons a' as ih =>
    obtain ⟨b, rest, hb, hrest, rfl⟩ := mapM_cons_eq_some h
    cases i with
    | zero =>
      cases ha
      exact ⟨b, rfl, hb⟩
    | succ i => exact ih hrest ha

theorem unmask_of_mask {pad : FixedBytes 32} {block : Bytes} {s : Scalar}
    (hblock : block.length = 32)
    (h : Scalar.ofBytesNonzero? (.fit (Bytes.xor pad.toList block)) = some s) :
    unmask s pad = block := by
  have hbytes := Scalar.ofBytes?_eq_some_iff.mp (Option.filter_eq_some_iff.mp h).1
  have hlength : (Bytes.xor pad.toList block).length = 32 := by
    rw [Bytes.xor, List.length_zipWith, pad.length_toList, hblock, min_self]
  rw [unmask, ← hbytes, FixedBytes.toList_fit hlength]
  exact Bytes.xor_xor_cancel (by rw [hblock, pad.length_toList])

theorem zipWith_unmask {pads : List (FixedBytes 32)} {blocks : List Bytes} {masked : List Scalar}
    (hblocks : ∀ b ∈ blocks, b.length = 32) (hlength : blocks.length = pads.length)
    (h : (pads.zip blocks).mapM (fun (pad, block) ↦
      Scalar.ofBytesNonzero? (.fit (Bytes.xor pad.toList block))) = some masked) :
    List.zipWith unmask masked pads = blocks := by
  have hmasked : masked.length = pads.length := by
    rw [length_of_mapM h, List.length_zip, hlength, min_self]
  refine List.ext_getElem ?_ fun i hi hi' ↦ ?_
  · rw [List.length_zipWith, hmasked, hlength, min_self]
  · have hpads : i < pads.length := by omega
    obtain ⟨s, hs, hmask⟩ := getElem?_of_mapM h (i := i) (a := (pads[i], blocks[i]))
      (by simp [hpads, hi'])
    obtain ⟨hi'', rfl⟩ := List.getElem?_eq_some_iff.mp hs
    rw [List.getElem_zipWith]
    exact unmask_of_mask (hblocks _ (List.getElem_mem hi')) hmask

/-- The responses of a ring that hide blocks, but for the one at the owner's place, which closes the
ring. -/
structure Hides (place : Nat) (secret : Scalar) (pads : List (FixedBytes 32)) (blocks : List Bytes)
    (es responses : List Scalar) : Prop where
  length_eq : es.length = pads.length
  masks : ∃ masked e nonce, masked.length = pads.length ∧
    List.zipWith unmask masked pads = blocks ∧ masked[place]? = some nonce ∧
    es[place]? = some e ∧ e ≠ 0 ∧ responses = masked.set place (nonce - e * secret)

variable {place : Nat} {secret : Scalar} {pads : List (FixedBytes 32)} {blocks : List Bytes}
  {es responses : List Scalar}

theorem sub_mul_add_cancel (nonce e secret : Scalar) :
    nonce - e * secret + e * secret = nonce := by
  apply Residue.toZMod_injective
  rw [Residue.toZMod_add, Residue.toZMod_sub, sub_add_cancel]

theorem ringBlocks_of_hides (h : Hides place secret pads blocks es responses) :
    ringBlocks place [] secret responses es pads = blocks := by
  obtain ⟨hes, masked, e, nonce, hlength, rfl, hnonce, he, -, rfl⟩ := h
  simp only [ringBlocks, List.not_mem_nil, if_false, ← List.map_eq_flatMap]
  refine List.ext_getElem ?_ fun i hi hi' ↦ ?_
  · simp [hes, hlength]
  · simp only [List.getElem_map, List.getElem_zipIdx, List.getElem_zip, List.getElem_zipWith,
      zero_add, List.getElem_set]
    by_cases hplace : i = place
    · subst hplace
      obtain ⟨_, rfl⟩ := List.getElem?_eq_some_iff.mp hnonce
      obtain ⟨_, rfl⟩ := List.getElem?_eq_some_iff.mp he
      simp only [if_true, sub_mul_add_cancel]
    · rw [if_neg hplace, if_neg (Ne.symm hplace)]

/-- A pad that hides nothing is the nonce itself. -/
theorem reduce_of_unmask {s : Scalar} {pad : FixedBytes 32}
    (h : unmask s pad = List.replicate 32 0) : Scalar.reduce pad.toNat = s := by
  have hpad : pad = s.toBytes := by
    ext1
    have hxor := @Bytes.xor_xor_cancel s.toBytes.toList pad.toList
      (by rw [pad.length_toList, s.toBytes.length_toList])
    rw [unmask] at h
    rw [← hxor, h, Bytes.zero_xor s.toBytes.length_toList]
  rw [hpad, Scalar.toNat_toBytes, Scalar.reduce, Residue.reduce_val]

theorem recoverSecret_of_hides (h : Hides place secret pads blocks es responses)
    (hzero : blocks[place]? = some (List.replicate 32 0)) :
    ∃ pad e response, pads[place]? = some pad ∧ es[place]? = some e ∧
      responses[place]? = some response ∧
      recoverSecret (.reduce pad.toNat) e response = secret := by
  obtain ⟨-, masked, e, nonce, hlength, rfl, hnonce, he, hne, rfl⟩ := h
  obtain ⟨hplace, hget⟩ := List.getElem?_eq_some_iff.mp hnonce
  have hpad : place < pads.length := by rwa [← hlength]
  refine ⟨pads[place], e, nonce - e * secret, List.getElem?_eq_getElem hpad, he, ?_, ?_⟩
  · rw [List.getElem?_set_self hplace]
  · rw [List.getElem?_zipWith, hnonce, List.getElem?_eq_getElem hpad] at hzero
    rw [reduce_of_unmask (Option.some.inj hzero)]
    apply Residue.toZMod_injective
    have hcast : e.toZMod ≠ 0 := by rwa [ne_eq, Residue.toZMod_eq_zero]
    rw [recoverSecret, Residue.toZMod_mul, Scalar.toZMod_inv, Residue.toZMod_sub,
      Residue.toZMod_sub, Residue.toZMod_mul]
    field_simp
    ring

theorem drop_add_append {α : Type} {front : List α} {size : Nat} (h : front.length = size)
    (rest : List α) (n : Nat) : (front ++ rest).drop (size + n) = rest.drop n := by
  rw [← h, List.drop_length_add_append]

theorem markedValue?_valueMarker {v : Nat} (h : v < 2 ^ 64) :
    markedValue? (valueMarker v) = some v := by
  have hlength := Bytes.length_bigEndian 8 v
  have hvalue : Bytes.toNat (Bytes.bigEndian 8 v) = v := by
    rw [Bytes.toNat_bigEndian]
    exact Nat.mod_eq_of_lt h
  unfold valueMarker
  generalize Bytes.bigEndian 8 v = copy at hlength hvalue ⊢
  simp only [List.append_assoc]
  have hfront : [128, 0, 0, 0, 0, 0, 0, (0 : UInt8)].length = 8 := rfl
  have htake (rest : Bytes) : (copy ++ rest).take 8 = copy := by
    rw [← hlength, List.take_left]
  have h8 := drop_add_append hfront (copy ++ (copy ++ copy)) 0
  have h16 := drop_add_append hfront (copy ++ (copy ++ copy)) (8 + 0)
  have h24 := drop_add_append hfront (copy ++ (copy ++ copy)) (8 + (8 + 0))
  rw [drop_add_append hlength] at h16 h24
  rw [drop_add_append hlength] at h24
  have hcopy : copy.take 8 = copy := by rw [← hlength, List.take_length]
  simp only [List.drop_zero, Nat.add_zero, Nat.reduceAdd] at h8 h16 h24
  simp only [markedValue?, h8, h16, h24, htake, hcopy, hvalue]
  simp

theorem markerPlace_spec {size place : Nat} (hsize : 2 ≤ size) :
    markerPlace size place ≠ place ∧ markerPlace size place < size := by
  unfold markerPlace
  split
  · omega
  · omega

/-- The marker is looked for in the last place first. -/
theorem findMarker_of_hides {v : Nat} (h : Hides place secret pads blocks es responses)
    (hsize : 2 ≤ pads.length) (hplace : place < pads.length) (hv : v < 2 ^ 64)
    (hmarker : blocks[markerPlace pads.length place]? = some (valueMarker v))
    (hunmarked : place = pads.length - 1 → ∀ response pad, responses.getLast? = some response →
      pads.getLast? = some pad → markedValue? (unmask response pad) = none) :
    findMarker responses pads = some (markerPlace pads.length place, v) := by
  obtain ⟨-, masked, e, nonce, hlength, rfl, hnonce, -, -, rfl⟩ := h
  obtain ⟨hne, hlt⟩ := @markerPlace_spec _ place hsize
  have hmasked : markerPlace pads.length place < masked.length := by rwa [hlength]
  rw [List.getElem?_zipWith, List.getElem?_eq_getElem hlt, List.getElem?_eq_getElem hmasked,
    Option.some.injEq] at hmarker
  have hread : (do
      let response ← (masked.set place (nonce - e * secret))[markerPlace pads.length place]?
      let pad ← pads[markerPlace pads.length place]?
      let v ← markedValue? (unmask response pad)
      return (markerPlace pads.length place, v)) = some (markerPlace pads.length place, v) := by
    rw [List.getElem?_set_ne hne.symm, List.getElem?_eq_getElem hlt,
      List.getElem?_eq_getElem hmasked]
    simp only [Option.bind_eq_bind, Option.bind_some, hmarker, markedValue?_valueMarker hv]
    rfl
  simp only [findMarker, List.length_set, hlength]
  by_cases hlast : place = pads.length - 1
  · have hplaceOf : markerPlace pads.length place = pads.length - 2 := if_pos hlast
    have hpad : pads[place]? = some pads[place] := List.getElem?_eq_getElem hplace
    have hresponse : (masked.set place (nonce - e * secret))[place]? =
        some (nonce - e * secret) := List.getElem?_set_self (by rwa [hlength])
    have hnone : markedValue? (unmask (nonce - e * secret) pads[place]) = none := by
      refine hunmarked hlast _ _ ?_ ?_
      · rw [List.getLast?_eq_getElem?, List.length_set, hlength, ← hlast, hresponse]
      · rw [List.getLast?_eq_getElem?, ← hlast, hpad]
    rw [hplaceOf] at hread ⊢
    rw [List.findSome?_cons, ← hlast, hresponse, hpad]
    simp only [Option.bind_eq_bind, Option.bind_some, hnone, Option.bind_none]
    rw [List.findSome?_cons]
    simp only [Option.bind_eq_bind] at hread
    rw [hread]
  · have hplaceOf : markerPlace pads.length place = pads.length - 1 := if_neg hlast
    rw [hplaceOf] at hread ⊢
    rw [List.findSome?_cons, hread]

end RangeProof

end ConfidentialTx
