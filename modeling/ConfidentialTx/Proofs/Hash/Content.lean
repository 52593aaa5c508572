import Mathlib
import ConfidentialTx.Hash.Content

namespace ConfidentialTx

namespace Bytes

variable {x y : Bytes}

theorem bigEndian_append_inj {count m n : Nat} (hm : m < 256 ^ count) (hn : n < 256 ^ count)
    (h : bigEndian count m ++ x = bigEndian count n ++ y) : m = n ∧ x = y := by
  obtain ⟨hdigits, hrest⟩ := List.append_inj h (by rw [length_bigEndian, length_bigEndian])
  have hvalue := congrArg toNat hdigits
  rw [toNat_bigEndian, toNat_bigEndian, Nat.pow_eq, Nat.mod_eq_of_lt hm, Nat.mod_eq_of_lt hn]
    at hvalue
  exact ⟨hvalue, hrest⟩

end Bytes

theorem FixedBytes.append_inj {size : Nat} {a b : FixedBytes size} {x y : Bytes}
    (h : a.toList ++ x = b.toList ++ y) : a = b ∧ x = y := by
  obtain ⟨hbytes, hrest⟩ := List.append_inj h (a.length_toList.trans b.length_toList.symm)
  exact ⟨FixedBytes.ext hbytes, hrest⟩

namespace Canonical

theorem sized_append_inj {a b x y : Bytes} (ha : a.length < 2 ^ 64) (hb : b.length < 2 ^ 64)
    (h : sized a ++ x = sized b ++ y) : a = b ∧ x = y := by
  rw [sized, sized, List.append_assoc, List.append_assoc] at h
  obtain ⟨hlength, hrest⟩ := Bytes.bigEndian_append_inj ha hb h
  exact List.append_inj hrest hlength

variable {α β : Type} [Canonical α] [Canonical β]

theorem hash_eq (a : α) : hash a = ⟨Blake2b.hash 32 [encode a]⟩ := rfl

theorem hashWith_eq (a : α) (b : β) : hashWith a b = ⟨Blake2b.hash 32 [encode a ++ encode b]⟩ := by
  simp only [Blake2b.hash, List.foldl_cons, List.foldl_nil, Blake2b.Hasher.update_append]
  rfl

/-- The canonical form of an object whose lengths fit gives its core, and whatever comes after it. The
core is all that the form is made from. -/
structure Delimited (fits : α → Prop) (core : α → α) : Prop where
  append_inj : ∀ {a b : α} {x y : Bytes}, fits a → fits b → encode a ++ x = encode b ++ y →
    core a = core b ∧ x = y
  encode_core : ∀ a : α, encode (core a) = encode a

namespace Delimited

variable {fits : α → Prop} {core : α → α} {a b : α} {x y : Bytes}

theorem encode_congr (h : Delimited fits core) (hab : core a = core b) : encode a = encode b := by
  rw [← h.encode_core a, ← h.encode_core b, hab]

theorem append_inj_iff (h : Delimited fits core) (ha : fits a) (hb : fits b) :
    encode a ++ x = encode b ++ y ↔ core a = core b ∧ x = y := by
  constructor
  · exact h.append_inj ha hb
  · intro hsame
    rw [h.encode_congr hsame.1, hsame.2]

theorem encode_inj (h : Delimited fits core) (ha : fits a) (hb : fits b) :
    encode a = encode b ↔ core a = core b := by
  have happend := h.append_inj_iff (x := []) (y := []) ha hb
  rwa [List.append_nil, List.append_nil, and_iff_left rfl] at happend

theorem flatMap_append_inj (h : Delimited fits core) {items others : List α}
    (hlength : items.length = others.length) (hitems : ∀ a ∈ items, fits a)
    (hothers : ∀ a ∈ others, fits a)
    (heq : items.flatMap encode ++ x = others.flatMap encode ++ y) :
    items.map core = others.map core ∧ x = y := by
  induction items generalizing others with
  | nil =>
    cases others with
    | nil => exact ⟨rfl, heq⟩
    | cons => cases hlength
  | cons a items ih =>
    cases others with
    | nil => cases hlength
    | cons b others =>
      obtain ⟨ha, hitems⟩ := List.forall_mem_cons.mp hitems
      obtain ⟨hb, hothers⟩ := List.forall_mem_cons.mp hothers
      rw [List.flatMap_cons, List.flatMap_cons, List.append_assoc, List.append_assoc] at heq
      obtain ⟨hcore, heq⟩ := h.append_inj ha hb heq
      obtain ⟨hcores, hrest⟩ := ih (Nat.succ.inj hlength) hitems hothers heq
      exact ⟨by rw [List.map_cons, List.map_cons, hcore, hcores], hrest⟩

theorem list (h : Delimited fits core) :
    Delimited (fun items : List α ↦ items.length < 2 ^ 64 ∧ ∀ a ∈ items, fits a)
      (List.map core) where
  append_inj := by
    intro items others x y hitems hothers heq
    change (Bytes.bigEndian 8 items.length ++ items.flatMap encode) ++ x =
      (Bytes.bigEndian 8 others.length ++ others.flatMap encode) ++ y at heq
    rw [List.append_assoc, List.append_assoc] at heq
    obtain ⟨hsame, heq⟩ := Bytes.bigEndian_append_inj hitems.1 hothers.1 heq
    exact h.flatMap_append_inj hsame hitems.2 hothers.2 heq
  encode_core := by
    intro items
    change Bytes.bigEndian 8 (items.map core).length ++ (items.map core).flatMap encode =
      Bytes.bigEndian 8 items.length ++ items.flatMap encode
    rw [List.length_map, List.flatMap_map]
    simp only [h.encode_core]

end Delimited

theorem delimited_uint32 : Delimited (fun _ : UInt32 ↦ True) id where
  append_inj := by
    intro m n x y _ _ h
    obtain ⟨hmn, hxy⟩ := Bytes.bigEndian_append_inj m.toNat_lt n.toNat_lt h
    exact ⟨UInt32.toNat_inj.mp hmn, hxy⟩
  encode_core _ := rfl

theorem delimited_uint64 : Delimited (fun _ : UInt64 ↦ True) id where
  append_inj := by
    intro m n x y _ _ h
    obtain ⟨hmn, hxy⟩ := Bytes.bigEndian_append_inj m.toNat_lt n.toNat_lt h
    exact ⟨UInt64.toNat_inj.mp hmn, hxy⟩
  encode_core _ := rfl

theorem delimited_of_fixed {size : Nat} (bytes : α → FixedBytes size)
    (hencode : ∀ a, encode a = (bytes a).toList) (hbytes : Function.Injective bytes) :
    Delimited (fun _ : α ↦ True) id where
  append_inj := by
    intro a b x y _ _ h
    rw [hencode, hencode] at h
    obtain ⟨hab, hxy⟩ := FixedBytes.append_inj h
    exact ⟨hbytes hab, hxy⟩
  encode_core _ := rfl

end Canonical

end ConfidentialTx
