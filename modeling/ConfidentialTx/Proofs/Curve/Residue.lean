import Mathlib
import ConfidentialTx.Curve.Residue

namespace ConfidentialTx

theorem top_bit (t width n : ℕ) :
    (2 * t + (n.testBit width).toNat) * 2 ^ width + n % 2 ^ width =
      t * 2 ^ (width + 1) + n % 2 ^ (width + 1) := by
  rw [Nat.toNat_testBit, Nat.mod_pow_succ]
  ring

/-- A walk along the bits of two numbers at once builds up both. -/
theorem foldl_zip_bits {β : Type} (f : β → Bool × Bool → β) (R : ℕ → ℕ → β → Prop)
    (hstep : ∀ s t r p, R s t r → R (2 * s + p.1.toNat) (2 * t + p.2.toNat) (f r p))
    (width a b : ℕ) {s t : ℕ} {r : β} (h : R s t r) :
    R (s * 2 ^ width + a % 2 ^ width) (t * 2 ^ width + b % 2 ^ width)
      (((bits width a).zip (bits width b)).foldl f r) := by
  induction width generalizing s t r with
  | zero => simpa [bits, Nat.mod_one] using h
  | succ width ih =>
    have hnext := ih (hstep s t r (a.testBit width, b.testBit width) h)
    simpa only [bits, List.zip_cons_cons, List.foldl_cons, top_bit] using hnext

theorem foldl_bits {β : Type} (f : β → Bool → β) (R : ℕ → β → Prop)
    (hstep : ∀ t r bit, R t r → R (2 * t + bit.toNat) (f r bit)) (width n : ℕ) {t : ℕ} {r : β}
    (h : R t r) : R (t * 2 ^ width + n % 2 ^ width) ((bits width n).foldl f r) := by
  have hzip := foldl_zip_bits (fun r p ↦ f r p.1) (fun s _ r ↦ R s r)
    (fun s _ r p hr ↦ hstep s r p.1 hr) width n n (t := t) h
  have hfst : ((bits width n).zip (bits width n)).map Prod.fst = bits width n :=
    List.map_fst_zip le_rfl
  rwa [← List.foldl_map, hfst] at hzip

namespace Residue

variable {m : ℕ}

def toZMod (a : Residue m) : ZMod m := (a.val : ZMod m)

theorem toZMod_injective : Function.Injective (toZMod : Residue m → ZMod m) := by
  intro a b h
  ext
  have hmod : a.val % m = b.val % m := (ZMod.natCast_eq_natCast_iff' _ _ _).mp h
  rwa [Nat.mod_eq_of_lt a.val_lt, Nat.mod_eq_of_lt b.val_lt] at hmod

@[simp] theorem toZMod_inj {a b : Residue m} : a.toZMod = b.toZMod ↔ a = b :=
  toZMod_injective.eq_iff

@[simp] theorem toZMod_add (a b : Residue m) : (a + b).toZMod = a.toZMod + b.toZMod := by
  simp [toZMod, val_add]

@[simp] theorem toZMod_sub (a b : Residue m) : (a - b).toZMod = a.toZMod - b.toZMod := by
  have hb := b.val_lt.le
  simp [toZMod, val_sub, Nat.cast_sub hb, sub_eq_add_neg]

@[simp] theorem toZMod_mul (a b : Residue m) : (a * b).toZMod = a.toZMod * b.toZMod := by
  simp [toZMod, val_mul]

@[simp] theorem toZMod_neg (a : Residue m) : (-a).toZMod = -a.toZMod := by
  have ha := a.val_lt.le
  simp [toZMod, val_neg, Nat.cast_sub ha]

section

variable [Modulus m]

instance : NeZero m := ⟨Modulus.pos.ne'⟩

@[simp] theorem toZMod_reduce (n : ℕ) : (reduce m n).toZMod = n := by
  simp [toZMod, val_reduce]

@[simp] theorem toZMod_zero : (0 : Residue m).toZMod = 0 :=
  (toZMod_reduce 0).trans Nat.cast_zero

@[simp] theorem toZMod_one : (1 : Residue m).toZMod = 1 :=
  (toZMod_reduce 1).trans Nat.cast_one

@[simp] theorem toZMod_ofNat (n : ℕ) [n.AtLeastTwo] :
    (no_index (OfNat.ofNat n) : Residue m).toZMod = OfNat.ofNat n :=
  (toZMod_reduce n).trans Nat.cast_ofNat

@[simp] theorem toZMod_eq_zero {a : Residue m} : a.toZMod = 0 ↔ a = 0 := by
  rw [← toZMod_zero, toZMod_inj]

def ofZMod (x : ZMod m) : Residue m := ⟨x.val, x.val_lt⟩

@[simp] theorem toZMod_ofZMod (x : ZMod m) : (ofZMod x).toZMod = x := by
  simp [ofZMod, toZMod]

@[simp] theorem ofZMod_toZMod (a : Residue m) : ofZMod a.toZMod = a :=
  toZMod_injective (toZMod_ofZMod _)

theorem ofZMod_injective : Function.Injective (ofZMod : ZMod m → Residue m) :=
  Function.LeftInverse.injective toZMod_ofZMod

theorem toZMod_pow (width : ℕ) (a : Residue m) (n : ℕ) :
    (a.pow width n).toZMod = a.toZMod ^ (n % 2 ^ width) := by
  have h := foldl_bits (fun r bit ↦ if bit then r * r * a else r * r)
    (fun t r ↦ r.toZMod = a.toZMod ^ t) (fun t r bit hr ↦ ?_) width n
    (show (1 : Residue m).toZMod = a.toZMod ^ 0 by simp)
  · simpa [pow] using h
  · cases bit
    · simp [hr, two_mul, pow_add]
    · simp [hr, two_mul, pow_add]

theorem toZMod_inv [Fact m.Prime] (a : Residue m) (hlow : 2 < m) (hhigh : m ≤ 2 ^ 256) :
    a.inv.toZMod = a.toZMod⁻¹ := by
  rw [inv, toZMod_pow, Nat.mod_eq_of_lt (by omega)]
  by_cases ha : a.toZMod = 0
  · rw [ha, zero_pow (by omega), inv_zero]
  · have hfermat := ZMod.pow_card_sub_one_eq_one ha
    apply eq_inv_of_mul_eq_one_left
    rw [← pow_succ, show m - 2 + 1 = m - 1 by omega, hfermat]

end

end Residue

end ConfidentialTx
