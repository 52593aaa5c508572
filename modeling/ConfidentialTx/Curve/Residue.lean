namespace ConfidentialTx

def bits : Nat → Nat → List Bool
  | 0, _ => []
  | width + 1, n => n.testBit width :: bits width n

class Modulus (m : Nat) : Prop where
  pos : 0 < m

@[ext] structure Residue (m : Nat) where
  val : Nat
  val_lt : val < m
  deriving DecidableEq

namespace Residue

variable {m : Nat}

def reduce (m : Nat) [Modulus m] (n : Nat) : Residue m :=
  ⟨n % m, Nat.mod_lt _ Modulus.pos⟩

instance [Modulus m] (n : Nat) : OfNat (Residue m) n := ⟨reduce m n⟩

@[inline] def add (a b : Residue m) : Residue m :=
  let sum := a.val + b.val
  if h : sum < m then ⟨sum, h⟩
  else ⟨sum - m, by have := a.val_lt; have := b.val_lt; omega⟩

@[inline] def sub (a b : Residue m) : Residue m :=
  if h : b.val ≤ a.val then ⟨a.val - b.val, by have := a.val_lt; omega⟩
  else ⟨a.val + m - b.val, by have := a.val_lt; have := b.val_lt; omega⟩

@[inline] def mul (a b : Residue m) : Residue m :=
  ⟨a.val * b.val % m, Nat.mod_lt _ (Nat.zero_lt_of_lt a.val_lt)⟩

def neg (a : Residue m) : Residue m :=
  if h : a.val = 0 then a else ⟨m - a.val, by have := a.val_lt; omega⟩

instance : Add (Residue m) := ⟨add⟩
instance : Sub (Residue m) := ⟨sub⟩
instance : Mul (Residue m) := ⟨mul⟩
instance : Neg (Residue m) := ⟨neg⟩

def pow [Modulus m] (width : Nat) (a : Residue m) (n : Nat) : Residue m :=
  (bits width n).foldl (fun r bit ↦ if bit then r * r * a else r * r) 1

/-- The inverse of a nonzero residue, and zero for zero. -/
def inv [Modulus m] (a : Residue m) : Residue m :=
  a.pow 256 (m - 2)

theorem val_add (a b : Residue m) : (a + b).val = (a.val + b.val) % m := by
  have ha := a.val_lt
  have hb := b.val_lt
  change (add a b).val = _
  unfold add
  by_cases h : a.val + b.val < m
  · simp [h, Nat.mod_eq_of_lt]
  · simp only [h, dite_false]
    rw [Nat.mod_eq_sub_mod (by omega), Nat.mod_eq_of_lt (by omega)]

theorem val_sub (a b : Residue m) : (a - b).val = (a.val + (m - b.val)) % m := by
  have ha := a.val_lt
  have hb := b.val_lt
  change (sub a b).val = _
  unfold sub
  by_cases h : b.val ≤ a.val
  · simp only [h, dite_true]
    rw [Nat.mod_eq_sub_mod (by omega), Nat.mod_eq_of_lt (by omega)]
    omega
  · simp only [h, dite_false]
    rw [Nat.mod_eq_of_lt (by omega)]
    omega

theorem val_mul (a b : Residue m) : (a * b).val = a.val * b.val % m := rfl

theorem val_neg (a : Residue m) : (-a).val = (m - a.val) % m := by
  have ha := a.val_lt
  change (neg a).val = _
  unfold neg
  by_cases h : a.val = 0
  · simp [h]
  · simp only [h, dite_false]
    rw [Nat.mod_eq_of_lt (by omega)]

theorem val_reduce [Modulus m] (n : Nat) : (reduce m n).val = n % m := rfl

theorem reduce_val [Modulus m] (a : Residue m) : reduce m a.val = a := by
  ext
  rw [val_reduce, Nat.mod_eq_of_lt a.val_lt]

end Residue

end ConfidentialTx
