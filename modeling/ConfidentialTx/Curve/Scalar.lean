import ConfidentialTx.Bytes
import ConfidentialTx.Curve.Residue

namespace ConfidentialTx

def groupOrder : Nat :=
  0xfffffffffffffffffffffffffffffffebaaedce6af48a03bbfd25e8cd0364141

instance : Modulus groupOrder := ⟨by decide⟩

abbrev Scalar := Residue groupOrder

namespace Scalar

def ofBytes? (b : FixedBytes 32) : Option Scalar :=
  if h : b.toNat < groupOrder then some ⟨b.toNat, h⟩ else none

def ofBytesNonzero? (b : FixedBytes 32) : Option Scalar :=
  (ofBytes? b).filter (· ≠ 0)

def toBytes (a : Scalar) : FixedBytes 32 :=
  FixedBytes.ofNat a.val

def reduce (n : Nat) : Scalar :=
  Residue.reduce groupOrder n

def isHigh (a : Scalar) : Bool :=
  a.val > groupOrder / 2

theorem toNat_toBytes (a : Scalar) : a.toBytes.toNat = a.val := by
  have h := a.val_lt
  rw [toBytes, FixedBytes.toNat_ofNat, Nat.mod_eq_of_lt]
  exact Nat.lt_of_lt_of_le h (by decide)

theorem ofBytes?_toBytes (a : Scalar) : ofBytes? a.toBytes = some a := by
  simp [ofBytes?, toNat_toBytes, a.val_lt]

end Scalar

def scalarInRange (b : FixedBytes 32) : Bool :=
  (Scalar.ofBytes? b).isSome

end ConfidentialTx
