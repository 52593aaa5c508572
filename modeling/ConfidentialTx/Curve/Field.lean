import ConfidentialTx.Bytes
import ConfidentialTx.Curve.Residue

namespace ConfidentialTx

def fieldOrder : Nat :=
  0xfffffffffffffffffffffffffffffffffffffffffffffffffffffffefffffc2f

instance : Modulus fieldOrder := ⟨by decide⟩

abbrev Field := Residue fieldOrder

namespace Field

def ofBytes? (b : FixedBytes 32) : Option Field :=
  if h : b.toNat < fieldOrder then some ⟨b.toNat, h⟩ else none

def toBytes (a : Field) : FixedBytes 32 :=
  FixedBytes.ofNat a.val

def isOdd (a : Field) : Bool :=
  a.val % 2 = 1

/-- The root of a square that is itself a square. -/
def sqrt? (a : Field) : Option Field :=
  let r := a.pow 256 ((fieldOrder + 1) / 4)
  if r * r = a then some r else none

def isSquare (a : Field) : Bool :=
  a.sqrt?.isSome

end Field

end ConfidentialTx
