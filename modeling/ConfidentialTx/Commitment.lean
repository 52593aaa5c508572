import ConfidentialTx.Curve.Keys
import ConfidentialTx.Hex

namespace ConfidentialTx

/-- Any 33 bytes: only the operations ask whether they encode a point. -/
structure Commitment where
  bytes : FixedBytes 33
  deriving DecidableEq

namespace Point

def pedersen (value : UInt64) (blind : Scalar) : Point :=
  mulAdd (.reduce value.toNat) Generator.value blind Generator.base

end Point

namespace Commitment

def toHex (c : Commitment) : String :=
  c.bytes.toHex

def describe (c : Commitment) : String :=
  "Commitment(" ++ c.toHex ++ ")"

/-- Infinity has no encoding. -/
def ofPoint? : Point → Option Commitment
  | .infinity => none
  | .affine x y =>
    some ⟨(if y.isSquare then 8 else 9) :: x.toBytes.toList, by
      rw [List.length_cons, x.toBytes.length_toList]⟩

def toPoint? (c : Commitment) : Option Point :=
  match c.bytes.toList with
  | [] => none
  | head :: rest =>
    if head = 8 ∨ head = 9 then
      (Field.ofBytes? (.fit rest)).bind fun x ↦
        (Point.ofSquareY? x).map fun p ↦ if head = 8 then p else -p
    else none

def toPoint (c : Commitment) : Except CurveError Point :=
  match c.toPoint? with
  | some p => .ok p
  | none => .error .invalidCommitment

def ofPoint (p : Point) : Except CurveError Commitment :=
  match ofPoint? p with
  | some c => .ok c
  | none => .error .pointAtInfinity

def ofBytes (bs : Bytes) : Except CurveError Commitment :=
  match (FixedBytes.ofList? bs : Option (FixedBytes 33)) with
  | none => .error (.lengthMismatch bs.length 33)
  | some b => do
    let _ ← (Commitment.mk b).toPoint
    return ⟨b⟩

def commit (cap : Capability) (value : UInt64) (blind : SecretKey) :
    Except CurveError Commitment := do
  cap.requireCommit
  ofPoint (.pedersen value blind.scalar)

def commitValue (cap : Capability) (value : UInt64) : Except CurveError Commitment := do
  cap.requireCommit
  ofPoint (.pedersen value 0)

def commitSwitch (cap : Capability) (blind : SecretKey) : Except CurveError Commitment := do
  cap.requireCommit
  ofPoint (Generator.switch.mul blind.scalar)

def points (cs : List Commitment) : Except CurveError (List Point) :=
  cs.mapM toPoint

def sum (cap : Capability) (positive negative : List Commitment) :
    Except CurveError Commitment := do
  cap.requireCommit
  let plus ← points positive
  let minus ← points negative
  ofPoint (Point.sum plus - Point.sum minus)

def balance (cap : Capability) (positive negative : List Commitment) : Bool :=
  cap = .commit &&
    match points positive, points negative with
    | .ok plus, .ok minus => Point.sum plus = Point.sum minus
    | _, _ => false

def toPublicKey (c : Commitment) : Except CurveError PublicKey :=
  match c.toPoint?.bind PublicKey.ofPoint? with
  | some key => .ok key
  | none => .error .invalidPublicKey

end Commitment

end ConfidentialTx
